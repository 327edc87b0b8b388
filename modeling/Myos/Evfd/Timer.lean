import Mathlib.Algebra.GroupWithZero.Nat
import Myos.Lib.Consts

namespace Myos.Evfd

structure TimerState where
  nextNs : Nat
  intervalNs : Nat
  expirations : Nat
deriving DecidableEq, Repr

namespace TimerState

variable (s : TimerState) (now : Nat)

def due : Bool := s.nextNs != 0 && decide (s.nextNs ≤ now)

def fire : TimerState :=
  if !s.due now then s
  else if s.intervalNs = 0 then { s with expirations := min (s.expirations + 1) U64_MAX, nextNs := 0 }
  else
    let missed := (now - s.nextNs) / s.intervalNs + 1
    { s with
      expirations := min (s.expirations + missed) U64_MAX
      nextNs := min (s.nextNs + min (missed * s.intervalNs) U64_MAX) U64_MAX }

def read : TimerState × Nat :=
  let fired := s.fire now
  ({ fired with expirations := 0 }, fired.expirations)

def arm (nextNs intervalNs : Nat) : TimerState := ⟨nextNs, intervalNs, 0⟩

theorem fire_expirations_of_not_due {s : TimerState} {now : Nat} (ahead : s.due now = false) : s.fire now = s := by
  simp [fire, ahead]

theorem le_nextNs_fire {s : TimerState} {now : Nat} (bound : s.nextNs ≤ U64_MAX) (armed : (s.fire now).nextNs ≠ 0) :
    s.nextNs ≠ 0 ∧ s.nextNs ≤ (s.fire now).nextNs := by
  unfold fire at armed ⊢
  split at armed
  · rename_i ahead
    rw [if_pos ahead]
    exact ⟨armed, Nat.le_refl _⟩
  rename_i due
  rw [if_neg due]
  split at armed
  · exact absurd rfl armed
  rename_i repeats
  rw [if_neg repeats]
  have isDue : s.due now = true := by simpa using due
  simp only [TimerState.due, Bool.and_eq_true, bne_iff_ne] at isDue
  exact ⟨isDue.1, Nat.le_min.mpr ⟨Nat.le_add_right .., bound⟩⟩

theorem fire_nextNs_le {s : TimerState} (now : Nat) (bound : s.nextNs ≤ U64_MAX) : (s.fire now).nextNs ≤ U64_MAX := by
  unfold fire
  split
  · exact bound
  · split
    · exact Nat.zero_le _
    · exact Nat.min_le_right ..

end TimerState
end Myos.Evfd
