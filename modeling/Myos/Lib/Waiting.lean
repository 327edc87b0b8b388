namespace Myos.Lib

inductive Waiting (γ : Type)
  | away
  | read (seq : Nat)
  | block (want : γ) (seq : Nat)
  | asleep (want : γ)

namespace Waiting

variable {γ : Type} {seq seq' : Nat} {stalled stalled' : γ → Prop} {w : Waiting γ}

def Fine (seq : Nat) (stalled : γ → Prop) : Waiting γ → Prop
  | away => True
  | read seen => seen ≤ seq
  | block want seen => seen ≤ seq ∧ (seen = seq → stalled want)
  | asleep want => stalled want

theorem Fine.mono (fine : Fine seq stalled w) (later : seq ≤ seq') (kept : ∀ want, stalled want → stalled' want) :
    Fine seq' stalled' w := by
  cases w with
  | away => trivial
  | read seen => exact Nat.le_trans fine later
  | block want seen =>
    refine ⟨Nat.le_trans fine.1 later, fun now => kept want (fine.2 ?_)⟩
    have := fine.1
    omega
  | asleep want => exact kept want fine

theorem Fine.wake (fine : Fine seq stalled w) (later : seq < seq') (awake : ∀ want, w ≠ asleep want) :
    Fine seq' stalled' w := by
  cases w with
  | away => trivial
  | read seen => exact Nat.le_trans fine (Nat.le_of_lt later)
  | block want seen =>
    have early := Nat.lt_of_le_of_lt fine.1 later
    exact ⟨Nat.le_of_lt early, fun now => absurd now (Nat.ne_of_lt early)⟩
  | asleep want => exact absurd rfl (awake want)

end Waiting
end Myos.Lib
