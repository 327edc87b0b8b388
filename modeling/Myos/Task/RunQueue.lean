import Mathlib.Data.Nat.BitIndices
import Mathlib.Data.Nat.Factorization.Basic
import Myos.Lib.Consts

/-! The round a CPU makes over the tasks queued for it. -/

namespace Myos.Task.RunQueue

abbrev WORDS : Nat := (MAX_TASKS + 63) / 64

/-- A set of task slots, a bit for each. -/
structure TaskBits where
  words : Fin WORDS → Word

/-- The bits of a word, the lowest taken and cleared until none is left. -/
def bits : Nat → Word → List Nat
  | 0, _ => []
  | fuel + 1, w => if w = 0 then [] else w.ctz.toNat :: bits fuel (w &&& (w - 1))

namespace TaskBits

variable (set : TaskBits)

def contains (slot : Nat) : Bool :=
  if inside : slot < MAX_TASKS then (set.words ⟨slot / 64, Nat.div_lt_of_lt_mul inside⟩).getLsbD (slot % 64) else false

/-- The slots, lowest first. -/
def iter : List Nat := (List.finRange WORDS).flatMap fun i => (bits 64 (set.words i)).map (i * 64 + ·)

def nextAfter (current : Nat) : Option Nat := (set.iter.find? (current < ·)).or set.iter.head?

end TaskBits

theorem and_pred (k q : Nat) : 2 ^ k * (2 * q + 1) &&& (2 ^ k * (2 * q + 1) - 1) = 2 ^ k * (2 * q) := by
  have pos : 0 < 2 ^ k := Nat.two_pow_pos k
  have less : 2 ^ k * (2 * q + 1) - 1 = 2 ^ k * (2 * q) + (2 ^ k - 1) := by
    rw [Nat.mul_succ]
    omega
  refine Nat.eq_of_testBit_eq fun i => ?_
  rw [less, Nat.testBit_and, Nat.testBit_two_pow_mul_add _ (Nat.sub_lt pos Nat.one_pos), Nat.testBit_two_pow_mul,
    Nat.testBit_two_pow_mul]
  by_cases above : k ≤ i
  · rw [if_neg (Nat.not_lt.mpr above)]
    cases i - k <;> simp [above, Nat.testBit_succ, Nat.mul_add_div]
  · simp [above]

theorem ctz_eq {w : Word} {k q : Nat} (factors : w.toNat = 2 ^ k * (2 * q + 1)) : w.ctz.toNat = k := by
  have bit (j : Nat) : w.getLsbD j = (decide (k ≤ j) && (2 * q + 1).testBit (j - k)) := by
    rw [← BitVec.testBit_toNat, factors, Nat.testBit_two_pow_mul]
  have nonzero : w ≠ 0 := by
    rintro rfl
    simpa using bit k
  have set := BitVec.getLsbD_true_ctz_of_ne_zero nonzero
  have unset := mt (BitVec.getLsbD_false_of_lt_ctz (x := w) (i := k))
  simp [bit] at set unset
  omega

/-- A round for each bit is enough. -/
theorem bits_eq (fuel : Nat) (w : Word) (enough : w.toNat.bitIndices.length ≤ fuel) :
    bits fuel w = w.toNat.bitIndices := by
  induction fuel generalizing w with
  | zero => exact (List.eq_nil_of_length_eq_zero (Nat.le_zero.mp enough)).symm
  | succ fuel ih =>
    unfold bits
    split
    · rename_i zero
      simp [zero]
    rename_i nonzero
    have pos : 0 < w.toNat := Nat.pos_of_ne_zero fun zero => nonzero (BitVec.eq_of_toNat_eq zero)
    obtain ⟨k, m, ⟨q, rfl⟩, factors⟩ := Nat.exists_eq_two_pow_mul_odd pos.ne'
    have rest : (w &&& (w - 1)).toNat = 2 ^ k * (2 * q) := by
      rw [BitVec.toNat_and, BitVec.toNat_sub_of_le (by rw [BitVec.le_def]; exact pos), factors]
      exact and_pred k q
    have split : w.toNat.bitIndices = k :: (2 ^ k * (2 * q)).bitIndices := by
      rw [factors, Nat.bitIndices_two_pow_mul, Nat.bitIndices_two_pow_mul]
      simp
    rw [split] at enough ⊢
    rw [ctz_eq factors, ih _ (by rw [rest]; exact Nat.le_of_succ_le_succ enough), rest]

theorem bits_width (w : Word) : bits 64 w = w.toNat.bitIndices := by
  refine bits_eq 64 w ?_
  have small : w.toNat.bitIndices ⊆ List.range 64 := fun i member => by
    rw [Nat.mem_bitIndices, BitVec.testBit_toNat] at member
    exact List.mem_range.mpr (BitVec.lt_of_getLsbD member)
  simpa using (Nat.bitIndices_nodup.subperm small).length_le

namespace TaskBits

variable {set : TaskBits} {slot : Nat}

theorem mem_iter : slot ∈ set.iter ↔ set.contains slot = true := by
  simp only [iter, contains, bits_width, List.mem_flatMap, List.mem_finRange, true_and, List.mem_map, Nat.mem_bitIndices,
    BitVec.testBit_toNat]
  constructor
  · rintro ⟨i, b, held, rfl⟩
    have small := BitVec.lt_of_getLsbD held
    have few : i.val < 8 := i.isLt
    have here : (i * 64 + b) / 64 = i := by omega
    have all : i * 64 + b < MAX_TASKS := by
      unfold MAX_TASKS
      omega
    simpa [all, here, show (i * 64 + b) % 64 = b by omega] using held
  · intro held
    split at held
    · exact ⟨_, _, held, Nat.div_add_mod' slot 64⟩
    · cases held

theorem iter_sorted (set : TaskBits) : set.iter.Pairwise (· < ·) := by
  simp only [iter, bits_width]
  refine List.pairwise_flatMap.mpr ⟨fun i _ => ?_, (List.pairwise_lt_finRange _).imp fun before x mx y my => ?_⟩
  · exact Nat.bitIndices_sorted.pairwise.map _ fun _ _ less => Nat.add_lt_add_left less _
  · obtain ⟨b, held, rfl⟩ := List.mem_map.mp mx
    obtain ⟨c, _, rfl⟩ := List.mem_map.mp my
    rw [Nat.mem_bitIndices, BitVec.testBit_toNat] at held
    have small := BitVec.lt_of_getLsbD held
    have := Fin.lt_def.mp before
    omega

theorem iter_eq (set : TaskBits) : set.iter = (List.range MAX_TASKS).filter set.contains := by
  refine (set.iter_sorted.sortedLT).eq_of_mem_iff ((List.pairwise_lt_range.filter _).sortedLT) fun slot => ?_
  rw [mem_iter, List.mem_filter, List.mem_range]
  refine ⟨fun held => ⟨?_, held⟩, And.right⟩
  by_contra outside
  simp [contains, outside] at held

end TaskBits

/-- What a CPU picks by: the tasks queued for it and floating, its idle task, which tasks can go on and what it could pull. -/
structure Pass where
  queued : TaskBits
  idle : Option Nat
  runs : Nat → Bool
  pulled : Option Nat

def Pass.next (p : Pass) (current : Nat) : Nat :=
  ((p.queued.nextAfter current).or (if p.idle ≠ some current ∧ p.runs current then none else p.pulled.or p.idle)).getD current

/-- The slots a CPU picks pass after pass, whatever the others do to the queues in between. -/
def picks : List Pass → Nat → List Nat
  | [], _ => []
  | p :: rest, current => p.next current :: picks rest (p.next current)

/-- `slot` is queued up to the pass that picks it. -/
def Waits (slot : Nat) : List Pass → Nat → Prop
  | [], _ => True
  | p :: rest, current => p.queued.contains slot ∧ (p.next current ≠ slot → Waits slot rest (p.next current))

/-- How many slots are between `current` and `slot` in the round. -/
def ahead (current slot : Nat) : Nat := (slot + MAX_TASKS - current - 1) % MAX_TASKS

variable {passes : List Pass} {current slot : Nat} (start : current < MAX_TASKS) (inside : slot < MAX_TASKS)
include start inside

theorem nextAfter_ahead {set : TaskBits} (held : set.contains slot = true) :
    ∃ n < MAX_TASKS, set.nextAfter current = some n ∧ (n = slot ∨ ahead n slot < ahead current slot) := by
  rw [TaskBits.nextAfter, TaskBits.iter_eq, List.find?_filter, List.head?_filter]
  cases found : (List.range MAX_TASKS).find? fun n => set.contains n ∧ decide (current < n) with
  | some n =>
    obtain ⟨fits, member, least⟩ := List.find?_range_eq_some.mp found
    have above : current < n := by simp_all
    have first (before : slot < n) : slot ≤ current := by simpa [held] using least slot before
    refine ⟨n, List.mem_range.mp member, Option.some_or, ?_⟩
    simp only [ahead, MAX_TASKS, List.mem_range] at *
    omega
  | none =>
    have passed : slot ≤ current := by simpa [held] using List.find?_range_eq_none.mp found slot inside
    cases lowest : (List.range MAX_TASKS).find? set.contains with
    | some n =>
      obtain ⟨_, member, least⟩ := List.find?_range_eq_some.mp lowest
      have first : ¬slot < n := fun before => by simpa [held] using least slot before
      refine ⟨n, List.mem_range.mp member, Option.none_or, ?_⟩
      simp only [ahead, MAX_TASKS, List.mem_range] at *
      omega
    | none => simpa [held] using List.find?_range_eq_none.mp lowest slot inside

/-- A task that waits for a CPU gets it within one pass more than there are slots before it in the round. -/
theorem waits_is_picked (waits : Waits slot passes current) (enough : ahead current slot < passes.length) :
    slot ∈ picks passes current := by
  induction passes generalizing current with
  | nil => cases enough
  | cons p rest ih =>
    obtain ⟨n, small, found, near⟩ := nextAfter_ahead start inside waits.1
    obtain rfl : p.next current = n := by rw [Pass.next, found, Option.some_or, Option.getD_some]
    rw [picks]
    by_cases picked : p.next current = slot
    · exact picked ▸ List.mem_cons_self
    · refine List.mem_cons_of_mem _ (ih small (waits.2 picked) ?_)
      exact Nat.lt_of_lt_of_le (near.resolve_left picked) (Nat.le_of_lt_succ enough)

omit start inside in
theorem waits_is_picked_second : 9 ∈ picks (List.replicate 2 ⟨⟨fun _ => 0x300⟩, none, fun _ => true, none⟩) 7 :=
  waits_is_picked (by decide) (by decide) ⟨rfl, fun _ => ⟨rfl, fun _ => trivial⟩⟩ (by decide)

end Myos.Task.RunQueue
