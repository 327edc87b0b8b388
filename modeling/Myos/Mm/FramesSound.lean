import Mathlib.Data.List.Nodup
import Myos.Mm.Frames

namespace Myos.Mm

open Myos.Lib

def Overlaps (a b : Nat) : Prop := a < b + PAGE ∧ b < a + PAGE

inductive Chain (word : Nat → Nat) : Nat → List Nat → Prop
  | nil : Chain word 0 []
  | cons {head : Nat} {rest : List Nat} : head ≠ 0 → Chain word (word head) rest → Chain word head (head :: rest)

def Boot.EndsBelow (boot : Boot) : Prop := ∀ e ∈ boot.usable, e.base + e.length ≠ U64_MAX

instance (boot : Boot) : Decidable boot.EndsBelow := inferInstanceAs (Decidable (∀ e ∈ boot.usable, _))

structure State.Owns (s : State) (f : Nat) : Prop where
  usable : ∃ e ∈ s.boot.usable, e.base ≤ f ∧ f + PAGE ≤ e.base + e.length
  kernel : ¬(f < s.boot.kernel.2 ∧ s.boot.kernel.1 < f + PAGE)
  heap : f + PAGE ≤ s.heap.1 ∨ s.heap.2 ≤ f

/-- What is handed out lies apart and in memory the allocator has, and the list of free frames has none twice. -/
structure State.Sound (s : State) : Prop where
  apart : s.held.Pairwise fun a b => ¬Overlaps a b
  owns : ∀ f ∈ s.held, s.Owns f
  freelist : ∃ list, Chain s.word s.head list ∧ list.Nodup

theorem mem_frames {first n f : Nat} : f ∈ frames first n ↔ ∃ i, i < n ∧ f = first + i * PAGE := by
  unfold frames
  simp only [List.mem_map, List.mem_range]
  exact ⟨fun ⟨i, below, same⟩ => ⟨i, below, same.symm⟩, fun ⟨i, below, same⟩ => ⟨i, below, same.symm⟩⟩

theorem frames_one (first : Nat) : frames first 1 = [first] := by simp [frames]

theorem frames_nodup (first n : Nat) : (frames first n).Nodup := by
  apply List.nodup_range.map
  intro i j same
  exact Nat.eq_of_mul_eq_mul_right (by decide) (Nat.add_left_cancel same)

theorem Chain.congr {word other : Nat → Nat} {head : Nat} {list : List Nat} (chain : Chain word head list)
    (same : ∀ f ∈ list, other f = word f) : Chain other head list := by
  induction chain with
  | nil => exact .nil
  | cons ne chain ih =>
    refine .cons ne ?_
    rw [same _ List.mem_cons_self]
    exact ih fun f mem => same f (.tail _ mem)

theorem alignUp_some {x y : Nat} (up : alignUp x = some y) : x ≤ y ∧ y % PAGE = 0 := by
  unfold alignUp at up
  split at up <;> cases up
  refine ⟨?_, Nat.mul_mod_left _ _⟩
  change x ≤ (x + 4095) / 4096 * 4096
  omega

namespace Boot

variable {boot : Boot} {n need top phys p tries next : Nat} {range : Nat × Nat}

theorem overlapsKernel_iff (small : phys + PAGE ≤ U64_MAX) :
    boot.overlapsKernel phys = true ↔ phys < boot.kernel.2 ∧ boot.kernel.1 < phys + PAGE := by
  unfold overlapsKernel
  rw [Nat.min_eq_left small, Bool.and_eq_true, decide_eq_true_eq, decide_eq_true_eq]

theorem place_some (placed : boot.place n need top tries phys = some (some p)) (below : top < U64_MAX)
    (whole : need = min (n * PAGE) U64_MAX) (aligned : phys % PAGE = 0) :
    phys ≤ p ∧ p % PAGE = 0 ∧ p + n * PAGE ≤ top ∧ ∀ i, i < n → boot.overlapsKernel (p + i * PAGE) = false := by
  have page : PAGE = 4096 := rfl
  have last : U64_MAX = 2 ^ 64 - 1 := rfl
  induction tries generalizing phys with
  | zero => cases placed
  | succ tries ih =>
    unfold place at placed
    split at placed
    next fits =>
      have within : phys + n * PAGE ≤ top := by omega
      -- No address of the run wraps.
      have address {i : Nat} (less : i < n) : (phys + i * PAGE) % 2 ^ 64 = phys + i * PAGE ∧ phys + i * PAGE < top := by
        have row : (i + 1) * PAGE ≤ n * PAGE := Nat.mul_le_mul_right _ less
        rw [Nat.succ_mul] at row
        exact ⟨Nat.mod_eq_of_lt (by omega), by omega⟩
      split at placed
      next met =>
        obtain ⟨i, less, hit⟩ := met
        obtain ⟨up, ups, placed⟩ := Option.bind_eq_some_iff.mp placed
        obtain ⟨above, alignedUp⟩ := alignUp_some ups
        obtain ⟨least, rest⟩ := ih placed alignedUp
        rw [(address less).1] at hit
        unfold overlapsKernel at hit
        rw [Bool.and_eq_true, decide_eq_true_eq] at hit
        exact ⟨by omega, rest⟩
      next clear =>
        split at placed <;> cases placed
        refine ⟨Nat.le_refl _, aligned, within, fun i less => ?_⟩
        rw [← (address less).1]
        exact Bool.eq_false_iff.mpr fun hit => clear ⟨i, less, hit⟩
    · cases placed

structure Placed (boot : Boot) (n next : Nat) (range : Nat × Nat) (regions : List Region) (p : Nat) : Prop where
  inside : ∃ e ∈ regions, e.usable = true ∧ e.base ≤ p ∧ p + n * PAGE ≤ e.base + e.length ∧ e.base + e.length < U64_MAX
  next : next ≤ p
  lower : range.1 ≤ p
  upper : p + n * PAGE ≤ range.2
  aligned : p % PAGE = 0
  clear : ∀ i, i < n → boot.overlapsKernel (p + i * PAGE) = false

theorem place_past {q : Nat} (fits : min (phys + need) U64_MAX ≤ top) (met : boot.Meets n phys)
    (up : alignUp boot.kernel.2 = some q) :
    boot.place n need top (tries + 1) phys = boot.place n need top tries q := by
  rw [place, if_pos fits, if_pos met, up, Option.bind_some]

theorem place_here (fits : min (phys + need) U64_MAX ≤ top) (clear : ¬boot.Meets n phys) (small : phys + need < 2 ^ 64) :
    boot.place n need top (tries + 1) phys = some (some phys) := by
  rw [place, if_pos fits, if_neg clear, if_pos small]

theorem placeIn_here {e : Region} {rest : List Region} (usable : e.usable = true) (fits : e.base + e.length < 2 ^ 64)
    (up : alignUp (max (max e.base next) range.1) = some phys)
    (placed : boot.place n need (min (e.base + e.length) range.2) 2 phys = some (some p)) :
    boot.placeIn n need next range (e :: rest) = some (some p) := by
  rw [placeIn, if_pos usable, if_pos fits, up, Option.bind_some, placed, Option.bind_some]

theorem placeIn_some {regions : List Region} (placed : boot.placeIn n need next range regions = some (some p))
    (ends : ∀ e ∈ regions, e.usable = true → e.base + e.length ≠ U64_MAX) (whole : need = min (n * PAGE) U64_MAX) :
    boot.Placed n next range regions p := by
  have last : U64_MAX = 2 ^ 64 - 1 := rfl
  induction regions with
  | nil => cases placed
  | cons e rest ih =>
    have later (placed : boot.placeIn n need next range rest = some (some p)) : boot.Placed n next range (e :: rest) p := by
      have found := ih placed fun e' mem => ends e' (.tail _ mem)
      obtain ⟨e', mem, inside⟩ := found.inside
      exact ⟨⟨e', List.mem_cons_of_mem e mem, inside⟩, found.next, found.lower, found.upper, found.aligned, found.clear⟩
    unfold placeIn at placed
    split at placed
    next usable =>
      have other := ends e (.head _) usable
      split at placed
      next fit =>
        obtain ⟨phys, ups, placed⟩ := Option.bind_eq_some_iff.mp placed
        obtain ⟨found, looked, placed⟩ := Option.bind_eq_some_iff.mp placed
        obtain ⟨above, aligned⟩ := alignUp_some ups
        cases found with
        | none => exact later placed
        | some q =>
          cases placed
          obtain ⟨least, alignedAt, within, clear⟩ := place_some looked (by omega) whole aligned
          exact ⟨⟨e, List.mem_cons_self, usable, by omega, by omega, by omega⟩, by omega, by omega, by omega, alignedAt, clear⟩
      · cases placed
    · exact later placed

end Boot

structure State.Frame (s : State) (f : Nat) : Prop where
  aligned : f % PAGE = 0
  heap : s.heap.2 ≤ f
  cursor : f + PAGE ≤ s.cursor
  usable : ∃ e ∈ s.boot.usable, e.base ≤ f ∧ f + PAGE ≤ e.base + e.length ∧ e.base + e.length < U64_MAX
  kernel : s.boot.overlapsKernel f = false

structure State.Inv (s : State) (loose : List Nat) : Prop where
  heap : s.heap.1 ≤ s.heap.2 ∧ 0 < s.heap.2
  ends : s.boot.EndsBelow
  reached : s.heap.2 ≤ s.cursor
  chain : ∃ list, Chain s.word s.head list ∧ (list ++ (loose ++ s.held)).Nodup ∧ ∀ f ∈ list ++ (loose ++ s.held), s.Frame f

namespace State

variable {s s' : State} {loose : List Nat} {n need phys f : Nat} {range : Nat × Nat} {back : List Nat}

theorem Frame.of_same {head allocs frees : Nat} {word : Nat → Nat} {held : List Nat} (frame : s.Frame f) :
    State.Frame { s with head, word, held, allocs, frees } f :=
  ⟨frame.aligned, frame.heap, frame.cursor, frame.usable, frame.kernel⟩

theorem Frame.pos (frame : s.Frame f) (heap : 0 < s.heap.2) : f ≠ 0 := by
  have above := frame.heap
  omega

theorem Frame.owns (frame : s.Frame f) : s.Owns f := by
  obtain ⟨e, mem, lower, upper, last⟩ := frame.usable
  refine ⟨⟨e, mem, lower, upper⟩, fun hit => ?_, .inr frame.heap⟩
  have clear := frame.kernel
  rw [(Boot.overlapsKernel_iff (by omega)).mpr hit] at clear
  cases clear

theorem Frame.apart {g : Nat} (frame : s.Frame f) (other : s.Frame g) (ne : f ≠ g) : ¬Overlaps f g := by
  have left : f % 4096 = 0 := frame.aligned
  have right : g % 4096 = 0 := other.aligned
  rintro ⟨below, above⟩
  unfold PAGE at below above
  omega

variable (inv : s.Inv [])
include inv

theorem Inv.sound : s.Sound := by
  obtain ⟨list, chain, distinct, frames⟩ := inv.chain
  have held := (List.nodup_append.mp distinct).2.1
  refine ⟨?_, fun f mem => (frames f (List.mem_append_right _ mem)).owns, list, chain, (List.nodup_append.mp distinct).1⟩
  refine List.Pairwise.imp_of_mem (fun {a b} left right ne => ?_) held
  exact (frames a (List.mem_append_right _ left)).apart (frames b (List.mem_append_right _ right)) ne

theorem Inv.bumpRun (ran : s.bumpRun n need range = some (some phys, s')) (whole : need = min (n * PAGE) U64_MAX)
    (pos : 0 < n) : s'.Inv (frames phys n) ∧ s'.held = s.held ∧ range.1 ≤ phys ∧ phys + n * PAGE ≤ range.2 := by
  obtain ⟨next, ups, ran⟩ := Option.bind_eq_some_iff.mp ran
  obtain ⟨found, placedIn, same⟩ := Option.map_eq_some_iff.mp ran
  cases found with
  | none => cases same
  | some p =>
    cases same
    have placed := Boot.placeIn_some placedIn (fun e mem usable => inv.ends e (List.mem_filter.mpr ⟨mem, usable⟩)) whole
    obtain ⟨above, _⟩ := alignUp_some ups
    obtain ⟨list, chain, distinct, old⟩ := inv.chain
    obtain ⟨e, mem, usable, lower, upper, fit⟩ := placed.inside
    have beyond := placed.next
    have reached := inv.reached
    have cursor : ({ s with next := phys + need } : State).cursor = phys + n * PAGE := by
      have row : 1 * PAGE ≤ n * PAGE := Nat.mul_le_mul_right _ pos
      have page : PAGE = 4096 := rfl
      unfold State.cursor
      rw [if_neg (by dsimp only; omega)]
      dsimp only
      omega
    have fresh (i : Nat) (less : i < n) : State.Frame { s with next := phys + need } (phys + i * PAGE) := by
      have row : (i + 1) * PAGE ≤ n * PAGE := Nat.mul_le_mul_right _ less
      rw [Nat.succ_mul] at row
      refine ⟨?_, ?_, by rw [cursor]; omega, ⟨e, List.mem_filter.mpr ⟨mem, usable⟩, by omega, by omega, fit⟩, placed.clear i less⟩
      · rw [Nat.add_mul_mod_self_right]
        exact placed.aligned
      · dsimp only
        omega
    have before (f : Nat) (mem : f ∈ list ++ s.held) : s.Frame f := old f mem
    refine ⟨⟨inv.heap, inv.ends, by rw [cursor]; dsimp only; omega, list, chain, ?_, fun f mem => ?_⟩, rfl,
      placed.lower, placed.upper⟩
    · rw [List.nil_append, List.nodup_append] at distinct
      obtain ⟨left, right, apart⟩ := distinct
      have new (f : Nat) (mem : f ∈ list ++ s.held) : f ∉ frames phys n := by
        intro here
        obtain ⟨i, _, rfl⟩ := mem_frames.mp here
        have low := (before _ mem).cursor
        unfold PAGE at low
        omega
      rw [List.nodup_append, List.nodup_append]
      refine ⟨left, ⟨frames_nodup _ _, right, fun a here b there same => ?_⟩, fun a here b there same => ?_⟩
      · exact new b (List.mem_append_right _ there) (same ▸ here)
      · rcases List.mem_append.mp there with there | there
        · exact new a (List.mem_append_left _ here) (same ▸ there)
        · exact apart a here b there same
    · have kept {g : Nat} (mem : g ∈ list ++ s.held) : State.Frame { s with next := phys + need } g := by
        have frame := before g mem
        have low := frame.cursor
        exact ⟨frame.aligned, frame.heap, by rw [cursor]; omega, frame.usable, frame.kernel⟩
      rw [List.mem_append, List.mem_append] at mem
      rcases mem with here | here | here
      · exact kept (List.mem_append_left _ here)
      · obtain ⟨i, less, rfl⟩ := mem_frames.mp here
        exact fresh i less
      · exact kept (List.mem_append_right _ here)

omit inv in
theorem bumpRun_none (ran : s.bumpRun n need range = some (none, s')) : s' = s := by
  obtain ⟨next, _, ran⟩ := Option.bind_eq_some_iff.mp ran
  obtain ⟨found, _, same⟩ := Option.map_eq_some_iff.mp ran
  cases found with
  | none => cases same; rfl
  | some p => cases same

theorem Inv.popFree (ran : s.popFree = some (some phys, s')) : s'.Inv (frames phys 1) ∧ s'.held = s.held := by
  unfold State.popFree at ran
  split at ran
  · cases ran
  split at ran
  · cases ran
  split at ran
  · cases ran
  cases ran
  obtain ⟨list, chain, distinct, old⟩ := inv.chain
  generalize start : s.head = head at chain
  cases chain with
  | nil => contradiction
  | cons ne chain =>
    rename_i rest
    refine ⟨⟨inv.heap, inv.ends, inv.reached, rest, chain, ?_, fun f mem => ?_⟩, rfl⟩
    · rw [frames_one, List.singleton_append]
      exact (List.perm_middle.nodup_iff).mpr distinct
    · exact (old f (List.perm_middle.mem_iff.mp mem)).of_same

omit inv in
theorem popFree_none (ran : s.popFree = some (none, s')) : s' = s := by
  unfold State.popFree at ran
  split at ran
  · cases ran; rfl
  · split at ran
    · cases ran
    · split at ran <;> cases ran

omit inv in
theorem Inv.give (inv : s.Inv (frames phys n)) : (s.give phys n).Inv [] := by
  obtain ⟨list, chain, distinct, old⟩ := inv.chain
  refine ⟨inv.heap, inv.ends, inv.reached, list, chain.congr fun f mem => ?_, distinct, fun f mem => (old f mem).of_same⟩
  apply if_neg
  intro here
  exact (List.nodup_append.mp distinct).2.2 f mem f (List.mem_append_left _ here) rfl

theorem Inv.freeFrame (mem : phys ∈ s.held) : (s.freeFrame phys).Inv [] := by
  obtain ⟨list, chain, distinct, old⟩ := inv.chain
  have frame := old phys (List.mem_append_right _ mem)
  have moved : List.Perm (phys :: list ++ s.held.erase phys) (list ++ s.held) :=
    (List.perm_middle.symm).trans ((List.perm_cons_erase mem).symm.append_left list)
  have absent : phys ∉ list := fun here => (List.nodup_append.mp distinct).2.2 phys here phys mem rfl
  have zero := frame.pos inv.heap.2
  unfold State.freeFrame
  rw [if_neg (not_or.mpr ⟨zero, Decidable.not_not.mpr frame.aligned⟩), if_neg (Bool.eq_false_iff.mp frame.kernel)]
  refine ⟨inv.heap, inv.ends, inv.reached, phys :: list, .cons zero ?_, moved.nodup_iff.mpr distinct, fun f mem => ?_⟩
  · dsimp only
    rw [Function.update_self]
    exact chain.congr fun f here => Function.update_of_ne (fun same : f = phys => absent (same ▸ here)) _ _
  · exact (old f (moved.mem_iff.mp mem)).of_same

omit inv in
theorem freeFrame_held (s : State) (phys : Nat) : (s.freeFrame phys).held = s.held.erase phys := by
  unfold State.freeFrame
  dsimp only
  split
  · rfl
  · split <;> rfl

structure Gave (s : State) (n : Nat) (range : Nat × Nat) (back : List Nat) (first : Option Nat) (s' : State) : Prop where
  inv : s'.Inv []
  held : ∃ kept, List.Sublist kept s.held ∧ (∀ f ∈ s.held, f ∉ kept → f ∈ back) ∧
    s'.held = (first.elim [] fun phys => frames phys n) ++ kept
  within : ∀ phys ∈ first, range.1 ≤ phys ∧ phys + n * PAGE ≤ range.2

theorem Gave.nothing : s.Gave n range back none s :=
  ⟨inv, ⟨s.held, List.Sublist.refl _, fun _ mem absent => absurd mem absent, rfl⟩, nofun⟩

omit inv in
theorem Gave.give (inv : s'.Inv (frames phys n)) (same : s'.held = s.held) (within : range.1 ≤ phys ∧ phys + n * PAGE ≤ range.2) :
    s.Gave n range back (some phys) (s'.give phys n) := by
  refine ⟨inv.give, ⟨s.held, List.Sublist.refl _, fun _ mem absent => absurd mem absent, ?_⟩, fun q here => ?_⟩
  · rw [← same]
    rfl
  · cases here
    exact within

variable {first : Option Nat}

omit inv in
theorem Gave.count {allocs : Nat} (gave : s.Gave n range back first s') :
    s.Gave n range back first { s' with allocs } := by
  obtain ⟨list, chain, distinct, old⟩ := gave.inv.chain
  refine ⟨⟨gave.inv.heap, gave.inv.ends, gave.inv.reached, list, chain, distinct, fun f mem => (old f mem).of_same⟩,
    gave.held, gave.within⟩

omit inv in
theorem Gave.after {t : State} {early : List Nat} (gave : t.Gave n range back first s')
    (sub : List.Sublist t.held s.held) (lost : ∀ f ∈ s.held, f ∉ t.held → f ∈ early) :
    s.Gave n range (early ++ back) first s' := by
  obtain ⟨kept, within, gone, same⟩ := gave.held
  refine ⟨gave.inv, ⟨kept, within.trans sub, fun f mem absent => ?_, same⟩, gave.within⟩
  rw [List.mem_append]
  by_cases here : f ∈ t.held
  · exact .inr (gone f here absent)
  · exact .inl (lost f mem here)

theorem Inv.take (ran : s.take = some (some phys, s')) :
    s'.Inv (frames phys 1) ∧ s'.held = s.held ∧ ANYWHERE.1 ≤ phys ∧ phys + 1 * PAGE ≤ ANYWHERE.2 := by
  have anywhere (inv : s'.Inv (frames phys 1)) : ANYWHERE.1 ≤ phys ∧ phys + 1 * PAGE ≤ ANYWHERE.2 := by
    obtain ⟨list, _, _, old⟩ := inv.chain
    obtain ⟨e, _, _, upper, last⟩ :=
      (old phys (List.mem_append_right _ (List.mem_append_left _ (mem_frames.mpr ⟨0, by omega, by omega⟩)))).usable
    refine ⟨Nat.zero_le _, ?_⟩
    change phys + 1 * PAGE ≤ U64_MAX
    omega
  obtain ⟨⟨found, t⟩, popped, ran⟩ := Option.bind_eq_some_iff.mp ran
  cases found with
  | some q =>
    cases ran
    obtain ⟨inv, same⟩ := inv.popFree popped
    exact ⟨inv, same, anywhere inv⟩
  | none =>
    rw [popFree_none popped] at ran
    obtain ⟨inv, same, _⟩ := inv.bumpRun ran (by unfold PAGE U64_MAX; omega) (by omega)
    exact ⟨inv, same, anywhere inv⟩

omit inv in
theorem take_none (ran : s.take = some (none, s')) : s' = s := by
  obtain ⟨⟨found, t⟩, popped, after⟩ := Option.bind_eq_some_iff.mp ran
  cases found with
  | some q => cases after
  | none =>
    rw [popFree_none popped] at after
    exact bumpRun_none after

theorem Inv.taken {r : Option Nat × State} (back : List Nat) (ran : s.take = some r) :
    s.Gave 1 ANYWHERE back (counted 1 r).1 (counted 1 r).2 := by
  obtain ⟨found, t⟩ := r
  cases found with
  | some phys =>
    obtain ⟨inv, same, within⟩ := inv.take ran
    exact (Gave.give inv same within).count
  | none =>
    rw [take_none ran]
    exact .nothing inv

theorem Inv.giveBack (ran : giveBack back s = some s') :
    s'.Inv [] ∧ List.Sublist s'.held s.held ∧ ∀ f ∈ s.held, f ∉ s'.held → f ∈ back := by
  induction back generalizing s with
  | nil =>
    cases ran
    exact ⟨inv, List.Sublist.refl _, fun _ mem absent => absurd mem absent⟩
  | cons phys rest ih =>
    unfold State.giveBack at ran
    split at ran
    next mem =>
      obtain ⟨inv, sub, lost⟩ := ih (inv.freeFrame mem) ran
      rw [freeFrame_held] at sub lost
      refine ⟨inv, sub.trans List.erase_sublist, fun f here absent => ?_⟩
      by_cases same : f = phys
      · exact same ▸ List.mem_cons_self
      · exact List.mem_cons_of_mem _ (lost f ((List.mem_erase_of_ne same).mpr here) absent)
    · cases ran

theorem Inv.rawAlloc (ran : s.rawAlloc back = some (first, s')) :
    s.Gave 1 ANYWHERE back first s' := by
  obtain ⟨⟨found, t⟩, took, after⟩ := Option.bind_eq_some_iff.mp ran
  cases found with
  | some phys =>
    cases after
    exact inv.taken back took
  | none =>
    rw [take_none took] at after
    change (if back = [] then some (none, s) else (State.giveBack back s).bind fun s => s.take.map (counted 1)) = _ at after
    split at after
    · cases after
      exact .nothing inv
    obtain ⟨u, gave, after⟩ := Option.bind_eq_some_iff.mp after
    obtain ⟨r, took, same⟩ := Option.map_eq_some_iff.mp after
    obtain ⟨inv, sub, lost⟩ := inv.giveBack gave
    have taken := inv.taken [] took
    rw [same] at taken
    have after := taken.after sub lost
    rwa [List.append_nil] at after

theorem Inv.bumpDma (back : List Nat) (ran : s.bumpDma n range = some (first, s')) (pos : 0 < n) :
    s.Gave n range back first s' := by
  unfold State.bumpDma at ran
  split at ran
  next small =>
    obtain ⟨⟨found, t⟩, bumped, same⟩ := Option.map_eq_some_iff.mp ran
    cases found with
    | some phys =>
      cases same
      obtain ⟨inv, held, within⟩ := inv.bumpRun bumped (Nat.min_eq_left (by unfold U64_MAX; omega)).symm pos
      exact (Gave.give inv held within).count
    | none =>
      cases same
      rw [bumpRun_none bumped]
      exact .nothing inv
  · cases ran

theorem Inv.allocPages (ran : s.allocPages n range back = some (first, s')) :
    s.Gave n range back first s' := by
  unfold State.allocPages at ran
  split at ran
  · cases ran
    exact .nothing inv
  next positive =>
    split at ran
    next one =>
      subst one
      obtain ⟨⟨found, t⟩, raw, ran⟩ := Option.bind_eq_some_iff.mp ran
      have gave := inv.rawAlloc raw
      cases found with
      | none =>
        cases ran
        exact ⟨gave.inv, gave.held, nofun⟩
      | some phys =>
        obtain ⟨kept, sub, lost, held⟩ := gave.held
        rw [Option.elim_some, frames_one, List.singleton_append] at held
        have mine : phys ∈ t.held := held ▸ List.mem_cons_self
        change (if range.1 ≤ phys ∧ min (phys + PAGE) U64_MAX ≤ range.2 then some (some phys, t)
          else (t.freeFrame phys).bumpDma 1 range) = _ at ran
        split at ran
        next inside =>
          cases ran
          refine ⟨gave.inv, gave.held, fun q here => ?_⟩
          cases here
          obtain ⟨list, _, _, old⟩ := gave.inv.chain
          obtain ⟨e, _, _, upper, last⟩ := (old phys (List.mem_append_right _ mine)).usable
          exact ⟨inside.1, by omega⟩
        · -- The frame goes back, and the cursor gives one.
          have freed : (t.freeFrame phys).held = kept := by rw [freeFrame_held, held, List.erase_cons_head]
          have bumped := (gave.inv.freeFrame mine).bumpDma [] ran (by omega)
          have after := bumped.after (freed ▸ sub) (freed ▸ lost)
          rwa [List.append_nil] at after
    next many => exact inv.bumpDma back ran (Nat.pos_of_ne_zero positive)

theorem Inv.store {value : Nat} (mem : phys ∈ s.held) :
    State.Inv { s with word := Function.update s.word phys value } [] := by
  obtain ⟨list, chain, distinct, old⟩ := inv.chain
  refine ⟨inv.heap, inv.ends, inv.reached, list, chain.congr fun f here => ?_, distinct, fun f mem => (old f mem).of_same⟩
  refine Function.update_of_ne (fun same : f = phys => ?_) _ _
  exact (List.nodup_append.mp distinct).2.2 f here f (same ▸ mem) rfl

theorem Inv.call {e : Event} (ran : s.call e = some (first, s')) :
    s'.Inv [] ∧ ∀ phys ∈ first, s.Gave e.wants.1 e.wants.2 e.back (some phys) s' := by
  have gave {n : Nat} {range : Nat × Nat} {back : List Nat} (gave : s.Gave n range back first s') :
      s'.Inv [] ∧ ∀ phys ∈ first, s.Gave n range back (some phys) s' :=
    ⟨gave.inv, fun phys here => here ▸ gave⟩
  cases e with
  | allocFrame back =>
    obtain ⟨⟨found, t⟩, raw, ran⟩ := Option.bind_eq_some_iff.mp ran
    cases found with
    | some phys =>
      cases ran
      exact gave (inv.rawAlloc raw)
    | none => cases ran
  | tryAllocFrameUser early back =>
    obtain ⟨t, early_, ran⟩ := Option.bind_eq_some_iff.mp ran
    have checked : t.Inv [] ∧ List.Sublist t.held s.held ∧ ∀ f ∈ s.held, f ∉ t.held → f ∈ early := by
      split at early_
      · exact inv.giveBack early_
      · cases early_
        exact ⟨inv, List.Sublist.refl _, fun _ mem absent => absurd mem absent⟩
    split at ran
    · cases ran
      exact ⟨checked.1, nofun⟩
    · exact gave ((checked.1.rawAlloc ran).after checked.2.1 checked.2.2)
  | allocContiguousFrames n =>
    simp only [State.call] at ran
    split at ran
    · cases ran
      exact ⟨inv, nofun⟩
    next positive =>
      obtain ⟨⟨found, t⟩, bumped, same⟩ := Option.map_eq_some_iff.mp ran
      cases found with
      | some phys =>
        cases same
        obtain ⟨inv, held, within⟩ := inv.bumpRun bumped rfl (Nat.pos_of_ne_zero positive)
        exact gave (Gave.give inv held within)
      | none =>
        cases same
        exact ⟨bumpRun_none bumped ▸ inv, nofun⟩
  | allocContiguousPages n range back => exact gave (inv.allocPages ran)
  | freeFrame phys =>
    simp only [State.call] at ran
    split at ran
    next mem =>
      cases ran
      exact ⟨inv.freeFrame mem, nofun⟩
    · cases ran
  | store phys value =>
    simp only [State.call] at ran
    split at ran
    next mem =>
      cases ran
      exact ⟨inv.store mem, nofun⟩
    · cases ran

omit inv

/-- The frames a call returns come in front of the frames held before, but for those the caches gave back during the call; they
follow each other from `first` on, in the range asked for. -/
def Gives (s : State) (e : Event) (first : Nat) (s' : State) : Prop :=
  (∃ kept, List.Sublist kept s.held ∧ (∀ f ∈ s.held, f ∉ kept → f ∈ e.back) ∧ s'.held = frames first e.wants.1 ++ kept) ∧
    e.wants.2.1 ≤ first ∧ first + e.wants.1 * PAGE ≤ e.wants.2.2

theorem heapSize_pos (boot : Boot) : 0 < boot.heapSize := by
  unfold Boot.heapSize MIN_SIZE MAX_SIZE
  dsimp only
  omega

theorem start_heap (start : s.boot.heap = some s.heap) : s.heap.1 ≤ s.heap.2 ∧ 0 < s.heap.2 := by
  obtain ⟨first, _, same⟩ := Option.map_eq_some_iff.mp start
  have pos := heapSize_pos s.boot
  rw [← same]
  exact ⟨Nat.le_add_right _ _, by dsimp only; omega⟩

def Kept (s : State) : Prop := s.Sound ∧ (s.boot.EndsBelow → s.Inv [])

theorem reach_framesKept (reachable : system.Reach (fun s _ => s.boot.EndsBelow) s) : s.Kept := by
  refine reachable.invariant ?_ ?_
  · rintro s ⟨_, heap, next, head, held⟩
    have chain : Chain s.word s.head [] := head ▸ .nil
    refine ⟨⟨held ▸ .nil, fun f mem => ?_, [], chain, List.nodup_nil⟩, fun ends =>
      ⟨start_heap heap, ends, ?_, [], chain, ?_, fun f mem => ?_⟩⟩
    · rw [held] at mem
      cases mem
    · exact Nat.le_of_eq (if_pos next).symm
    · rw [held]
      exact List.nodup_nil
    · rw [held] at mem
      cases mem
  · rintro s e s' ⟨_, inv⟩ ends stepped
    simp only [system] at stepped
    split at stepped
    · obtain ⟨⟨first, t⟩, ran, rfl⟩ := Option.map_eq_some_iff.mp stepped
      have after := ((inv ends).call ran).1
      exact ⟨after.sound, fun _ => after⟩
    · cases stepped

theorem reach_framesSound (reachable : system.Reach (fun s _ => s.boot.EndsBelow) s) :
    s.Sound ∧ ∀ e first s', s.boot.EndsBelow → s.call e = some (some first, s') → s'.Sound ∧ s.Gives e first s' := by
  obtain ⟨sound, inv⟩ := reach_framesKept reachable
  refine ⟨sound, fun e first s' ends ran => ?_⟩
  obtain ⟨after, gave⟩ := (inv ends).call ran
  have gave := gave first rfl
  exact ⟨after.sound, gave.held, gave.within first rfl⟩

def booted (boot : Boot) (heap : Nat × Nat) : State := ⟨boot, heap, 0, 0, fun _ => 0, [], 0, 0⟩

def small : State := booted ⟨[⟨0x100000, 0x100000, false⟩, ⟨0x200000, 0x80000000, true⟩], (0x100000, 0x200000)⟩
  (0x210000, 0x20210000)

theorem small_start : system.start small := ⟨by decide, by decide, rfl, rfl, rfl⟩

theorem small_endsBelow : small.boot.EndsBelow := by decide

/-- The first frame, right after the heap, is given back and handed out again, with a run of two in use. -/
theorem reach_framesSound_first : ∃ s s',
    system.run small [.allocFrame [], .allocContiguousFrames 2, .freeFrame 0x20210000] = some s ∧
      s.call (.allocFrame []) = some (some 0x20210000, s') ∧ s'.Sound ∧ s.Gives (.allocFrame []) 0x20210000 s' := by
  have start : system.Reach (fun s _ => s.boot.EndsBelow) small := .start small_start
  have freed := start.runMeeting [.allocFrame [], .allocContiguousFrames 2, .freeFrame 0x20210000] rfl
  exact ⟨_, _, rfl, rfl, (reach_framesSound freed).2 _ _ _ small_endsBelow rfl⟩

theorem call_allocContiguousFrames {t : State} (pos : n ≠ 0)
    (bumped : s.bumpRun n (min (n * PAGE) U64_MAX) ANYWHERE = some (some phys, t)) :
    s.call (.allocContiguousFrames n) = some (some phys, t.give phys n) := by
  rw [State.call, if_neg pos, bumped]
  rfl

theorem mem_give {i : Nat} (below : i < n) (s : State) : phys + i * PAGE ∈ (s.give phys n).held :=
  List.mem_append_left _ (mem_frames.mpr ⟨i, below, rfl⟩)

def high : State := booted ⟨[⟨0x200000, 0x4010000, true⟩, ⟨2 ^ 64 - 0x10000, 0xffff, true⟩], (0x100000, 0x200000)⟩
  (0x210000, 0x4210000)

theorem high_start : system.start high := ⟨by decide, by decide, rfl, rfl, rfl⟩

theorem high_bumpRun : (high.bumpRun 0x200 0x200000 ANYWHERE).map (fun r => (r.1, r.2.heap)) =
    some (some 0x200000, high.heap) := by
  have met : high.boot.Meets 0x200 (2 ^ 64 - 0x10000) := ⟨0x110, by decide, by decide⟩
  have clear : ¬high.boot.Meets 0x200 0x200000 := by
    rintro ⟨i, below, hit⟩
    have address : (0x200000 + i * PAGE) % 2 ^ 64 = 0x200000 + i * PAGE := Nat.mod_eq_of_lt (by unfold PAGE; omega)
    rw [address] at hit
    unfold Boot.overlapsKernel at hit
    rw [Bool.and_eq_true, decide_eq_true_eq] at hit
    have low : 0x200000 + i * PAGE < 0x200000 := hit.1
    omega
  have placed : high.boot.place 0x200 0x200000 (min (2 ^ 64 - 0x10000 + 0xffff) ANYWHERE.2) 2 (2 ^ 64 - 0x10000) =
      some (some 0x200000) := by
    have past : alignUp high.boot.kernel.2 = some 0x200000 := by decide
    rw [Boot.place_past (by decide) met past, Boot.place_here (by decide) clear (by decide)]
  have second : high.boot.placeIn 0x200 0x200000 0x4210000 ANYWHERE [⟨2 ^ 64 - 0x10000, 0xffff, true⟩] =
    some (some 0x200000) := by
    have start : alignUp (max (max (2 ^ 64 - 0x10000) 0x4210000) 0) = some (2 ^ 64 - 0x10000) := by decide
    exact Boot.placeIn_here rfl (by decide) start placed
  have full : high.boot.place 0x200 0x200000 (min (0x200000 + 0x4010000) ANYWHERE.2) 2 0x4210000 = some none := by
    rw [Boot.place, if_neg (by decide)]
  have start : alignUp (max (max 0x200000 0x4210000) ANYWHERE.1) = some 0x4210000 := by decide
  have up : alignUp high.cursor = some 0x4210000 := by decide
  have regions : high.boot.regions = [⟨0x200000, 0x4010000, true⟩, ⟨2 ^ 64 - 0x10000, 0xffff, true⟩] := rfl
  rw [State.bumpRun, up, Option.bind_some, regions, Boot.placeIn, if_pos rfl, if_pos (by decide), start, Option.bind_some, full,
    Option.bind_some, second]
  rfl

theorem run_over_heap : ¬∀ s, system.Reach System.Any s → s.Sound ∧
    ∀ e first s', e.Fits → s.call e = some (some first, s') → s'.Sound ∧ s.Gives e first s' := by
  intro holds
  obtain ⟨⟨found, t⟩, bumped, same⟩ := Option.map_eq_some_iff.mp high_bumpRun
  obtain ⟨rfl, heap⟩ := Prod.mk.inj same
  have called := call_allocContiguousFrames (by decide) bumped
  obtain ⟨sound, _⟩ := (holds high (.start high_start)).2 (.allocContiguousFrames 0x200) _ _ (by decide) called
  -- A frame of the run that lies in the heap.
  have inside := (sound.owns _ (mem_give (i := 0x100) (by decide) t)).heap
  have clear : 0x200000 + 0x100 * PAGE + PAGE ≤ t.heap.1 ∨ t.heap.2 ≤ 0x200000 + 0x100 * PAGE := inside
  have low : t.heap = (0x210000, 0x4210000) := heap
  rw [low] at clear
  exact absurd clear (by decide)

end State
end Myos.Mm
