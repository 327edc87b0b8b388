import Mathlib.Data.List.Infix
import Mathlib.Data.List.Sort
import Myos.Task.VmJoins
import Myos.User.MappedProgramSound

/-! Which programs are recorded without an overflow: `coalesce` adds a region's file page and its number of pages
whenever the next region of the table has the same protection and file, and it does so after every insertion. -/

namespace Myos.User.MappedProgram
open Lib Checked Myos.Task
open Modules.Elf hiding Node

abbrev Piece.Before (p q : Piece) : Prop := p.first ≤ q.first

/-- The pieces in the order of their addresses. -/
def inOrder (ps : List Piece) : List Piece := ps.foldl (fun placed p => placed.orderedInsert Piece.Before p) []

/-- The sum made of a piece's file page and size, when the next one has its protection and is of the file too, fits. -/
def Piece.Joins (p q : Piece) : Prop :=
  p.prot = q.prot → q.back.isSome = true → p.back.all (fun off => off / PAGE + (p.last - p.first) / PAGE < 2 ^ 32) = true

instance : DecidableRel Piece.Joins := fun _ _ => inferInstanceAs (Decidable (_ → _ → _))

/-- After each piece that is recorded, the pieces so far follow one another as `Piece.Joins` says. -/
def PagesFit (segs : List LoadSegment) : Prop :=
  ∀ ps ∈ (segs.flatMap pieces).inits, (inOrder ps).IsChain Piece.Joins

instance (segs : List LoadSegment) : Decidable (PagesFit segs) := inferInstanceAs (Decidable (∀ ps ∈ _, _))

def Piece.region (bias : Nat) (p : Piece) : MmapRegion :=
  ⟨bias + p.first, (p.last - p.first) / PAGE, p.prot, if p.back.isSome then 1 else 0, p.back.getD 0 / PAGE⟩

variable {node : Node} {bias : Nat} {p q : Piece} {ps : List Piece} {m : Mapped}

theorem follows_region : Follows (p.region bias) (q.region bias) ↔ p.Joins q := by
  unfold Follows Piece.Joins Piece.region
  cases p.back <;> cases q.back <;> simp

theorem region_top (whole : p.Whole bias) : (p.region bias).top = bias + p.last := by
  have nonempty := whole.nonempty
  change bias + p.first + (p.last - p.first) / PAGE * PAGE = bias + p.last
  rw [whole.pages]
  omega

theorem region_small (whole : p.Whole bias) : (p.region bias).Small := by
  have window := whole.window
  have limit : USER_WINDOW = 2 ^ 39 := rfl
  refine ⟨by rw [region_top whole]; omega, ?_⟩
  cases back : p.back with
  | none => simp [Piece.region, back]
  | some off => simpa [Piece.region, back] using whole.page off back

theorem inOrder_append (ps : List Piece) (p : Piece) :
    inOrder (ps ++ [p]) = (inOrder ps).orderedInsert Piece.Before p := List.foldl_append ..

theorem mem_inOrder : p ∈ inOrder ps ↔ p ∈ ps := by
  induction ps using List.reverseRecOn with
  | nil => rfl
  | append_singleton ps q ih => rw [inOrder_append, List.mem_orderedInsert, ih, List.mem_append, List.mem_singleton, or_comm]

instance : Std.Total Piece.Before := ⟨fun _ _ => Nat.le_total _ _⟩

instance : IsTrans Piece Piece.Before := ⟨fun _ _ _ => Nat.le_trans⟩

theorem inOrder_sorted (ps : List Piece) : (inOrder ps).Pairwise Piece.Before := by
  induction ps using List.reverseRecOn with
  | nil => exact .nil
  | append_singleton ps p ih =>
    rw [inOrder_append]
    exact ih.orderedInsert p _

theorem inOrder_split (ps : List Piece) (p : Piece) : ∃ below above, inOrder ps = below ++ above ∧
    inOrder (ps ++ [p]) = below ++ p :: above ∧ (∀ q ∈ below, q.first < p.first) ∧ ∀ q ∈ above, p.first ≤ q.first := by
  refine ⟨(inOrder ps).takeWhile fun q => decide ¬ p.Before q, (inOrder ps).dropWhile fun q => decide ¬ p.Before q,
    List.takeWhile_append_dropWhile.symm, ?_, fun q member => ?_, fun q member => ?_⟩
  · rw [inOrder_append, List.orderedInsert_eq_take_drop]
  · simpa using List.mem_takeWhile_imp member
  · have left := not_of_mem_dropWhile ((inOrder_sorted ps).imp fun {a b} order before => ?_) member
    · simpa using left
    · simp only [decide_eq_true_eq, not_le, Piece.Before] at before order ⊢
      exact order.trans_lt before

/-- The table after the pieces `ps`. -/
structure Recorded (node : Node) (bias : Nat) (ps : List Piece) (vm : Vm) : Prop where
  only : Only node vm
  mmap : vm.mmap = coalesce ((inOrder ps).map (Piece.region bias))

def Clear (p q : Piece) : Prop := ∀ a, ¬ (p.holds a = true ∧ q.holds a = true)

theorem Clear.apart (clear : Clear p q) (left : p.Whole bias) (right : q.Whole bias) :
    p.last ≤ q.first ∨ q.last ≤ p.first := by
  have first := left.nonempty
  have second := right.nonempty
  by_contra meets
  exact clear (max p.first q.first) ⟨decide_eq_true ⟨by omega, by omega⟩, decide_eq_true ⟨by omega, by omega⟩⟩

/-- Where the next piece goes in the table. -/
theorem around_region (whole : ∀ q ∈ ps ++ [p], q.Whole bias) (clear : ∀ q ∈ ps, Clear q p) :
    ∃ below above, Around (p.region bias) below above ∧ (inOrder ps).map (Piece.region bias) = below ++ above ∧
      (inOrder (ps ++ [p])).map (Piece.region bias) = below ++ p.region bias :: above ∧
      ∀ r ∈ below ++ above, r.Small := by
  obtain ⟨below, above, split, next, lower, upper⟩ := inOrder_split ps p
  have here := whole p (by simp)
  have member : ∀ q ∈ below ++ above, q ∈ ps := fun q member => mem_inOrder.mp (split ▸ member)
  have each : ∀ q ∈ below ++ above, q.Whole bias := fun q source => whole q (by simp [member q source])
  refine ⟨below.map (Piece.region bias), above.map (Piece.region bias), ⟨fun r mapped => ?_, fun r mapped => ?_⟩,
    by rw [split, List.map_append], by rw [next, List.map_append, List.map_cons], fun r mapped => ?_⟩
  · obtain ⟨q, source, rfl⟩ := List.mem_map.mp mapped
    have before := lower q source
    have there := each q (List.mem_append_left _ source)
    have nonempty := here.nonempty
    have apart := (clear q (member q (List.mem_append_left _ source))).apart there here
    rw [region_top there]
    exact ⟨Nat.add_lt_add_left before bias, Nat.add_le_add_left (by omega) bias⟩
  · obtain ⟨q, source, rfl⟩ := List.mem_map.mp mapped
    have after := upper q source
    have there := each q (List.mem_append_right _ source)
    have first := here.nonempty
    have second := there.nonempty
    have apart := (clear q (member q (List.mem_append_right _ source))).apart there here
    exact Nat.add_lt_add_left (by omega) bias
  · rw [← List.map_append] at mapped
    obtain ⟨q, source, rfl⟩ := List.mem_map.mp mapped
    exact region_small (each q source)

/-- Recording a piece puts its region in, the file being at the first slot. -/
theorem addRegion_piece {vm : Vm} (only : Only node vm) (whole : p.Whole bias) :
    ∃ kept, kept.mmap = vm.mmap ∧ Only node kept ∧
      vm.mmapAdd (bias + p.first) ((p.last - p.first) / PAGE) p.prot (p.back.map fun off => (node, off)) =
        kept.insertRegion (p.region bias) ∧
      Machine.addRegion vm (bias + p.first) ((p.last - p.first) / PAGE) p.prot (p.back.map fun off => (node, off)) =
        Machine.insertRegion kept (p.region bias) := by
  unfold Vm.mmapAdd Vm.addRegion Machine.addRegion Piece.region
  cases back : p.back with
  | none => exact ⟨vm, rfl, only, rfl, rfl⟩
  | some off =>
    obtain ⟨kept, found, same, keptOnly⟩ := mappedFileSlot_only only
    simp only [Option.map_some, found, Nat.mod_eq_of_lt (whole.page off back)]
    exact ⟨kept, same, keptOnly, rfl, rfl⟩

theorem insertRegion_files (vm : Vm) (r : MmapRegion) : (vm.insertRegion r).1.files = vm.files := by
  unfold Vm.insertRegion
  dsimp only
  split <;> rfl

theorem Recorded.add (recorded : Recorded node bias ps m.vm) (whole : ∀ q ∈ ps ++ [p], q.Whole bias)
    (clear : ∀ q ∈ ps, Clear q p) (ok : (m.add node bias p).ok = true) :
    Recorded node bias (ps ++ [p]) (m.add node bias p).vm := by
  obtain ⟨below, above, around, split, next, _⟩ := around_region whole clear
  obtain ⟨kept, same, keptOnly, added, _⟩ := @addRegion_piece node bias p m.vm recorded.only (whole p (by simp))
  obtain ⟨_, vm, made, isVm⟩ := add_ok_before ok
  rw [added] at made
  rw [isVm]
  refine ⟨?_, ?_⟩
  · have files := insertRegion_files kept (p.region bias)
    rw [made] at files
    unfold Only
    rw [files]
    exact keptOnly
  · unfold Vm.insertRegion at made
    dsimp only at made
    split at made
    · cases made
    cases made
    rw [next, ← around.coalesce_insertAt, ← split, ← recorded.mmap, ← same]
    rfl

theorem Recorded.tryAdd (recorded : Recorded node bias ps m.vm) (whole : ∀ q ∈ ps ++ [p], q.Whole bias)
    (clear : ∀ q ∈ ps, Clear q p) :
    ((inOrder (ps ++ [p])).IsChain Piece.Joins → m.tryAdd node bias p = .ok (m.add node bias p)) ∧
      (¬ (inOrder (ps ++ [p])).IsChain Piece.Joins → Overflows (m.tryAdd node bias p)) := by
  obtain ⟨below, above, around, split, next, small⟩ := around_region whole clear
  obtain ⟨kept, same, keptOnly, added, checked⟩ := @addRegion_piece node bias p m.vm recorded.only (whole p (by simp))
  have table : kept.mmap = coalesce (below ++ above) := by rw [same, recorded.mmap, split]
  have left : ∀ r ∈ below, r.Small := fun r member => small r (List.mem_append_left _ member)
  have right : ∀ r ∈ above, r.Small := fun r member => small r (List.mem_append_right _ member)
  have chain : (insertAt (p.region bias) kept.mmap).IsChain Follows ↔ (inOrder (ps ++ [p])).IsChain Piece.Joins := by
    rw [table, around.isChain_insertAt left right, ← next, List.isChain_map]
    simp only [follows_region]
  have all : ∀ r ∈ insertAt (p.region bias) kept.mmap, r.Small := by
    rw [table]
    exact around.small_insertAt left right (region_small (whole p (by simp)))
  obtain ⟨inserts, overflows⟩ := Machine.insertRegion_spec all
  rw [chain] at inserts overflows
  unfold Mapped.tryAdd Mapped.record Mapped.add
  rw [checked, added]
  constructor
  · intro joins
    rw [inserts joins]
    rfl
  · intro broken
    rw [overflows broken]
    rfl

/-- The pieces are recorded without an overflow exactly when their pages fit after each of them. -/
theorem foldlM_tryAdd (only : Only node m.vm) (start : m.vm.mmap = []) (whole : ∀ q ∈ ps, q.Whole bias)
    (clear : ps.Pairwise Clear) (ok : (ps.foldl (Mapped.add node bias) m).ok = true) :
    Recorded node bias ps (ps.foldl (Mapped.add node bias) m).vm ∧
      ((∀ qs ∈ ps.inits, (inOrder qs).IsChain Piece.Joins) →
        ps.foldlM (Mapped.tryAdd node bias) m = .ok (ps.foldl (Mapped.add node bias) m)) ∧
      (¬ (∀ qs ∈ ps.inits, (inOrder qs).IsChain Piece.Joins) → Overflows (ps.foldlM (Mapped.tryAdd node bias) m)) := by
  induction ps using List.reverseRecOn with
  | nil =>
    refine ⟨⟨only, start⟩, fun _ => rfl, fun broken => absurd (fun qs member => ?_) broken⟩
    cases List.mem_singleton.mp member
    exact .nil
  | append_singleton ps p ih =>
    rw [List.foldl_append] at ok
    obtain ⟨clearBefore, _, clearLast⟩ := List.pairwise_append.mp clear
    have last : ∀ q ∈ ps, Clear q p := fun q member => clearLast q member p (.head _)
    obtain ⟨recorded, placed, overflowed⟩ := ih (fun q member => whole q (List.mem_append_left _ member)) clearBefore
      (foldl_ok_before ok)
    obtain ⟨adds, overflows⟩ := recorded.tryAdd whole last
    have inits : (∀ qs ∈ (ps ++ [p]).inits, (inOrder qs).IsChain Piece.Joins) ↔
        (∀ qs ∈ ps.inits, (inOrder qs).IsChain Piece.Joins) ∧ (inOrder (ps ++ [p])).IsChain Piece.Joins := by
      rw [List.inits_append, List.forall_mem_append]
      simp
    rw [List.foldl_append, List.foldlM_append, inits]
    refine ⟨recorded.add whole last ok, fun fits => ?_, fun broken => ?_⟩
    · rw [placed fits.1, ok_bind, List.foldlM_cons, adds fits.2]
      rfl
    · by_cases before : ∀ qs ∈ ps.inits, (inOrder qs).IsChain Piece.Joins
      · rw [placed before, ok_bind, List.foldlM_cons]
        exact overflows_bind.mpr (.inl (overflows fun fits => broken ⟨before, fits⟩))
      · exact overflows_bind.mpr (.inl (overflowed before))

theorem foldlM_tryAdd_ok {next : Mapped} (whole : ∀ q ∈ ps, q.Whole bias)
    (added : ps.foldlM (Mapped.tryAdd node bias) m = .ok next) : next = ps.foldl (Mapped.add node bias) m := by
  induction ps generalizing m with
  | nil =>
    cases added
    rfl
  | cons p ps ih =>
    obtain ⟨first, tried, rest⟩ := bind_eq_ok.mp added
    have same : first = m.add node bias p := by
      obtain ⟨result, recorded, returned⟩ := bind_eq_ok.mp tried
      have unlifted : Machine.addRegion m.vm (bias + p.first) ((p.last - p.first) / PAGE) p.prot
          (p.back.map fun off => (node, off)) = .ok result := lift_eq_ok recorded
      have made := Machine.addRegion_ok (fun back isBack => ?_) unlifted
      · subst made
        cases returned
        rfl
      · obtain ⟨off, isOff, rfl⟩ := Option.map_eq_some_iff.mp isBack
        exact (whole p (.head _)).page off isOff
    subst same
    exact ih (fun q member => whole q (.tail _ member)) rest

end Myos.User.MappedProgram
