import Mathlib.Data.List.Chain
import Myos.Task.VmMachineSpec

/-! The table after an insertion, as the regions put in it one by one, not yet joined: what `coalesce` makes of them
and which of its sums fit. -/

namespace Myos.Task
open Lib Checked

variable {a b r : MmapRegion} {rest xs ys : List MmapRegion}

abbrev MmapRegion.top (r : MmapRegion) : Nat := r.va + r.pages * PAGE

theorem joinable_resized (n : Nat) : joinable a { b with pages := n } = joinable a b := rfl

theorem joinable_join (joins : joinable a b = true) (c : MmapRegion) : joinable (join a b) c = joinable b c := by
  obtain ⟨prot, file, page, next⟩ := joinable_iff.mp joins
  have top : (join a b).va + (join a b).pages * PAGE = b.va + b.pages * PAGE := by
    rw [← next]
    simp only [join, Nat.add_mul]
    omega
  rw [Bool.eq_iff_iff, joinable_iff, joinable_iff, top]
  change a.prot = c.prot ∧ a.file = c.file ∧ (a.file = 0 ∨ a.fpage + (a.pages + b.pages) = c.fpage) ∧ _ ↔ _
  rw [prot, file]
  refine and_congr_right fun _ => and_congr_right fun _ => and_congr_left fun _ => ?_
  rcases page with anonymous | start
  · simp [← file, anonymous]
  · rw [← start, Nat.add_assoc]

theorem coalesceFrom_cons (a b : MmapRegion) (rest : List MmapRegion) : coalesceFrom a (b :: rest) =
    if joinable a b then coalesceFrom (join a b) rest else a :: coalesceFrom b rest := rfl

theorem coalesceFrom_head (a : MmapRegion) (rest : List MmapRegion) :
    ∃ n later, coalesceFrom a rest = { a with pages := n } :: later := by
  induction rest generalizing a with
  | nil => exact ⟨a.pages, [], rfl⟩
  | cons b rest ih =>
    rw [coalesceFrom_cons]
    split
    · obtain ⟨n, later, same⟩ := ih (join a b)
      exact ⟨n, later, same⟩
    · exact ⟨a.pages, _, rfl⟩

theorem coalesceFrom_apart (apart : joinable a b = false) (rest more : List MmapRegion) :
    coalesceFrom a (coalesceFrom b rest ++ more) = a :: coalesce (coalesceFrom b rest ++ more) := by
  obtain ⟨n, later, same⟩ := coalesceFrom_head b rest
  rw [same, List.cons_append, coalesceFrom_cons, joinable_resized, apart]
  rfl

theorem coalesce_coalesceFrom_append (a : MmapRegion) (rest more : List MmapRegion) :
    coalesce (coalesceFrom a rest ++ more) = coalesceFrom a (rest ++ more) := by
  induction rest generalizing a with
  | nil => rfl
  | cons b rest ih =>
    rw [List.cons_append, coalesceFrom_cons, coalesceFrom_cons]
    cases joins : joinable a b with
    | true => exact ih (join a b)
    | false =>
      have first := coalesceFrom_apart joins rest more
      rw [ih b] at first
      exact first

theorem coalesce_coalesce_append (xs more : List MmapRegion) : coalesce (coalesce xs ++ more) = coalesce (xs ++ more) := by
  cases xs with
  | nil => rfl
  | cons a rest => exact coalesce_coalesceFrom_append a rest more

theorem coalesceFrom_coalesceFrom (a b : MmapRegion) (rest : List MmapRegion) :
    coalesceFrom a (coalesceFrom b rest) = coalesceFrom a (b :: rest) := by
  induction rest generalizing a b with
  | nil => rfl
  | cons c rest ih =>
    rw [coalesceFrom_cons b c]
    cases second : joinable b c with
    | true =>
      rw [if_pos rfl, ih, coalesceFrom_cons, coalesceFrom_cons a b]
      change (if joinable a b then _ else _) = _
      cases first : joinable a b with
      | true =>
        rw [if_pos rfl, if_pos rfl, coalesceFrom_cons, joinable_join first, second, if_pos rfl]
        simp only [join, Nat.add_assoc]
      | false => rw [if_neg (by decide), if_neg (by decide), coalesceFrom_cons, second, if_pos rfl]
    | false =>
      rw [if_neg (by decide), coalesceFrom_cons, coalesceFrom_cons a b]
      cases first : joinable a b with
      | true => rw [if_pos rfl, if_pos rfl, ih]
      | false => rw [if_neg (by decide), if_neg (by decide), ih]

theorem coalesceFrom_append_coalesce (a : MmapRegion) (rest more : List MmapRegion) :
    coalesceFrom a (rest ++ coalesce more) = coalesceFrom a (rest ++ more) := by
  induction rest generalizing a with
  | nil =>
    cases more with
    | nil => rfl
    | cons b more => exact coalesceFrom_coalesceFrom a b more
  | cons b rest ih => rw [List.cons_append, List.cons_append, coalesceFrom_cons, coalesceFrom_cons, ih, ih]

theorem coalesceFrom_append_of_lt {v : Nat} (below : ∀ x ∈ a :: rest, x.top ≤ v) (above : ∀ y ∈ ys, v < y.va) :
    coalesceFrom a (rest ++ ys) = coalesceFrom a rest ++ coalesce ys := by
  induction rest generalizing a with
  | nil =>
    cases ys with
    | nil => rfl
    | cons y ys =>
      have here : a.va + a.pages * PAGE ≤ v := below a (.head _)
      have there := above y (.head _)
      have apart : joinable a y = false := by
        rw [Bool.eq_false_iff]
        intro joins
        have next := (joinable_iff.mp joins).2.2.2
        omega
      rw [List.nil_append, coalesceFrom_cons, apart]
      rfl
  | cons b rest ih =>
    have later : ∀ x ∈ b :: rest, x.top ≤ v := fun x member => below x (.tail _ member)
    rw [List.cons_append, coalesceFrom_cons, coalesceFrom_cons]
    cases joins : joinable a b with
    | true =>
      refine ih fun x member => ?_
      rcases List.mem_cons.mp member with rfl | member
      · have here := below b (.tail _ (.head _))
        have next := (joinable_iff.mp joins).2.2.2
        simp only [MmapRegion.top, join, Nat.add_mul] at here ⊢
        omega
      · exact later x (.tail _ member)
    | false =>
      rw [if_neg (by decide), if_neg (by decide), ih later]
      rfl

theorem coalesceFrom_va : ∀ s ∈ coalesceFrom a rest, ∃ x ∈ a :: rest, s.va = x.va := by
  induction rest generalizing a with
  | nil => exact fun s member => ⟨s, member, rfl⟩
  | cons b rest ih =>
    intro s member
    rw [coalesceFrom_cons] at member
    split at member
    · obtain ⟨x, source, same⟩ := ih s member
      rcases List.mem_cons.mp source with rfl | source
      · exact ⟨a, .head _, same⟩
      · exact ⟨x, .tail _ (.tail _ source), same⟩
    · rcases List.mem_cons.mp member with rfl | member
      · exact ⟨s, .head _, rfl⟩
      · obtain ⟨x, source, same⟩ := ih s member
        exact ⟨x, .tail _ source, same⟩

theorem coalesce_va {s : MmapRegion} (member : s ∈ coalesce xs) : ∃ x ∈ xs, s.va = x.va := by
  cases xs with
  | nil => cases member
  | cons a rest => exact coalesceFrom_va s member

def insertAt (r : MmapRegion) (xs : List MmapRegion) : List MmapRegion :=
  xs.insertIdx (partitionPoint (fun x => x.va < r.va) xs) r

theorem insertAt_append (below : ∀ x ∈ xs, x.va < r.va) (above : ∀ y ∈ ys, r.va < y.va) :
    insertAt r (xs ++ ys) = xs ++ r :: ys := by
  have first : xs.takeWhile (fun x => decide (x.va < r.va)) = xs :=
    List.takeWhile_eq_self_iff.mpr fun x member => decide_eq_true (below x member)
  have missing : ys.takeWhile (fun x => decide (x.va < r.va)) = [] ∧ ys.dropWhile (fun x => decide (x.va < r.va)) = ys := by
    cases ys with
    | nil => exact ⟨rfl, rfl⟩
    | cons y ys =>
      have later : ¬ y.va < r.va := (above y (.head _)).not_gt
      simp [later]
  rw [insertAt, insertIdx_partitionPoint, List.takeWhile_append_of_pos fun x member => decide_eq_true (below x member),
    List.dropWhile_append_of_pos fun x member => decide_eq_true (below x member), missing.1, missing.2]
  simp

/-- Regions of a list below an address and above it. -/
structure Around (r : MmapRegion) (xs ys : List MmapRegion) : Prop where
  below : ∀ x ∈ xs, x.va < r.va ∧ x.top ≤ r.va
  above : ∀ y ∈ ys, r.va < y.va

theorem Around.coalesce_append (around : Around r xs ys) : coalesce (xs ++ ys) = coalesce xs ++ coalesce ys := by
  cases xs with
  | nil => rfl
  | cons a rest => exact coalesceFrom_append_of_lt (fun x member => (around.below x member).2) around.above

theorem Around.insertAt_coalesce (around : Around r xs ys) :
    insertAt r (coalesce (xs ++ ys)) = coalesce xs ++ r :: coalesce ys := by
  rw [around.coalesce_append]
  refine insertAt_append (fun s member => ?_) fun s member => ?_
  · obtain ⟨x, source, same⟩ := coalesce_va member
    exact same ▸ (around.below x source).1
  · obtain ⟨y, source, same⟩ := coalesce_va member
    exact same ▸ around.above y source

/-- Joining before a region is put in does not change what is joined after. -/
theorem Around.coalesce_insertAt (around : Around r xs ys) :
    coalesce (insertAt r (coalesce (xs ++ ys))) = coalesce (xs ++ r :: ys) := by
  rw [around.insertAt_coalesce, coalesce_coalesce_append]
  cases xs with
  | nil => exact coalesceFrom_append_coalesce r [] ys
  | cons a rest =>
    have moved := coalesceFrom_append_coalesce a (rest ++ [r]) ys
    rw [List.append_assoc, List.append_assoc] at moved
    exact moved

/-- The sum `joinable` makes of two neighbours' file pages, when it makes it, is a `u32`. -/
def Follows (a b : MmapRegion) : Prop := a.prot = b.prot → a.file = b.file → a.file ≠ 0 → a.fpage + a.pages < 2 ^ 32

theorem follows_resized (n : Nat) : Follows a { b with pages := n } ↔ Follows a b := Iff.rfl

theorem follows_join (joins : joinable a b = true) (c : MmapRegion) : Follows (join a b) c ↔ Follows b c := by
  obtain ⟨prot, file, page, _⟩ := joinable_iff.mp joins
  change (a.prot = c.prot → a.file = c.file → a.file ≠ 0 → a.fpage + (a.pages + b.pages) < 2 ^ 32) ↔ _
  rw [prot, file]
  refine imp_congr_right fun _ => imp_congr_right fun _ => imp_congr_right fun named => ?_
  rw [← Nat.add_assoc, page.resolve_left (file ▸ named)]

structure MmapRegion.Small (r : MmapRegion) : Prop where
  top : r.top ≤ 2 ^ 43
  page : r.fpage < 2 ^ 32

theorem follows_of_joinable (small : b.Small) (joins : joinable a b = true) : Follows a b := by
  intro _ _ named
  rw [(joinable_iff.mp joins).2.2.1.resolve_left named]
  exact small.page

theorem Small.join (left : a.Small) (right : b.Small) (joins : joinable a b = true) : (join a b).Small := by
  have next := (joinable_iff.mp joins).2.2.2
  have top := right.top
  refine ⟨?_, left.page⟩
  simp only [MmapRegion.top, Task.join, Nat.add_mul] at top ⊢
  omega

theorem coalesceFrom_small (small : ∀ x ∈ a :: rest, x.Small) : ∀ s ∈ coalesceFrom a rest, s.Small := by
  induction rest generalizing a with
  | nil => exact small
  | cons b rest ih =>
    have later : ∀ x ∈ b :: rest, x.Small := fun x member => small x (.tail _ member)
    rw [coalesceFrom_cons]
    split
    · rename_i joins
      exact ih (List.forall_mem_cons.mpr ⟨Small.join (small a (.head _)) (later b (.head _)) joins,
        fun x member => later x (.tail _ member)⟩)
    · exact List.forall_mem_cons.mpr ⟨small a (.head _), ih later⟩

theorem coalesce_small (small : ∀ x ∈ xs, x.Small) : ∀ s ∈ coalesce xs, s.Small := by
  cases xs with
  | nil => exact small
  | cons a rest => exact coalesceFrom_small small

theorem isChain_join (small : b.Small) (joins : joinable a b = true) :
    (join a b :: rest).IsChain Follows ↔ (a :: b :: rest).IsChain Follows := by
  rw [List.isChain_cons_cons, and_iff_right (follows_of_joinable small joins)]
  cases rest with
  | nil => exact iff_of_true (.singleton _) (.singleton _)
  | cons c rest => rw [List.isChain_cons_cons, List.isChain_cons_cons, follows_join joins]

theorem isChain_coalesceFrom_append (small : ∀ x ∈ a :: rest, x.Small) (more : List MmapRegion) :
    (coalesceFrom a rest ++ more).IsChain Follows ↔ (a :: rest ++ more).IsChain Follows := by
  induction rest generalizing a with
  | nil => rfl
  | cons b rest ih =>
    have second := small b (.tail _ (.head _))
    have later : ∀ x ∈ b :: rest, x.Small := fun x member => small x (.tail _ member)
    rw [coalesceFrom_cons]
    cases joins : joinable a b with
    | true =>
      have joined : ∀ x ∈ join a b :: rest, x.Small := List.forall_mem_cons.mpr
        ⟨Small.join (small a (.head _)) second joins, fun x member => later x (.tail _ member)⟩
      rw [if_pos rfl, ih joined]
      exact isChain_join second joins
    | false =>
      have tail := ih later
      obtain ⟨n, _, same⟩ := coalesceFrom_head b rest
      rw [if_neg (by decide)]
      rw [same] at tail ⊢
      simp only [List.cons_append] at tail ⊢
      rw [List.isChain_cons_cons, tail, follows_resized, ← List.isChain_cons_cons]

theorem isChain_coalesce_append (small : ∀ x ∈ xs, x.Small) (more : List MmapRegion) :
    (coalesce xs ++ more).IsChain Follows ↔ (xs ++ more).IsChain Follows := by
  cases xs with
  | nil => rfl
  | cons a rest => exact isChain_coalesceFrom_append small more

theorem isChain_cons_coalesce (small : ∀ y ∈ ys, y.Small) : (r :: coalesce ys).IsChain Follows ↔ (r :: ys).IsChain Follows := by
  cases ys with
  | nil => rfl
  | cons b rest =>
    have tail := isChain_coalesceFrom_append small []
    obtain ⟨n, _, same⟩ := coalesceFrom_head b rest
    rw [coalesce]
    simp only [List.append_nil] at tail
    rw [same] at tail ⊢
    rw [List.isChain_cons_cons, tail, follows_resized, ← List.isChain_cons_cons]

theorem Around.small_insertAt (around : Around r xs ys) (left : ∀ x ∈ xs, x.Small) (right : ∀ y ∈ ys, y.Small)
    (new : r.Small) : ∀ s ∈ insertAt r (coalesce (xs ++ ys)), s.Small := by
  rw [around.insertAt_coalesce]
  exact List.forall_mem_append.mpr ⟨coalesce_small left, List.forall_mem_cons.mpr ⟨new, coalesce_small right⟩⟩

theorem Around.isChain_insertAt (around : Around r xs ys) (left : ∀ x ∈ xs, x.Small) (right : ∀ y ∈ ys, y.Small) :
    (insertAt r (coalesce (xs ++ ys))).IsChain Follows ↔ (xs ++ r :: ys).IsChain Follows := by
  rw [around.insertAt_coalesce, isChain_coalesce_append left, List.isChain_split, isChain_cons_coalesce right,
    ← List.isChain_split]

namespace Machine

theorem joinable_spec (top : a.top ≤ 2 ^ 43) (b : MmapRegion) :
    (Follows a b → joinable a b = .ok (Task.joinable a b)) ∧ (¬ Follows a b → Overflows (joinable a b)) := by
  by_cases same : a.prot = b.prot ∧ a.file = b.file ∧ a.file ≠ 0
  · obtain ⟨prot, file, named⟩ := same
    by_cases fits : a.fpage + a.pages < 2 ^ 32
    · exact ⟨fun _ => joinable_eq ⟨top, fun _ => fits⟩ b, fun wrong => absurd (fun _ _ _ => fits) wrong⟩
    · refine ⟨fun follows => absurd (follows prot file named) fits, fun _ => ?_⟩
      have overflow : (add 32 a.fpage a.pages : Arith Nat) = .error .overflow := if_neg fits
      rw [joinable, if_pos ⟨prot, file⟩, continues, if_neg named, overflow]
      rfl
  · have follows : Follows a b := fun prot file named => absurd ⟨prot, file, named⟩ same
    refine ⟨fun _ => ?_, absurd follows⟩
    by_cases anonymous : a.file = 0
    · exact joinable_eq ⟨top, fun named => absurd anonymous named⟩ b
    · have other : ¬ (a.prot = b.prot ∧ a.file = b.file) := fun both => same ⟨both.1, both.2, anonymous⟩
      have apart : Task.joinable a b = false := by
        rw [Bool.eq_false_iff]
        exact fun joins => other ⟨(joinable_iff.mp joins).1, (joinable_iff.mp joins).2.1⟩
      rw [joinable, if_neg other, apart]
      rfl

theorem coalesceFrom_spec (small : ∀ x ∈ a :: rest, x.Small) :
    ((a :: rest).IsChain Follows → coalesceFrom a rest = .ok (Task.coalesceFrom a rest)) ∧
      (¬ (a :: rest).IsChain Follows → Overflows (coalesceFrom a rest)) := by
  induction rest generalizing a with
  | nil => exact ⟨fun _ => rfl, fun broken => absurd (.singleton a) broken⟩
  | cons b rest ih =>
    have first := small a (.head _)
    have second := small b (.tail _ (.head _))
    have later : ∀ x ∈ b :: rest, x.Small := fun x member => small x (.tail _ member)
    obtain ⟨joined, overflows⟩ := joinable_spec first.top b
    unfold coalesceFrom
    by_cases follows : Follows a b
    · rw [joined follows, ok_bind, coalesceFrom_cons]
      cases joins : Task.joinable a b with
      | true =>
        have page : PAGE = 4096 := rfl
        have whole := Small.join first second joins
        have top := whole.top
        have sum : (add 32 a.pages b.pages : Arith Nat) = .ok (a.pages + b.pages) := by
          simp only [MmapRegion.top, Task.join, page] at top
          exact add_ok (by omega)
        rw [if_pos rfl, if_pos rfl, sum, ok_bind, ← isChain_join second joins]
        exact ih (List.forall_mem_cons.mpr ⟨whole, fun x member => later x (.tail _ member)⟩)
      | false =>
        obtain ⟨rest_ok, rest_overflows⟩ := ih later
        rw [List.isChain_cons_cons, and_iff_right follows, if_neg (by decide), if_neg (by decide)]
        refine ⟨fun chain => by rw [rest_ok chain]; rfl, fun broken => ?_⟩
        exact overflows_bind.mpr (.inl (rest_overflows broken))
    · refine ⟨fun chain => absurd (List.isChain_cons_cons.mp chain).1 follows, fun _ => ?_⟩
      exact overflows_bind.mpr (.inl (overflows follows))

theorem coalesce_spec (small : ∀ x ∈ xs, x.Small) :
    (xs.IsChain Follows → coalesce xs = .ok (Task.coalesce xs)) ∧ (¬ xs.IsChain Follows → Overflows (coalesce xs)) := by
  cases xs with
  | nil => exact ⟨fun _ => rfl, fun broken => absurd .nil broken⟩
  | cons a rest => exact coalesceFrom_spec small

theorem insertRegion_spec {vm : Vm} (small : ∀ x ∈ insertAt r vm.mmap, x.Small) :
    ((insertAt r vm.mmap).IsChain Follows → insertRegion vm r = .ok (vm.insertRegion r)) ∧
      (¬ (insertAt r vm.mmap).IsChain Follows → Overflows (insertRegion vm r)) := by
  obtain ⟨joined, overflows⟩ := coalesce_spec small
  refine ⟨fun chain => ?_, fun broken => overflows_bind.mpr (.inl (overflows broken))⟩
  have made := joined chain
  unfold insertAt at made
  rw [insertRegion, made, ok_bind]
  exact (apply_ite Except.ok _ _ _).symm

theorem mul_eq_ok {width x y z : Nat} (returned : (mul width x y : Arith Nat) = .ok z) : z = x * y := by
  unfold mul at returned
  split at returned
  all_goals cases returned
  rfl

theorem continues_ok {same : Bool} (returned : continues a b = .ok same) :
    same = (a.file == 0 || a.fpage + a.pages == b.fpage) := by
  unfold continues at returned
  split at returned
  · rename_i anonymous
    cases returned
    rw [anonymous]
    rfl
  · rename_i named
    obtain ⟨sum, added, same⟩ := bind_eq_ok.mp returned
    cases add_eq_ok added
    cases same
    rw [beq_eq_false_iff_ne.mpr named, Bool.false_or]

theorem joinable_ok {joins : Bool} (returned : joinable a b = .ok joins) : joins = Task.joinable a b := by
  unfold joinable at returned
  unfold Task.joinable
  split at returned
  · rename_i same
    rw [beq_iff_eq.mpr same.1, beq_iff_eq.mpr same.2]
    obtain ⟨after, continued, returned⟩ := bind_eq_ok.mp returned
    rw [← continues_ok continued]
    cases after with
    | false =>
      cases returned
      rfl
    | true =>
      obtain ⟨bytes, product, returned⟩ := bind_eq_ok.mp returned
      obtain ⟨last, sum, returned⟩ := bind_eq_ok.mp returned
      cases mul_eq_ok product
      cases add_eq_ok sum
      cases returned
      rfl
  · rename_i other
    cases returned
    symm
    rw [Bool.eq_false_iff]
    intro joins
    exact other ⟨(joinable_iff.mp joins).1, (joinable_iff.mp joins).2.1⟩

theorem coalesceFrom_ok {joined : List MmapRegion} (returned : coalesceFrom a rest = .ok joined) :
    joined = Task.coalesceFrom a rest := by
  induction rest generalizing a joined with
  | nil =>
    cases returned
    rfl
  | cons b rest ih =>
    unfold coalesceFrom at returned
    obtain ⟨joins, tested, returned⟩ := bind_eq_ok.mp returned
    rw [coalesceFrom_cons, ← joinable_ok tested]
    cases joins with
    | true =>
      obtain ⟨pages, sum, returned⟩ := bind_eq_ok.mp returned
      cases add_eq_ok sum
      exact ih returned
    | false =>
      obtain ⟨later, rest_ok, returned⟩ := bind_eq_ok.mp returned
      cases returned
      rw [ih rest_ok]
      rfl

theorem insertRegion_ok {vm : Vm} {result : Vm × Bool} (returned : insertRegion vm r = .ok result) :
    result = vm.insertRegion r := by
  obtain ⟨mmap, joined, returned⟩ := bind_eq_ok.mp returned
  have same : mmap = Task.coalesce (insertAt r vm.mmap) := by
    unfold insertAt
    cases table : vm.mmap.insertIdx (Task.partitionPoint (fun x => decide (x.va < r.va)) vm.mmap) r with
    | nil =>
      rw [table] at joined
      cases joined
      rfl
    | cons a rest =>
      rw [table] at joined
      exact coalesceFrom_ok joined
  subst same
  exact Except.ok.inj (returned.symm.trans (apply_ite Except.ok _ _ _).symm)

/-- What is recorded without an overflow is what is recorded on unbounded numbers. -/
theorem addRegion_ok {vm : Vm} {va pages : Nat} {prot : Prot} {file : Option (Node × Nat)} {result : Vm × Bool}
    (small : ∀ back, file = some back → back.2 / PAGE < 2 ^ 32) (returned : addRegion vm va pages prot file = .ok result) :
    result = vm.addRegion va pages prot file := by
  unfold addRegion at returned
  unfold Vm.addRegion
  cases file with
  | none => exact insertRegion_ok returned
  | some back =>
    dsimp only at returned ⊢
    rw [Nat.mod_eq_of_lt (small back rfl)] at returned
    cases found : vm.mappedFileSlot back.1 with
    | mk kept slot =>
      rw [found] at returned
      cases slot with
      | none =>
        cases returned
        rfl
      | some slot => exact insertRegion_ok returned

end Machine
end Myos.Task
