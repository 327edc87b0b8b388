import Myos.Task.VmMachine

namespace Myos.Task.Machine
open Lib Checked

structure Narrow (r : MmapRegion) : Prop where
  top : r.va + r.pages * PAGE ≤ 2 ^ 43
  file : r.file ≠ 0 → r.fpage + r.pages < 2 ^ 32

variable {r a b : MmapRegion} {mmap : List MmapRegion} {vm : Vm} {lo hi : Nat}

variable {pages va x y : Nat} {prot : Prot}

theorem add_ok {width : Nat} (small : x + y < 2 ^ width) : (add width x y : Arith Nat) = .ok (x + y) := if_pos small

theorem sub_ok (below : y ≤ x) : (sub x y : Arith Nat) = .ok (x - y) := if_pos below

theorem mul_ok {width : Nat} (small : x * y < 2 ^ width) : (mul width x y : Arith Nat) = .ok (x * y) := if_pos small

theorem pages_ok (narrow : Narrow r) : (mul 64 r.pages PAGE : Arith Nat) = .ok (r.pages * PAGE) := by
  have top := narrow.top
  exact mul_ok (by omega)

theorem regionEnd_eq (narrow : Narrow r) : regionEnd r = .ok (Task.regionEnd r) := by
  rw [regionEnd, pages_ok narrow]
  rfl

theorem movedPage_eq {skip : Nat} (narrow : Narrow r) (within : skip ≤ r.pages) :
    movedPage r skip = .ok (if r.file ≠ 0 then r.fpage + skip else 0) := by
  unfold movedPage
  split
  · rename_i named
    have file := narrow.file named
    exact add_ok (by omega)
  · rfl

theorem piece_eq (narrow : Narrow r) (lower : r.va ≤ x) (order : x ≤ y) (upper : y ≤ r.va + r.pages * PAGE) :
    piece r x y = .ok (Task.piece r x y) := by
  have top := narrow.top
  have page : PAGE = 4096 := rfl
  rw [page] at top upper
  have skip : (x - r.va) / PAGE % 2 ^ 32 = (x - r.va) / PAGE := by
    rw [page]
    omega
  have pages : (y - x) / PAGE % 2 ^ 32 = (y - x) / PAGE := by
    rw [page]
    omega
  have within : (x - r.va) / PAGE ≤ r.pages := by
    rw [page]
    omega
  rw [piece, sub_ok lower, ok_bind, sub_ok order, ok_bind, skip, pages, movedPage_eq narrow within]
  rfl

theorem pieceIf_eq (narrow : Narrow r) (lower : r.va ≤ x) (upper : y ≤ r.va + r.pages * PAGE) :
    pieceIf r x y = .ok (if x < y then [Task.piece r x y] else []) := by
  unfold pieceIf
  split
  · rename_i order
    rw [piece_eq narrow lower order.le upper]
    rfl
  · rfl

theorem partitionPoint_eq {α : Type} {p : α → Arith Bool} {q : α → Bool} {l : List α} (same : ∀ x ∈ l, p x = .ok (q x)) :
    partitionPoint p l = .ok (Task.partitionPoint q l) := by
  induction l with
  | nil => rfl
  | cons x l ih =>
    unfold partitionPoint Task.partitionPoint
    rw [same x (.head _), ok_bind, List.takeWhile_cons]
    cases holds : q x with
    | false => rfl
    | true =>
      rw [if_pos rfl, if_pos rfl, ih fun y member => same y (.tail _ member)]
      rfl

theorem mapM_eq {α β : Type} {f : α → Arith β} {g : α → β} {l : List α} (same : ∀ x ∈ l, f x = .ok (g x)) :
    l.mapM f = .ok (l.map g) := by
  induction l with
  | nil => rfl
  | cons x l ih =>
    rw [List.mapM_cons, same x (.head _), ok_bind, ih fun y member => same y (.tail _ member)]
    rfl

theorem cutRegion_eq (narrow : Narrow r) (placed : r.Placed) (range : Range lo hi)
    (meets : lo < Task.regionEnd r ∧ r.va < hi) :
    cutRegion lo hi r = .ok (Task.piece r (max r.va lo) (min (Task.regionEnd r) hi), leftovers lo hi r) := by
  have part := part_inside placed range meets
  have order := part.nonempty
  have ends := placed.end_eq
  rw [cutRegion, regionEnd_eq narrow, ok_bind, piece_eq narrow (le_max_left _ _) order.le (by omega), ok_bind,
    pieceIf_eq narrow le_rfl (by omega), ok_bind, pieceIf_eq narrow meets.2.le (by omega)]
  rfl

theorem endsBy_eq (narrow : Narrow r) (va : Nat) : endsBy va r = .ok (decide (Task.regionEnd r ≤ va)) := by
  rw [endsBy, regionEnd_eq narrow]
  rfl

theorem carve_ok (laid : Laid mmap) (narrow : ∀ r ∈ mmap, Narrow r) (range : Range lo hi) :
    carve mmap lo hi = .ok (Task.carve mmap lo hi) := by
  have first := partitionPoint_eq fun r member => endsBy_eq (narrow r member) lo
  have cut := laid.cut lo hi
  generalize starts : Task.partitionPoint (fun r => decide (Task.regionEnd r ≤ lo)) mmap = start at first
  have members : ∀ r ∈ (mmap.drop start).take (start + Task.partitionPoint (fun r => r.va < hi) (mmap.drop start) - start),
      cutRegion lo hi r = .ok (Task.piece r (max r.va lo) (min (Task.regionEnd r) hi), leftovers lo hi r) := by
    intro r member
    rw [Nat.add_sub_cancel_left, take_partitionPoint, ← starts, drop_partitionPoint] at member
    have old : r ∈ mmap := (List.dropWhile_sublist _).subset ((List.takeWhile_sublist _).subset member)
    exact cutRegion_eq (narrow r old) (laid.placed r old) range (cut.isCut r member)
  rw [carve, first, ok_bind]
  dsimp only
  rw [mapM_eq members, ok_bind, List.map_map, List.flatMap_map]
  unfold Task.carve
  rw [starts]
  exact (apply_ite Except.ok _ _ _).symm

theorem continues_eq (narrow : Narrow a) (b : MmapRegion) :
    continues a b = .ok (a.file == 0 || a.fpage + a.pages == b.fpage) := by
  unfold continues
  split
  · rename_i anonymous
    rw [anonymous]
    rfl
  · rename_i named
    rw [add_ok (narrow.file named), ok_bind, beq_eq_false_iff_ne.mpr named]
    rfl

theorem joinable_eq (narrow : Narrow a) (b : MmapRegion) : joinable a b = .ok (Task.joinable a b) := by
  have top := narrow.top
  unfold joinable Task.joinable
  split
  · rename_i same
    rw [continues_eq narrow, ok_bind, pages_ok narrow, beq_iff_eq.mpr same.1, beq_iff_eq.mpr same.2]
    cases a.file == 0 || a.fpage + a.pages == b.fpage with
    | false => rfl
    | true =>
      rw [if_pos rfl, ok_bind, add_ok (by omega)]
      rfl
  · rename_i other
    by_cases prot : a.prot = b.prot
    · have file : (a.file == b.file) = false := beq_eq_false_iff_ne.mpr fun file => other ⟨prot, file⟩
      rw [file, Bool.and_false]
      rfl
    · rw [beq_eq_false_iff_ne.mpr prot]
      rfl

theorem Narrow.join (right : Narrow b) (joins : Task.joinable a b = true) :
    Narrow { a with pages := a.pages + b.pages } := by
  obtain ⟨_, file, page, next⟩ := joinable_iff.mp joins
  have top := right.top
  refine ⟨?_, fun named => ?_⟩
  · dsimp only
    rw [Nat.add_mul]
    omega
  have last := right.file (file ▸ named)
  have start := page.resolve_left named
  dsimp only
  omega

theorem coalesceFrom_eq (narrow : Narrow a) (rest : ∀ b ∈ mmap, Narrow b) :
    coalesceFrom a mmap = .ok (Task.coalesceFrom a mmap) := by
  induction mmap generalizing a with
  | nil => rfl
  | cons b mmap ih =>
    have here := rest b (.head _)
    have later : ∀ c ∈ mmap, Narrow c := fun c member => rest c (.tail _ member)
    unfold coalesceFrom Task.coalesceFrom
    rw [joinable_eq narrow, ok_bind]
    cases joins : Task.joinable a b with
    | false =>
      rw [if_neg (by decide), if_neg (by decide), ih here later]
      rfl
    | true =>
      have joined := here.join joins
      have top := joined.top
      have page : PAGE = 4096 := rfl
      rw [page] at top
      rw [if_pos rfl, if_pos rfl, add_ok (by dsimp only at top; omega), ok_bind, ih joined later]

theorem coalesce_eq (narrow : ∀ r ∈ mmap, Narrow r) : coalesce mmap = .ok (Task.coalesce mmap) := by
  cases mmap with
  | nil => rfl
  | cons a rest =>
    exact coalesceFrom_eq (narrow a (.head _)) fun b member => narrow b (.tail _ member)

def NarrowPages (mmap : List MmapRegion) : Prop :=
  ∀ va x, Covers mmap va x → va < 2 ^ 43 ∧ (x.2.1 ≠ 0 → x.2.2 + 1 < 2 ^ 32)

theorem NarrowPages.narrow (pages : NarrowPages mmap) (laid : Laid mmap) : ∀ r ∈ mmap, Narrow r := by
  intro r member
  have placed := laid.placed r member
  have ends := placed.end_eq
  have page : PAGE = 4096 := rfl
  have nonempty := placed.va_lt_end
  obtain ⟨top, file⟩ := pages (Task.regionEnd r - 1) _ ⟨r, member, ⟨by omega, by omega⟩, rfl⟩
  refine ⟨by omega, fun named => ?_⟩
  have last : (Task.regionEnd r - 1 - r.va) / PAGE = r.pages - 1 := by
    rw [ends, page]
    omega
  have bound := file named
  rw [MmapRegion.entry, if_pos named, last] at bound
  dsimp only at bound
  omega

theorem insertRegion_eq {region : MmapRegion} (narrow : ∀ r ∈ vm.mmap, Narrow r) (new : Narrow region) :
    insertRegion vm region = .ok (vm.insertRegion region) := by
  have all : ∀ r ∈ vm.mmap.insertIdx (Task.partitionPoint (fun r => r.va < region.va) vm.mmap) region, Narrow r := by
    intro r member
    rw [insertIdx_partitionPoint] at member
    rcases List.mem_append.mp member with member | old
    · rcases List.mem_append.mp member with old | member
      · exact narrow r ((List.takeWhile_sublist _).subset old)
      · rw [List.mem_singleton.mp member]
        exact new
    · exact narrow r ((List.dropWhile_sublist _).subset old)
  rw [insertRegion, coalesce_eq all, ok_bind]
  exact (apply_ite Except.ok _ _ _).symm

theorem addRegion_eq {file : Option (Node × Nat)} (ok : vm.Ok)
    (narrow : ∀ r ∈ vm.mmap, Narrow r) (top : va + pages * PAGE ≤ 2 ^ 43)
    (filePages : ∀ back, file = some back → back.2 / PAGE + pages < 2 ^ 32) :
    addRegion vm va pages prot file = .ok (vm.addRegion va pages prot file) := by
  unfold addRegion Vm.addRegion
  cases file with
  | none => exact insertRegion_eq narrow ⟨top, fun named => absurd rfl named⟩
  | some back =>
    obtain ⟨node, off⟩ := back
    have small := filePages _ rfl
    dsimp only at small ⊢
    rw [Nat.mod_eq_of_lt (by omega)]
    cases found : vm.mappedFileSlot node with
    | mk kept slot =>
      cases slot with
      | none => rfl
      | some slot =>
        obtain ⟨mmap, _, _⟩ := Vm.mappedFileSlot_spec ok found
        exact insertRegion_eq (mmap ▸ narrow) ⟨top, fun _ => small⟩

theorem freeGapFrom_eq {areaHi len cand : Nat} (narrow : ∀ r ∈ mmap, Narrow r) :
    freeGapFrom areaHi len cand mmap = .ok (Task.freeGapFrom areaHi len cand mmap) := by
  induction mmap generalizing cand with
  | nil => rfl
  | cons r mmap ih =>
    have later : ∀ s ∈ mmap, Narrow s := fun s member => narrow s (.tail _ member)
    unfold freeGapFrom Task.freeGapFrom
    rw [regionEnd_eq (narrow r (.head _)), ok_bind]
    split
    · exact ih later
    split
    · split
      · rfl
      · exact ih later
    · rfl

theorem mmapAddFree_eq {areaLo areaHi : Nat} {file : Option (Node × Nat)} (ok : vm.Ok)
    (narrow : ∀ r ∈ vm.mmap, Narrow r) (window : areaHi ≤ 2 ^ 43) (count : pages < 2 ^ 32)
    (filePages : ∀ back, file = some back → back.2 / PAGE + pages < 2 ^ 32) :
    mmapAddFree vm areaLo areaHi pages prot file = .ok (vm.mmapAddFree areaLo areaHi pages prot file) := by
  have length : (mul 64 pages PAGE : Arith Nat) = .ok (pages * PAGE) := by
    have page : PAGE = 4096 := rfl
    exact mul_ok (by rw [page]; omega)
  unfold mmapAddFree Vm.mmapAddFree freeGap
  rw [length, ok_bind, freeGapFrom_eq narrow, ok_bind]
  cases found : Task.freeGapFrom areaHi (pages * PAGE) areaLo vm.mmap with
  | none => rfl
  | some va =>
    have fits := (freeGapFrom_spec ok.laid found).2.1
    dsimp only
    rw [addRegion_eq ok narrow (fits.trans window) filePages, ok_bind]
    cases vm.addRegion va pages prot file with
    | mk next added => cases added <;> rfl

theorem mmapRemove_eq (ok : vm.Ok) (narrow : ∀ r ∈ vm.mmap, Narrow r)
    (range : Range va (va + pages * PAGE)) (top : va + pages * PAGE ≤ 2 ^ 43) :
    mmapRemove vm va pages = .ok (vm.mmapRemove va pages) := by
  unfold mmapRemove Vm.mmapRemove
  rw [mul_ok (by omega), ok_bind, add_ok (by omega), ok_bind, carve_ok ok.laid narrow range, ok_bind]
  cases Task.carve vm.mmap va (va + pages * PAGE) <;> rfl

theorem narrow_reprotected {next removed : List MmapRegion} (pages : NarrowPages mmap)
    (carved : Carved mmap next removed lo hi) (range : Range lo hi) (prot : Prot) :
    ∀ r ∈ next.takeWhile (fun r => r.va < lo) ++
      (removed.map fun part => { part with prot := Vm.reprotect prot part.prot }) ++
      next.dropWhile fun r => r.va < lo, Narrow r := by
  have laid := carved.laid.splice (Vm.Laid.reprotect carved.removedLaid prot) range.nonempty carved.outside (by
    intro r member
    obtain ⟨part, source, rfl⟩ := List.mem_map.mp member
    exact carved.inside part source)
  refine NarrowPages.narrow (fun va x covered => ?_) laid
  rcases (Covers.splice _).mp covered with kept | put
  · exact pages va x ((carved.covers va x).mp kept).1
  · obtain ⟨y, part, rfl⟩ := Vm.Covers.reprotect.mp put
    exact pages va y ((carved.removedCovers va y).mp part).1

theorem mmapSetProt_eq (ok : vm.Ok) (narrow : NarrowPages vm.mmap)
    (range : Range va (va + pages * PAGE)) (top : va + pages * PAGE ≤ 2 ^ 43) :
    mmapSetProt vm va pages prot = .ok (vm.mmapSetProt va pages prot) := by
  unfold mmapSetProt Vm.mmapSetProt
  rw [mul_ok (by omega), ok_bind, add_ok (by omega), ok_bind, carve_ok ok.laid (narrow.narrow ok.laid) range, ok_bind]
  cases carved : Task.carve vm.mmap va (va + pages * PAGE) with
  | none => rfl
  | some both =>
    have all := narrow_reprotected narrow (carve_spec ok.laid range carved) range prot
    simp only [Vm.reprotect] at all
    dsimp only
    rw [take_partitionPoint, drop_partitionPoint, coalesce_eq all, ok_bind]
    exact (apply_ite Except.ok _ _ _).symm

def inBytes (backed : Prot × Option (Node × Nat) × Nat) : Prot × Option (Node × Nat) × Nat :=
  (backed.1, backed.2.1.map fun file => (file.1, file.2 * PAGE), backed.2.2)

theorem backingFile_eq (narrow : Narrow r) (contains : r.Contains va) (placed : r.Placed) :
    backingFile vm r va = .ok ((vm.backingFile r va).map fun file => (file.1, file.2 * PAGE)) := by
  have ends := placed.end_eq
  have page : PAGE = 4096 := rfl
  unfold backingFile Vm.backingFile
  by_cases anonymous : r.file = 0
  · rw [if_pos anonymous, if_pos anonymous]
    rfl
  rw [if_neg anonymous, if_neg anonymous]
  have file := narrow.file anonymous
  have inside : (va - r.va) / PAGE ≤ r.pages := by
    have upper := contains.2
    rw [page] at ends ⊢
    omega
  cases vm.files[r.file - 1]?.join with
  | none => rfl
  | some node =>
    dsimp only
    rw [sub_ok contains.1, ok_bind, add_ok (by omega), ok_bind, mul_ok (by rw [page] at *; omega)]
    rfl

theorem mmapBacking_eq (ok : vm.Ok) (narrow : ∀ r ∈ vm.mmap, Narrow r) (va : Nat) :
    mmapBacking vm va = .ok ((vm.mmapBacking va).map inBytes) := by
  have at_ : regionAt vm.mmap va = .ok (Task.regionAt vm.mmap va) := by
    rw [regionAt, partitionPoint_eq fun r member => endsBy_eq (narrow r member) va]
    rfl
  unfold mmapBacking Vm.mmapBacking
  rw [at_, ok_bind]
  cases found : Task.regionAt vm.mmap va with
  | none => rfl
  | some r =>
    obtain ⟨member, contains⟩ := ok.laid.regionAt_eq_some.mp found
    have below : va - va % PAGE ≤ Task.regionEnd r := by
      have upper := contains.2
      omega
    dsimp only
    rw [backingFile_eq (narrow r member) contains (ok.laid.placed r member), ok_bind, regionEnd_eq (narrow r member),
      ok_bind, sub_ok below]
    rfl

end Myos.Task.Machine
