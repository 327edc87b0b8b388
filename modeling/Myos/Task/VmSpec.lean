import Mathlib.Data.List.Induction
import Myos.Task.VmOps

namespace Myos.Task.Vm

variable {vm : Vm}

def fileAt (files : List (Option Node)) (slot : Nat) : Option Node := if slot = 0 then none else files[slot - 1]?.join

def Maps (vm : Vm) (va : Nat) (prot : Prot) (file : Option (Node × Nat)) : Prop :=
  ∃ x, Covers vm.mmap va x ∧ x.1 = prot ∧ (fileAt vm.files x.2.1).map (fun node => (node, x.2.2)) = file

structure Ok (vm : Vm) : Prop where
  laid : Laid vm.mmap
  length : vm.mmap.length ≤ MAX_MMAP_REGIONS
  files : ∀ r ∈ vm.mmap, r.file ≠ 0 → (fileAt vm.files r.file).isSome

theorem backingFile_eq (vm : Vm) (r : MmapRegion) (va : Nat) :
    vm.backingFile r va = (fileAt vm.files (r.entry va).2.1).map fun node => (node, (r.entry va).2.2) := by
  by_cases anonymous : r.file = 0
  · simp [backingFile, MmapRegion.entry, fileAt, anonymous]
  · simp [backingFile, MmapRegion.entry, fileAt, anonymous]

variable {region : MmapRegion} {pages va : Nat} {file : Option (Node × Nat)} {prot : Prot} {after before next : Vm}

theorem mmapBacking_maps (ok : vm.Ok) {left : Nat}
    (backed : vm.mmapBacking va = some (prot, file, left)) : vm.Maps va prot file := by
  obtain ⟨r, found, same⟩ := Option.map_eq_some_iff.mp backed
  obtain ⟨member, contains⟩ := ok.laid.regionAt_eq_some.mp found
  obtain ⟨rfl, rfl, -⟩ := same
  exact ⟨r.entry va, ⟨r, member, contains, rfl⟩, rfl, (backingFile_eq vm r va).symm⟩

theorem maps_mmapBacking (ok : vm.Ok)
    (maps : vm.Maps va prot file) : ∃ left, vm.mmapBacking va = some (prot, file, left) := by
  obtain ⟨x, ⟨r, member, contains, rfl⟩, rfl, rfl⟩ := maps
  rw [mmapBacking, ok.laid.regionAt_eq_some.mpr ⟨member, contains⟩, ← backingFile_eq]
  exact ⟨_, rfl⟩

def SameFiles (mmap : List MmapRegion) (before after : List (Option Node)) : Prop :=
  ∀ r ∈ mmap, fileAt after r.file = fileAt before r.file

theorem maps_congr (files : SameFiles before.mmap before.files after.files)
    (covers : ∀ va x, Covers after.mmap va x → Covers before.mmap va x)
    (maps : after.Maps va prot file) : before.Maps va prot file := by
  obtain ⟨x, covered, rfl, rfl⟩ := maps
  refine ⟨x, covers va x covered, rfl, ?_⟩
  obtain ⟨r, member, -, rfl⟩ := covers va x covered
  simp only [MmapRegion.entry, files r member]

theorem dropTrailing_get (files : List (Option Node)) (i : Nat) :
    (dropTrailing files)[i]?.join = files[i]?.join := by
  induction files using List.reverseRecOn generalizing i with
  | nil => rfl
  | append_singleton rest last ih =>
    unfold dropTrailing
    rw [List.reverse_append, List.reverse_singleton, List.singleton_append, List.dropWhile_cons]
    cases last with
    | some node => simp
    | none =>
      simp only [Option.isNone_none, if_true]
      have dropped := ih i
      unfold dropTrailing at dropped
      rw [dropped]
      by_cases inside : i < rest.length
      · rw [List.getElem?_append_left inside]
      rw [List.getElem?_append_right (by omega), List.getElem?_eq_none (by omega)]
      cases i - rest.length with
      | zero => rfl
      | succ n => rfl

theorem pruneFiles_sameFiles (vm : Vm) : SameFiles vm.mmap vm.files vm.pruneFiles.files := by
  intro r member
  unfold fileAt
  split
  · rfl
  have isNamed : vm.named (r.file - 1) = true := by
    rw [Vm.named, List.any_eq_true]
    refine ⟨r, member, ?_⟩
    rw [beq_iff_eq]
    omega
  rw [pruneFiles, dropTrailing_get, List.getElem?_mapIdx]
  simp only [isNamed, if_true]
  cases vm.files[r.file - 1]? <;> rfl

variable (ok : vm.Ok)
include ok

theorem pruneFiles_ok : vm.pruneFiles.Ok := by
  refine ⟨ok.laid, ok.length, fun r member named => ?_⟩
  rw [pruneFiles_sameFiles vm r member]
  exact ok.files r member named

theorem insertRegion_false
    (inserted : vm.insertRegion region = (next, false)) : next = vm := by
  unfold insertRegion at inserted
  simp only at inserted
  split at inserted <;> cases inserted
  have grown : (vm.mmap.insertIdx (partitionPoint (fun r => r.va < region.va) vm.mmap) region).length ≤
      vm.mmap.length + 1 := List.length_insertIdx_le_succ ..
  have length := ok.length
  rw [coalesce_of_length (by omega), List.eraseIdx_insertIdx_self]

theorem insertRegion_true (placed : region.Placed)
    (vacant : Vacant vm.mmap region.va (regionEnd region))
    (named : region.file ≠ 0 → (fileAt vm.files region.file).isSome)
    (inserted : vm.insertRegion region = (next, true)) :
    next.Ok ∧ next.files = vm.files ∧
      ∀ va x, Covers next.mmap va x ↔ Covers vm.mmap va x ∨ Covers [region] va x := by
  have laid := ok.laid.splice (.singleton placed) placed.va_lt_end vacant
    (by simp)
  simp only [insertRegion, insertIdx_partitionPoint] at inserted
  split at inserted <;> cases inserted
  rename_i fits
  have covers : ∀ va x, Covers (coalesce (vm.mmap.takeWhile (fun r => r.va < region.va) ++ [region] ++
      vm.mmap.dropWhile fun r => r.va < region.va)) va x ↔ Covers vm.mmap va x ∨ Covers [region] va x := by
    intro va x
    rw [coalesce_covers laid, Covers.splice]
  refine ⟨⟨coalesce_laid laid, by simpa using fits, ?_⟩, rfl, covers⟩
  intro r member isNamed
  have covered : Covers _ r.va (r.entry r.va) :=
    ⟨r, member, ⟨le_rfl, ((coalesce_laid laid).placed r member).va_lt_end⟩, rfl⟩
  rcases (covers _ _).mp covered with ⟨old, oldMember, -, same⟩ | ⟨old, oldMember, -, same⟩
  · have file : old.file = r.file := congrArg (fun x => x.2.1) same
    rw [← file]
    exact ok.files old oldMember (by rwa [file])
  have file : old.file = r.file := congrArg (fun x => x.2.1) same
  rw [List.mem_singleton.mp oldMember] at file
  rw [← file]
  exact named (by rwa [file])

theorem mappedFileSlot_spec {node : Node} {slot : Option Nat}
    (placed : vm.mappedFileSlot node = (next, slot)) :
    next.mmap = vm.mmap ∧ SameFiles vm.mmap vm.files next.files ∧
      ∀ i, slot = some i → fileAt next.files (i + 1) = some node := by
  unfold mappedFileSlot at placed
  split at placed
  · rename_i i found
    cases placed
    refine ⟨rfl, fun _ _ => rfl, ?_⟩
    rintro i ⟨⟩
    obtain ⟨inside, same, -⟩ := List.findIdx?_eq_some_iff_getElem.mp found
    simp [fileAt, List.getElem?_eq_getElem inside, beq_iff_eq.mp same]
  simp only at placed
  have pruned : ∃ kept : Vm, (if MAX_MAPPED_FILES ≤ vm.files.length then vm.pruneFiles else vm) = kept ∧
      kept.mmap = vm.mmap ∧ SameFiles vm.mmap vm.files kept.files := by
    split
    · exact ⟨_, rfl, rfl, pruneFiles_sameFiles vm⟩
    · exact ⟨_, rfl, rfl, fun _ _ => rfl⟩
  obtain ⟨kept, keptEq, mmap, files⟩ := pruned
  rw [keptEq] at placed
  -- what the slots in use hold is all that counts
  have same {after : List (Option Node)} (holds : ∀ r : MmapRegion, r.file ≠ 0 → (fileAt kept.files r.file).isSome →
      after[r.file - 1]? = kept.files[r.file - 1]?) : SameFiles vm.mmap vm.files after := by
    intro r member
    rw [← files r member]
    unfold fileAt
    split
    · rfl
    rename_i isNamed
    rw [holds r isNamed (files r member ▸ ok.files r member isNamed)]
  split at placed
  · rename_i i found
    cases placed
    obtain ⟨inside, empty, -⟩ := List.findIdx?_eq_some_iff_getElem.mp found
    refine ⟨mmap, same fun r isNamed holds => ?_, ?_⟩
    · have other : i ≠ r.file - 1 := by
        rintro rfl
        simp [fileAt, isNamed, List.getElem?_eq_getElem inside, Option.isNone_iff_eq_none.mp empty] at holds
      rw [List.getElem?_set_ne other]
    · rintro i ⟨⟩
      simp [fileAt, inside]
  · split at placed <;> cases placed
    · refine ⟨mmap, same fun r isNamed holds => ?_, ?_⟩
      · have inside : r.file - 1 < kept.files.length := by
          by_contra outside
          simp [fileAt, isNamed, List.getElem?_eq_none (Nat.le_of_not_lt outside)] at holds
        rw [List.getElem?_append_left inside]
      · rintro i ⟨⟩
        simp [fileAt]
    · exact ⟨mmap, files, by simp⟩

omit ok in
theorem maps_iff_of_covers (files : SameFiles before.mmap before.files after.files)
    (covers : ∀ va x, Covers after.mmap va x ↔ Covers before.mmap va x) (va : Nat) (prot : Prot)
    (file : Option (Node × Nat)) : after.Maps va prot file ↔ before.Maps va prot file := by
  constructor
  · exact maps_congr files fun va x => (covers va x).mp
  rintro ⟨x, covered, rfl, rfl⟩
  refine ⟨x, (covers va x).mpr covered, rfl, ?_⟩
  obtain ⟨r, member, -, rfl⟩ := covered
  simp only [MmapRegion.entry, files r member]

omit ok in
theorem ok_of_sameFiles (ok : before.Ok) (mmap : after.mmap = before.mmap)
    (files : SameFiles before.mmap before.files after.files) : after.Ok := by
  refine ⟨mmap ▸ ok.laid, mmap ▸ ok.length, fun r member named => ?_⟩
  rw [mmap] at member
  rw [files r member]
  exact ok.files r member named

def New (va pages : Nat) (prot : Prot) (file : Option (Node × Nat)) (v : Nat) (p : Prot)
    (f : Option (Node × Nat)) : Prop :=
  va ≤ v ∧ v < va + pages * PAGE ∧ p = prot ∧ f = file.map fun back => (back.1, back.2 / PAGE + (v - va) / PAGE)

omit ok in
theorem insertRegion_maps (file : Option (Node × Nat)) (ok : vm.Ok)
    (placed : region.Placed) (vacant : Vacant vm.mmap region.va (regionEnd region))
    (backing : fileAt vm.files region.file = file.map Prod.fst)
    (offset : ∀ back, file = some back → region.file ≠ 0 ∧ region.fpage = back.2 / PAGE)
    (anonymous : file = none → region.file = 0) (inserted : vm.insertRegion region = (next, true)) :
    next.Ok ∧ ∀ v p f, next.Maps v p f ↔
      New region.va region.pages region.prot file v p f ∨ vm.Maps v p f := by
  have named : region.file ≠ 0 → (fileAt vm.files region.file).isSome := by
    intro isNamed
    cases file with
    | none => exact absurd (anonymous rfl) isNamed
    | some back => simp [backing]
  obtain ⟨nextOk, files, covers⟩ := insertRegion_true ok placed vacant named inserted
  refine ⟨nextOk, fun v p f => ?_⟩
  have own : (region.Contains v ∧ region.prot = p ∧
      (fileAt vm.files region.file).map (fun node => (node, (region.entry v).2.2)) = f) ↔
      New region.va region.pages region.prot file v p f := by
    rw [MmapRegion.Contains, placed.end_eq, New, backing]
    cases file with
    | none => simp [eq_comm, and_assoc]
    | some back =>
      obtain ⟨isNamed, fpage⟩ := offset back rfl
      simp [MmapRegion.entry, isNamed, fpage, eq_comm, and_assoc]
  simp only [Maps, files, covers, Covers.singleton]
  rw [← own]
  constructor
  · rintro ⟨x, old | ⟨contains, rfl⟩, rfl, rfl⟩
    · exact .inr ⟨x, old, rfl, rfl⟩
    · exact .inl ⟨contains, rfl, rfl⟩
  · rintro (⟨contains, rfl, rfl⟩ | ⟨x, old, rfl, rfl⟩)
    · exact ⟨_, .inr ⟨contains, rfl⟩, rfl, rfl⟩
    · exact ⟨x, .inl old, rfl, rfl⟩

theorem addRegion_true
    (positive : 0 < pages) (aligned : PAGE ∣ va) (bounded : va + pages * PAGE ≤ USIZE_MAX)
    (vacant : Vacant vm.mmap va (va + pages * PAGE)) (added : vm.addRegion va pages prot file = (next, true)) :
    next.Ok ∧ ∀ v p f, next.Maps v p f ↔ New va pages prot file v p f ∨ vm.Maps v p f := by
  unfold addRegion at added
  split at added
  · have placed : MmapRegion.Placed ⟨va, pages, prot, 0, 0⟩ := ⟨positive, aligned, bounded⟩
    exact insertRegion_maps none ok placed (placed.end_eq ▸ vacant) (by simp [fileAt]) (by simp)
      (fun _ => rfl) added
  rename_i node off
  split at added
  · rename_i kept slot found
    obtain ⟨mmap, files, holds⟩ := mappedFileSlot_spec ok found
    have keptOk := ok_of_sameFiles ok mmap files
    have placed : MmapRegion.Placed ⟨va, pages, prot, slot + 1, off / PAGE⟩ := ⟨positive, aligned, bounded⟩
    obtain ⟨nextOk, maps⟩ := insertRegion_maps (some (node, off)) keptOk placed
      (placed.end_eq ▸ mmap ▸ vacant) (holds slot rfl) (by simp) (by simp) added
    refine ⟨nextOk, fun v p f => ?_⟩
    rw [maps, maps_iff_of_covers files (by simp [mmap])]
  · cases added

/-- A call that failed: the regions are as before and what they map is the same. -/
structure Stays (vm next : Vm) : Prop where
  ok : next.Ok
  mmap : next.mmap = vm.mmap
  maps : ∀ v p f, next.Maps v p f ↔ vm.Maps v p f

theorem stays_of_sameFiles (mmap : next.mmap = vm.mmap) (files : SameFiles vm.mmap vm.files next.files) : vm.Stays next :=
  ⟨ok_of_sameFiles ok mmap files, mmap, maps_iff_of_covers files (by simp [mmap])⟩

theorem addRegion_false (added : vm.addRegion va pages prot file = (next, false)) : vm.Stays next := by
  unfold addRegion at added
  split at added
  · rw [insertRegion_false ok added]
    exact stays_of_sameFiles ok rfl fun _ _ => rfl
  split at added
  · rename_i kept slot found
    obtain ⟨mmap, files, -⟩ := mappedFileSlot_spec ok found
    rw [insertRegion_false (ok_of_sameFiles ok mmap files) added]
    exact stays_of_sameFiles ok mmap files
  · rename_i kept found
    obtain ⟨mmap, files, -⟩ := mappedFileSlot_spec ok found
    cases added
    exact stays_of_sameFiles ok mmap files

theorem carve_files {next removed : List MmapRegion} {lo hi : Nat}
    (carved : Carved vm.mmap next removed lo hi) (r : MmapRegion) (member : r ∈ next ∨ r ∈ removed)
    (named : r.file ≠ 0) : (fileAt vm.files r.file).isSome := by
  have covered : Covers vm.mmap r.va (r.entry r.va) := by
    rcases member with member | member
    · exact ((carved.covers _ _).mp ⟨r, member, ⟨le_rfl, (carved.laid.placed r member).va_lt_end⟩, rfl⟩).1
    · exact ((carved.removedCovers _ _).mp
        ⟨r, member, ⟨le_rfl, (carved.removedLaid.placed r member).va_lt_end⟩, rfl⟩).1
  obtain ⟨old, oldMember, -, same⟩ := covered
  have file : old.file = r.file := congrArg (fun x => x.2.1) same
  rw [← file]
  exact ok.files old oldMember (by rwa [file])

theorem mmapRemove_true (range : Range va (va + pages * PAGE))
    (removed : vm.mmapRemove va pages = (next, true)) :
    next.Ok ∧ Vacant next.mmap va (va + pages * PAGE) ∧
      ∀ v p f, next.Maps v p f ↔ vm.Maps v p f ∧ ¬(va ≤ v ∧ v < va + pages * PAGE) := by
  unfold mmapRemove at removed
  split at removed
  · cases removed
  rename_i mmap parts carved
  cases removed
  have spec := carve_spec ok.laid range carved
  have cutOk : Ok { vm with mmap } :=
    ⟨spec.laid, spec.length, fun r member named => carve_files ok spec r (.inl member) named⟩
  refine ⟨pruneFiles_ok cutOk, spec.outside, fun v p f => ?_⟩
  rw [maps_iff_of_covers (pruneFiles_sameFiles { vm with mmap }) (fun _ _ => Iff.rfl)]
  simp only [Maps, spec.covers]
  constructor
  · rintro ⟨x, ⟨covered, outside⟩, same⟩
    exact ⟨⟨x, covered, same⟩, outside⟩
  · rintro ⟨⟨x, covered, same⟩, outside⟩
    exact ⟨x, ⟨covered, outside⟩, same⟩

theorem mmapRemove_false (removed : vm.mmapRemove va pages = (next, false)) : vm.Stays next := by
  unfold mmapRemove at removed
  split at removed <;> cases removed
  exact stays_of_sameFiles ok rfl (pruneFiles_sameFiles vm)

omit ok

def reprotect (prot old : Prot) : Prot := prot ||| (old &&& kernelBits)

theorem Covers.reprotect {parts : List MmapRegion} {x : PageEntry} :
    Covers (parts.map fun part => { part with prot := Vm.reprotect prot part.prot }) va x ↔
      ∃ y, Covers parts va y ∧ x = (Vm.reprotect prot y.1, y.2) := by
  constructor
  · rintro ⟨r, member, contains, rfl⟩
    obtain ⟨part, source, rfl⟩ := List.mem_map.mp member
    exact ⟨part.entry va, ⟨part, source, contains, rfl⟩, rfl⟩
  · rintro ⟨y, ⟨part, source, contains, rfl⟩, rfl⟩
    exact ⟨_, List.mem_map_of_mem source, contains, rfl⟩

theorem Laid.reprotect {parts : List MmapRegion} (laid : Laid parts) (prot : Prot) :
    Laid (parts.map fun part => { part with prot := Vm.reprotect prot part.prot }) := by
  refine ⟨List.pairwise_map.mpr laid.sorted, ?_⟩
  intro r member
  obtain ⟨part, source, rfl⟩ := List.mem_map.mp member
  exact ⟨(laid.placed part source).pages, (laid.placed part source).aligned, (laid.placed part source).bounded⟩

theorem mmapSetProt_true (ok : vm.Ok)
    (range : Range va (va + pages * PAGE)) (recorded : vm.mmapSetProt va pages prot = (next, true)) :
    next.Ok ∧ ∀ v p f, next.Maps v p f ↔
      (va ≤ v ∧ v < va + pages * PAGE ∧ ∃ old, vm.Maps v old f ∧ p = reprotect prot old) ∨
        (vm.Maps v p f ∧ ¬(va ≤ v ∧ v < va + pages * PAGE)) := by
  unfold mmapSetProt at recorded
  split at recorded
  · cases recorded
  rename_i mmap parts carved
  have spec := carve_spec ok.laid range carved
  simp only [drop_partitionPoint, take_partitionPoint] at recorded
  split at recorded <;> cases recorded
  rename_i fits
  have laid := spec.laid.splice (Laid.reprotect spec.removedLaid prot) range.nonempty spec.outside (by
    intro r member
    obtain ⟨part, source, rfl⟩ := List.mem_map.mp member
    exact spec.inside part source)
  have covers := fun v x => (coalesce_covers laid v x).trans (Covers.splice _)
  refine ⟨⟨coalesce_laid laid, by simpa using fits, ?_⟩, fun v p f => ?_⟩
  · intro r member named
    have covered : Covers _ r.va (r.entry r.va) :=
      ⟨r, member, ⟨le_rfl, ((coalesce_laid laid).placed r member).va_lt_end⟩, rfl⟩
    rcases (covers _ _).mp covered with ⟨old, source, -, same⟩ | reprotected
    · have file : old.file = r.file := congrArg (fun x => x.2.1) same
      rw [← file]
      exact carve_files ok spec old (.inl source) (by rwa [file])
    obtain ⟨y, ⟨old, source, -, rfl⟩, same⟩ := Covers.reprotect.mp reprotected
    have file : r.file = old.file := congrArg (fun x => x.2.1) same
    rw [file]
    exact carve_files ok spec old (.inr source) (by rwa [← file])
  · have split := covers v
    simp only [Maps]
    constructor
    · rintro ⟨x, covered, rfl, rfl⟩
      rcases (split x).mp covered with covered | covered
      · obtain ⟨old, outside⟩ := (spec.covers v x).mp covered
        exact .inr ⟨⟨x, old, rfl, rfl⟩, outside⟩
      · obtain ⟨y, part, rfl⟩ := Covers.reprotect.mp covered
        obtain ⟨old, lower, upper⟩ := (spec.removedCovers v y).mp part
        exact .inl ⟨lower, upper, y.1, ⟨y, old, rfl, rfl⟩, rfl⟩
    · rintro (⟨lower, upper, old, ⟨y, covered, rfl, rfl⟩, rfl⟩ | ⟨⟨x, covered, rfl, rfl⟩, outside⟩)
      · refine ⟨(reprotect prot y.1, y.2), (split _).mpr (.inr ?_), rfl, rfl⟩
        exact Covers.reprotect.mpr ⟨y, (spec.removedCovers v y).mpr ⟨covered, lower, upper⟩, rfl⟩
      · exact ⟨x, (split x).mpr (.inl ((spec.covers v x).mpr ⟨covered, outside⟩)), rfl, rfl⟩

theorem mmapSetProt_false
    (recorded : vm.mmapSetProt va pages prot = (next, false)) : next = vm := by
  unfold mmapSetProt at recorded
  split at recorded
  · cases recorded
    rfl
  · simp only at recorded
    split at recorded <;> cases recorded
    rfl

end Myos.Task.Vm
