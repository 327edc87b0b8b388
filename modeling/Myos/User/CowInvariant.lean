import Myos.User.CowSafety

namespace Myos.User.Memory
open Lib Myos.Task

variable {m : Memory}

theorem free_releaseFrame {frame other : Frame} (available : other ∈ m.free) :
    other ∈ (m.releaseFrame frame).free := by
  unfold releaseFrame Pagecache.release Cow.release
  grind [freeFrame]

variable {aspace : Aspace} {fresh : Option Frame} {va : Va}

theorem dropFresh_accounted (accounted : m.Accounted)
    (held : ∀ frame, fresh = some frame → frame ∈ m.hand) : (m.dropFresh fresh).Accounted := by
  cases fresh with
  | none => exact accounted
  | some frame => exact giveBack_accounted accounted (held frame rfl)

theorem free_dropFresh {frame : Frame} (available : frame ∈ m.free) :
    frame ∈ (m.dropFresh fresh).free := by
  cases fresh with
  | none => exact available
  | some fresh => exact free_releaseFrame available

theorem leaf_dropFresh (fresh : Option Frame) (aspace : Aspace) (va : Va) :
    (m.dropFresh fresh).leaf aspace va = m.leaf aspace va := by
  cases fresh with
  | none => rfl
  | some frame => exact leaf_releaseFrame ..

theorem placePage_of_none (file shared write exec : Bool) (frame : Frame)
    (missing : m.leaf aspace va = none) :
    ∃ writable, m.placePage aspace va file shared write exec frame =
      m.setLeaf aspace va ⟨frame, writable, exec, false, false, none⟩ := by
  simp only [placePage, missing, Option.any_none]
  exact ⟨_, rfl⟩

theorem placePage_accounted {leaf : Leaf} (file shared write exec : Bool) (accounted : m.Accounted)
    (found : m.leaf aspace va = some leaf) (settled : leaf.copy = none) :
    (m.placePage aspace va file shared write exec leaf.phys).Accounted :=
  setLeaf_same accounted found rfl (by simp [Leaf.mark, found, settled])

theorem faultInLocked_accounted {store file shared write exec elsewhere : Bool} {alloc : Option Frame}
    (accounted : m.Accounted) (unclaimed : m.Unclaimed aspace va)
    (held : ∀ frame, fresh = some frame → frame ∈ m.hand) (allocated : ∀ own, alloc = some own → own ∈ m.free) :
    (m.faultInLocked aspace va store file shared write exec elsewhere fresh alloc).Accounted := by
  unfold faultInLocked
  split
  · rename_i leaf found
    have dropped := dropFresh_accounted accounted held
    have kept : (m.dropFresh fresh).leaf aspace va = some leaf := (leaf_dropFresh ..).trans found
    dsimp only
    split
    · rename_i cachedPrivate
      simp only [Bool.and_eq_true] at cachedPrivate
      cases alloc with
      | none => exact dropped
      | some own =>
        obtain ⟨writable, placed⟩ := placePage_of_none file shared write exec own
          (leaf_freeMappedPageLocked (m := (m.dropFresh fresh).takeFrame own) aspace va elsewhere)
        dsimp only
        rw [placed]
        exact replaceOwn_accounted dropped kept (unclaimed leaf found) cachedPrivate.1.1.2
          (free_dropFresh (allocated own rfl)) rfl
    · exact placePage_accounted file shared write exec dropped kept (unclaimed leaf found)
  · rename_i missing
    cases fresh with
    | none => exact accounted
    | some frame =>
      have absent : (m.dropHand frame).leaf aspace va = none := missing
      obtain ⟨writable, placed⟩ := placePage_of_none file shared write exec frame absent
      dsimp only [dropHand] at placed ⊢
      rw [placed]
      exact setLeaf_hand accounted missing (held frame rfl) rfl

theorem freeUserPageTables_of_empty
    (empty : m.meets (.freeUserPageTables aspace) = true) : m.freeUserPageTables aspace = m := by
  have orphans : m.leaves.entries.filter (fun entry => entry.1.1 == aspace) = [] := by
    rw [List.filter_eq_nil_iff]
    intro entry member
    simpa using List.all_eq_true.mp empty entry member
  simp only [freeUserPageTables, orphans, List.foldl_nil, List.map_nil, List.nil_append]

theorem boot_accounted (boot : m.Boot) : m.Accounted := by
  obtain ⟨leaves, shared, unmapped, taken, hand, cache, nodup, disjoint⟩ := boot
  intro frame
  have free : m.free.count frame ≤ 1 := List.nodup_iff_count_le_one.mp nodup frame
  have missing (mark : Mark) : m.mapped mark frame = 0 := by
    rw [mapped, leaves]
    rfl
  simp only [ledger, Ledger.Sound, missing, waiting, shared, unmapped, taken, hand, cache, AList.lookup_empty,
    List.countP_nil, List.count_nil, List.contains_eq_mem]
  by_cases device : frame ∈ m.device
  · have absent : frame ∉ m.free := fun available => disjoint available device
    simp [device, List.count_eq_zero_of_not_mem absent]
  · simp [device, free]

theorem all_leaf {check : Leaf → Bool}
    (checked : (m.leaf aspace va).all check = true) (leaf : Leaf) (found : m.leaf aspace va = some leaf) :
    check leaf = true := by
  simpa [found] using checked

theorem Spares.of_spares {frame : Frame} (spared : m.spares frame = true) : m.Spares frame := by
  simp only [spares, copies, Bool.or_eq_true, decide_eq_true_eq, Bool.not_eq_true', List.any_eq_false] at spared
  refine spared.symm.imp_left fun settled => ?_
  refine Table.count_eq_zero_iff.mpr fun key leaf found => ?_
  have copying := settled ⟨key, leaf⟩ (AList.mem_lookup_iff.mp found)
  cases begun : leaf.copy with
  | none => simp [leaf.mark_settled begun]
  | some copy => simpa [Leaf.mark, begun] using copying

namespace Accounted

variable {next : Memory} {frame : Frame} (accounted : m.Accounted)
include accounted

theorem cacheMap {page : Node × Nat} (performed : m.perform (.cacheMap frame page) = some next) : next.Accounted := by
  simp only [perform] at performed
  split at performed
  · obtain ⟨-, ⟨⟩⟩ := Option.ite_none_right_eq_some.mp performed
    exact addMap_addHand accounted ‹_›
  · obtain ⟨fresh, ⟨⟩⟩ := Option.ite_none_right_eq_some.mp performed
    exact cacheNew_addHand page accounted fresh.1 ‹_›

theorem faultInLocked {store file shared write exec elsewhere : Bool} {fresh alloc : Option Frame}
    (unclaimed : m.Unclaimed aspace va)
    (performed : m.perform (.faultInLocked aspace va store file shared write exec elsewhere fresh alloc) = some next) :
    next.Accounted := by
  obtain ⟨given, ⟨⟩⟩ := Option.ite_none_right_eq_some.mp performed
  rw [Bool.and_eq_true] at given
  refine faultInLocked_accounted accounted unclaimed ?_ ?_
  · rintro frame rfl
    simpa using given.1
  · rintro own rfl
    exact allocatable_mem given.2

theorem faultAround {exec : Bool} (performed : m.perform (.faultAround aspace va frame exec) = some next) :
    next.Accounted := by
  simp only [perform] at performed
  split at performed
  · obtain ⟨fresh, ⟨⟩⟩ := Option.ite_none_right_eq_some.mp performed
    exact setLeaf_addHand (addMap_addHand accounted ‹_›) fresh.2 rfl
  · cases performed

theorem sharePage {src dst : Aspace} (unclaimed : m.Unclaimed src va) (met : m.meets (.sharePage src dst va) = true) :
    (m.sharePage src dst va).Accounted := by
  simp only [meets, Bool.and_eq_true, Option.isNone_iff_eq_none] at met
  refine sharePage_accounted accounted unclaimed met.1 fun leaf found => ?_
  simpa using all_leaf met.2 leaf found

theorem shareMmapPage {src dst : Aspace} {device shared : Bool} (unclaimed : m.Unclaimed src va)
    (met : m.meets (.shareMmapPage src dst va device shared) = true) :
    (m.shareMmapPage src dst va device shared).Accounted := by
  simp only [meets, Bool.and_eq_true, Option.isNone_iff_eq_none] at met
  refine shareMmapPage_accounted accounted unclaimed met.1 fun leaf found => ?_
  have kind := all_leaf met.2 leaf found
  rw [beq_iff_eq] at kind
  rw [← kind, List.contains_iff_mem]

theorem finishCopy {alloc : Option Frame} (met : m.meets (.finishCopy aspace va alloc) = true)
    (performed : m.perform (.finishCopy aspace va alloc) = some next) : next.Accounted := by
  obtain ⟨own, rfl⟩ := Option.isSome_iff_exists.mp met
  simp only [perform] at performed
  split at performed
  · rename_i leaf found
    split at performed
    · rename_i copy begun
      obtain ⟨allocated, finished⟩ := Option.ite_none_right_eq_some.mp performed
      exact finishCopy_accounted accounted found (by simp [Leaf.mark, begun]) (allocatable_mem allocated) finished
    · cases performed
  · cases performed

theorem freeMappedPage {elsewhere : Bool} (unclaimed : m.Unclaimed aspace va)
    (met : m.meets (.freeMappedPage aspace va elsewhere) = true) :
    (m.freeMappedPageLocked aspace va elsewhere).Accounted := by
  refine freeMappedPageLocked_accounted accounted unclaimed (fun leaf found => ?_) (fun here leaf found => ?_)
  · simpa using (Bool.and_eq_true_iff.mp (all_leaf met leaf found)).1
  · exact .of_spares (by simpa [here] using (Bool.and_eq_true_iff.mp (all_leaf met leaf found)).2)

theorem releaseMmapPage {device elsewhere : Bool} (unclaimed : m.Unclaimed aspace va)
    (met : m.meets (.releaseMmapPage aspace va device elsewhere) = true) :
    (m.releaseMmapPage aspace va device elsewhere).Accounted := by
  cases device with
  | true =>
    refine unmapUserPage_device accounted fun leaf found => ?_
    simpa using (Bool.and_eq_true_iff.mp (all_leaf met leaf found)).1
  | false => exact accounted.freeMappedPage unclaimed (by simpa [meets] using met)

theorem releaseTaken (met : m.meets (.releaseTaken frame) = true)
    (performed : m.perform (.releaseTaken frame) = some next) : next.Accounted := by
  obtain ⟨taken, ⟨⟩⟩ := Option.ite_none_right_eq_some.mp performed
  refine releaseFrame_accounted (accounted.of_ledger fun other => ?_) (Spares.of_spares met)
  have same := (List.perm_cons_erase taken).count_eq other
  simp only [ledger, owe, waiting, mapped, same]

theorem dropPage (performed : m.perform (.dropPage frame) = some next) : next.Accounted := by
  simp only [perform] at performed
  split at performed
  · obtain ⟨-, ⟨⟩⟩ := Option.ite_none_right_eq_some.mp performed
    exact dropPage_accounted accounted ‹_›
  · cases performed

theorem evict (performed : m.perform (.evict frame) = some next) : next.Accounted := by
  simp only [perform] at performed
  split at performed
  · rename_i entry cached
    obtain ⟨unmapped, ⟨⟩⟩ := Option.ite_none_right_eq_some.mp performed
    have dropped := dropPage_accounted accounted cached
    rwa [Pagecache.dropPage, if_pos unmapped.2] at dropped
  · cases performed

theorem perform {event : CowEvent} (unclaimed : ∀ entry ∈ event.entries, m.Unclaimed entry.1 entry.2)
    (met : m.meets event = true) (performed : m.perform event = some next) : next.Accounted := by
  cases event with
  | allocFrame frame =>
    obtain ⟨available, ⟨⟩⟩ := Option.ite_none_right_eq_some.mp performed
    exact takeFrame_addHand accounted available
  | cacheMap => exact accounted.cacheMap performed
  | giveBack frame =>
    obtain ⟨held, ⟨⟩⟩ := Option.ite_none_right_eq_some.mp performed
    exact giveBack_accounted accounted held
  | mapUserPage aspace va frame write exec =>
    obtain ⟨fresh, ⟨⟩⟩ := Option.ite_none_right_eq_some.mp performed
    exact setLeaf_addHand (takeFrame_addHand accounted fresh.1) fresh.2 rfl
  | mapDevicePage aspace va frame write =>
    obtain ⟨device, ⟨⟩⟩ := Option.ite_none_right_eq_some.mp performed
    exact setLeaf_device accounted device.2 device.1 rfl
  | faultInLocked => exact accounted.faultInLocked (unclaimed _ (.head _)) performed
  | faultAround => exact accounted.faultAround performed
  | storeFault aspace va =>
    cases performed
    exact storeFault_accounted accounted (unclaimed _ (.head _))
  | mprotectPage aspace va write exec sharedFile elsewhere alloc =>
    obtain ⟨allocated, rewritten⟩ := Option.ite_none_right_eq_some.mp performed
    exact mprotectPage_accounted accounted (unclaimed _ (.head _)) allocated rewritten
  | sharePage src dst va =>
    cases performed
    exact accounted.sharePage (unclaimed _ (.head _)) met
  | shareMmapPage src dst va device shared =>
    cases performed
    exact accounted.shareMmapPage (unclaimed _ (.head _)) met
  | ownFrame aspace va =>
    cases performed
    exact ownFrame_accounted accounted (unclaimed _ (.head _))
  | finishCopy => exact accounted.finishCopy met performed
  | freeMappedPage aspace va elsewhere =>
    cases performed
    exact accounted.freeMappedPage (unclaimed _ (.head _)) met
  | releaseMmapPage aspace va device elsewhere =>
    cases performed
    exact accounted.releaseMmapPage (unclaimed _ (.head _)) met
  | takeUnmapped aspace =>
    cases performed
    exact takeUnmapped_accounted aspace accounted
  | releaseTaken => exact accounted.releaseTaken met performed
  | dropPage => exact accounted.dropPage performed
  | evict => exact accounted.evict performed
  | freeUserPageTables aspace =>
    obtain ⟨-, ⟨⟩⟩ := Option.ite_none_right_eq_some.mp performed
    rwa [freeUserPageTables_of_empty met]

theorem step {event : CowEvent} (met : m.meets event = true) (stepped : m.step event = some next) :
    next.Accounted := by
  obtain ⟨possible, performed⟩ := Option.ite_none_left_eq_some.mp stepped
  refine accounted.perform (fun entry member leaf found => ?_) met performed
  simp only [Bool.or_eq_true, not_or, List.any_eq_true, not_exists, not_and, Bool.not_eq_true] at possible
  simpa [found] using possible.2 entry member

end Accounted

/-- For a frame that forks share, or that waits to be released: what `cow.rs` counts, one when it counts
nothing, is what the page tables, but for the entries `claim` has counted out, and the deferred releases hold. -/
def CountsMatch (m : Memory) : Prop :=
  ∀ frame, ((m.shared.lookup frame).isSome ∨ 0 < m.mapped .cow frame ∨
      (Pagecache.isCached m frame = false ∧ 0 < m.waiting frame)) →
    (m.shared.lookup frame).getD 1 = m.mapped .cow frame + m.waiting frame

/-- No page-table entry maps a free frame, one whose copy is unfinished neither. -/
def FreeUnmapped (m : Memory) : Prop :=
  ∀ frame ∈ m.free, ∀ aspace va leaf, m.leaf aspace va = some leaf → leaf.phys ≠ frame

theorem Accounted.countsMatch (accounted : m.Accounted) : m.CountsMatch := by
  intro frame tracked
  have sound := accounted frame
  rcases tracked with counted | marked | ⟨uncached, waits⟩
  · exact sound.count_eq_of_counted counted
  · exact sound.count_eq_of_counted (sound.counted_of_cow marked)
  · have uncached : m.cache.lookup frame = none := by simpa [Pagecache.isCached] using uncached
    exact sound.count_eq_of_waiting uncached waits

theorem Accounted.freeUnmapped (accounted : m.Accounted) : m.FreeUnmapped := by
  rintro frame available aspace va leaf found rfl
  have sound := accounted leaf.phys
  rw [ledger_takeFrame available, if_pos rfl] at sound
  have unmapped : m.mapped leaf.mark leaf.phys = 0 := by
    obtain ⟨cow, bare, copying⟩ := sound.unmapped_of_free
    cases leaf.mark <;> assumption
  have apart := Table.count_eq_zero_iff.mp unmapped (aspace, va) leaf found
  simp at apart

theorem reach_countsMatch_freeUnmapped
    (reachable : system.Reach (fun m event => m.meets event = true) m) :
    m.CountsMatch ∧ m.FreeUnmapped := by
  have accounted : m.Accounted := reachable.invariant (fun _ boot => boot_accounted boot)
    (fun _ _ _ accounted met stepped => accounted.step met stepped)
  exact ⟨accounted.countsMatch, accounted.freeUnmapped⟩

def bootWith (frames : List Frame) : Memory := ⟨∅, ∅, [], [], [], ∅, frames, []⟩

theorem bootWith_boot {frames : List Frame} (nodup : frames.Nodup) : (bootWith frames).Boot :=
  ⟨rfl, rfl, rfl, rfl, rfl, rfl, nodup, fun _ _ device => nomatch device⟩

def forkedStore (alloc : Option Frame) : List CowEvent :=
  [.mapUserPage 10 0 1 true false, .sharePage 10 11 0, .storeFault 10 0, .finishCopy 10 0 alloc]

def forkedExit : List CowEvent :=
  forkedStore (some 2) ++ [.freeMappedPage 11 0 true, .takeUnmapped 11, .releaseTaken 1]

theorem reach_countsMatch_freeUnmapped_forkedExit :
    ∃ m, system.runMeeting (fun m event => m.meets event = true) (bootWith [1, 2, 3]) forkedExit = some m ∧
      m.CountsMatch ∧ m.FreeUnmapped := by
  have booted : system.Reach (fun m event => m.meets event = true) (bootWith [1, 2, 3]) :=
    .start (bootWith_boot (by decide))
  exact ⟨_, rfl, reach_countsMatch_freeUnmapped (booted.runMeeting forkedExit rfl)⟩

/-- The child's mapping waits for its flush while the parent stores, and is released before the copy is there. -/
def racedStore : List CowEvent :=
  [.mapUserPage 10 0 1 true false, .sharePage 10 11 0, .freeMappedPage 11 0 true, .takeUnmapped 11, .storeFault 10 0,
    .releaseTaken 1]

/-- A store that finds no frame counts its mapping out and keeps it: the count is one too low, and the
other process's exit frees the page under it. With frames to spare a deferred release does so before the copy. -/
theorem outOfMemory_uncounts_mapping :
    ¬(∀ m, system.Reach System.Any m → m.CountsMatch) ∧ ¬(∀ m, system.Reach System.Any m → m.FreeUnmapped) ∧
      ∃ m, system.run (bootWith [1, 2, 3]) racedStore = some m ∧ 2 ∈ m.free ∧ ¬m.FreeUnmapped := by
  have booted : system.Reach System.Any (bootWith [1, 2, 3]) := .start (bootWith_boot (by decide))
  refine ⟨fun counts => ?_, fun unmapped => ?_, _, rfl, by decide, fun unmapped => ?_⟩
  · have wrong := counts _ (booted.run (forkedStore none) rfl) 1 (.inl rfl)
    exact absurd wrong (by decide)
  · have wrong := (unmapped _ (booted.run (forkedStore none ++ [.freeMappedPage 11 0 false]) rfl) 1 (by decide))
      10 0 ⟨1, false, false, true, true, none⟩ rfl
    exact wrong rfl
  · exact unmapped 1 (by decide) 10 0 _ rfl rfl

end Myos.User.Memory
