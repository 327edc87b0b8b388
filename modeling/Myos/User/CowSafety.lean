import Myos.User.CowSteps

namespace Myos.User.Memory
open Lib Myos.Task

variable {m : Memory}

variable {aspace dst src : Aspace} {frame : Frame} {leaf : Leaf} {alloc : Option Frame} {va : Va}

variable (accounted : m.Accounted)
include accounted

theorem shareCow_accounted {shared : Leaf}
    (found : m.leaf src va = some leaf) (missing : m.leaf dst va = none)
    (settled : leaf.copy = none) (uncached : m.cache.lookup leaf.phys = none) (memory : leaf.phys ∉ m.device)
    (phys : shared.phys = leaf.phys) (marked : shared.mark = .cow) :
    (((Cow.share m leaf.phys).setLeaf src va shared).setLeaf dst va shared).Accounted := by
  have different : (dst, va) ≠ (src, va) := by
    intro same
    obtain rfl : dst = src := congrArg Prod.fst same
    rw [missing] at found
    cases found
  have unmapped : ((Cow.share m leaf.phys).setLeaf src va shared).leaf dst va = none := by
    rw [← missing]
    exact AList.lookup_insert_ne different
  apply accounted.of_base leaf.phys (fun l => l.addLeaf leaf.mark)
    (fun l => ({ l with count := some (l.count.getD 1 + 1) }.addLeaf .cow).addLeaf .cow) (ledger_of_leaf found)
  · intro other
    have counted := ledger_shared_insert (m := m.unmapUserPage src va) leaf.phys
      ((m.shared.lookup leaf.phys).getD 1 + 1) other
    rw [ledger_setLeaf, unmapUserPage_of_none unmapped, ledger_setLeaf, phys, marked]
    split
    · rename_i same
      subst same
      exact congrArg (fun l => (Ledger.addLeaf l .cow).addLeaf .cow) (counted.trans (if_pos rfl))
    · exact counted.trans (if_neg ‹_›)
  · intro sound
    exact sound.share (leaf.mark_settled settled) uncached (by simpa [ledger, unmapUserPage] using memory)

theorem sharePage_accounted
    (unclaimed : m.Unclaimed src va) (missing : m.leaf dst va = none)
    (memory : ∀ leaf, m.leaf src va = some leaf → leaf.phys ∉ m.device) : (m.sharePage src dst va).Accounted := by
  unfold sharePage
  split
  · exact accounted
  rename_i leaf found
  unfold Pagecache.share
  cases cached : m.cache.lookup leaf.phys with
  | some entry =>
    refine setLeaf_addHand (addMap_addHand accounted cached) missing ?_
    exact (leaf_sound accounted found).bare_of_uncounted (leaf.mark_settled (unclaimed leaf found))
      ((accounted leaf.phys).cached cached).2.1
  | none =>
    have settled := unclaimed leaf found
    exact shareCow_accounted accounted found missing settled cached (memory leaf found) rfl (Leaf.mark_cow settled rfl)

omit accounted in
theorem takeUnmapped_accounted (aspace : Aspace) (accounted : m.Accounted) : (m.takeUnmapped aspace).Accounted := by
  apply accounted.of_ledger
  intro frame
  have split := List.countP_eq_countP_filter_add m.unmapped (fun entry => entry.2 == frame)
    (fun entry => entry.1 == aspace)
  have taken : ((m.unmapped.filter fun entry => entry.1 == aspace).map Prod.snd).count frame =
      (m.unmapped.filter fun entry => entry.1 == aspace).countP fun entry => entry.2 == frame := by
    rw [List.count, List.countP_map]
    rfl
  have rest : (m.unmapped.filter fun entry => !(entry.1 == aspace)) =
      m.unmapped.filter fun entry => entry.1 != aspace := rfl
  simp only [ledger, takeUnmapped, waiting, mapped, List.count_append, taken]
  rw [split, rest]
  congr 1
  omega

theorem dropPage_accounted {entry : CacheFrame}
    (cached : m.cache.lookup frame = some entry) : (Pagecache.dropPage m frame entry).Accounted := by
  unfold Pagecache.dropPage
  split
  · rename_i unmapped
    apply accounted.of_frame frame fun l => { l with cache := none }.addFree
    · intro other
      rw [ledger_freeFrame, ledger_cache_erase]
      split <;> rfl
    · intro sound
      exact sound.freePage cached unmapped
  · rename_i mapped
    apply accounted.of_frame frame (fun l => { l with cache := some { entry with page := none } })
      (ledger_cache_insert frame _)
    intro sound
    exact sound.dropPage cached mapped

theorem setLeaf_device
    (missing : m.leaf aspace va = none) (device : leaf.phys ∈ m.device) (bare : leaf.mark = .bare) :
    (m.setLeaf aspace va leaf).Accounted := by
  apply accounted.of_frame leaf.phys fun l => l.addLeaf .bare
  · intro other
    rw [ledger_setLeaf, unmapUserPage_of_none missing, bare]
  · intro sound
    exact sound.addDevice (by simpa [ledger] using device)

theorem unmapUserPage_device
    (device : ∀ leaf, m.leaf aspace va = some leaf → leaf.phys ∈ m.device) :
    (m.unmapUserPage aspace va).Accounted := by
  cases found : m.leaf aspace va with
  | none => rwa [unmapUserPage_of_none found]
  | some leaf =>
    apply accounted.of_base leaf.phys (fun l => l.addLeaf leaf.mark) id (ledger_of_leaf found)
    · intro other
      exact (ite_self _).symm
    · intro sound
      exact sound.unmapDevice (by simpa [ledger, unmapUserPage] using device leaf found)

theorem bare_of_device
    (found : m.leaf aspace va = some leaf) (settled : leaf.copy = none) (device : leaf.phys ∈ m.device) :
    leaf.mark = .bare := by
  apply (leaf_sound accounted found).bare_of_uncounted (leaf.mark_settled settled)
  exact (accounted leaf.phys).uncounted_of_device (by simpa [ledger] using device)

theorem shareMmapPage_accounted {device shared : Bool}
    (unclaimed : m.Unclaimed src va) (missing : m.leaf dst va = none)
    (kind : ∀ leaf, m.leaf src va = some leaf → (leaf.phys ∈ m.device ↔ device = true)) :
    (m.shareMmapPage src dst va device shared).Accounted := by
  cases device with
  | true =>
    simp only [shareMmapPage, Bool.true_or, if_true]
    split
    · exact accounted
    · rename_i leaf found
      have device := (kind leaf found).mpr rfl
      exact setLeaf_device accounted missing device (bare_of_device accounted found (unclaimed leaf found) device)
  | false =>
    have memory : ∀ leaf, m.leaf src va = some leaf → leaf.phys ∉ m.device := by
      intro leaf found
      simpa using (kind leaf found).not
    have paged := sharePage_accounted accounted unclaimed missing memory
    cases shared with
    | false => exact paged
    | true =>
      simp only [shareMmapPage, Bool.false_or, if_true, Bool.false_eq_true, if_false]
      split
      · exact accounted
      rename_i leaf found
      split
      · rename_i counted
        simpa only [sharePage, found, counted] using paged
      · exact paged

omit accounted in
theorem allocatable_mem (allocated : m.allocatable (some frame) = true) : frame ∈ m.free := by
  simpa [allocatable] using allocated

theorem storeFault_accounted (unclaimed : m.Unclaimed aspace va) : (m.storeFault aspace va).Accounted := by
  unfold storeFault
  split
  · exact accounted
  rename_i leaf found
  split
  · rename_i marked
    exact cowBreak_accounted accounted found (Leaf.mark_cow (unclaimed leaf found) (Bool.and_eq_true_iff.mp marked).1)
  · exact accounted

theorem ownFrame_accounted (unclaimed : m.Unclaimed aspace va) : (m.ownFrame aspace va).Accounted := by
  unfold ownFrame
  split
  · exact accounted
  rename_i leaf found
  split
  · exact cowBreak_accounted accounted found (Leaf.mark_cow (unclaimed leaf found) ‹_›)
  · exact accounted

/-- A frame in someone's hands is in no page table, so whoever gives it back takes it from no one. -/
theorem giveBack_accounted (held : frame ∈ m.hand) : ((m.dropHand frame).releaseFrame frame).Accounted := by
  refine releaseFrame_accounted (dropHand_owe accounted held) (.inl ?_)
  have sound := accounted frame
  rw [ledger_dropHand held, if_pos rfl] at sound
  exact sound.copying_of_hand

omit accounted in
theorem leaf_releaseFrame (frame : Frame) (aspace : Aspace) (va : Va) :
    (m.releaseFrame frame).leaf aspace va = m.leaf aspace va := by
  unfold releaseFrame Pagecache.release Cow.release
  grind [leaf, freeFrame]

omit accounted in
theorem leaf_freeMappedPageLocked (aspace : Aspace) (va : Va) (elsewhere : Bool) :
    (m.freeMappedPageLocked aspace va elsewhere).leaf aspace va = none := by
  unfold freeMappedPageLocked
  split
  · assumption
  · cases elsewhere
    · exact (leaf_releaseFrame ..).trans (leaf_unmapUserPage ..)
    · exact leaf_unmapUserPage ..

omit accounted in
theorem releaseFrame_addHand (frame other : Frame) :
    (m.addHand other).releaseFrame frame = (m.releaseFrame frame).addHand other := by
  unfold releaseFrame Pagecache.release Cow.release
  rw [show (m.addHand other).cache = m.cache from rfl, show (m.addHand other).shared = m.shared from rfl]
  cases m.cache.lookup frame with
  | some entry =>
    by_cases last : entry.maps - 1 = 0 ∧ entry.page = none
    · simp only [if_pos last]
      rfl
    · simp only [if_neg last]
      rfl
  | none =>
    cases m.shared.lookup frame with
    | some n =>
      by_cases last : n - 1 = 0
      · simp only [if_pos last]
        rfl
      · simp only [if_neg last]
        rfl
    | none => rfl

omit accounted in
theorem freeMappedPageLocked_addHand (frame : Frame) (aspace : Aspace) (va : Va) (elsewhere : Bool) :
    (m.addHand frame).freeMappedPageLocked aspace va elsewhere =
      (m.freeMappedPageLocked aspace va elsewhere).addHand frame := by
  unfold freeMappedPageLocked
  have same : (m.addHand frame).leaf aspace va = m.leaf aspace va := rfl
  rw [same]
  split
  · rfl
  · cases elsewhere
    · exact releaseFrame_addHand (m := m.unmapUserPage aspace va) ..
    · rfl

/-- A private page of the cache gives way to one of the region's own. -/
theorem replaceOwn_accounted {elsewhere : Bool} {own : Leaf} (found : m.leaf aspace va = some leaf)
    (settled : leaf.copy = none) (cached : Pagecache.isCached m leaf.phys = true) (available : own.phys ∈ m.free)
    (bare : own.mark = .bare) :
    (((m.takeFrame own.phys).freeMappedPageLocked aspace va elsewhere).setLeaf aspace va own).Accounted := by
  obtain ⟨entry, cached⟩ := Option.isSome_iff_exists.mp cached
  obtain ⟨isMemory, -, spared⟩ := (accounted leaf.phys).cached cached
  have memory : leaf.phys ∉ m.device := by simpa [ledger] using isMemory
  refine setLeaf_addHand ?_ (leaf_freeMappedPageLocked aspace va elsewhere) bare
  rw [← freeMappedPageLocked_addHand]
  have only {other : Leaf} (placed : m.leaf aspace va = some other) : other = leaf := by
    rw [found] at placed
    exact (Option.some.inj placed).symm
  refine freeMappedPageLocked_accounted (takeFrame_addHand accounted available) ?_ ?_ ?_
  · intro other placed
    exact only placed ▸ settled
  · intro other placed
    exact only placed ▸ memory
  · intro _ other placed
    exact only placed ▸ .inl spared

theorem mprotectPage_accounted {write exec sharedFile elsewhere : Bool} {next : Memory}
    (unclaimed : m.Unclaimed aspace va) (allocated : m.allocatable alloc = true)
    (rewritten : m.mprotectPage aspace va write exec sharedFile elsewhere alloc = some next) : next.Accounted := by
  unfold mprotectPage at rewritten
  split at rewritten
  · cases rewritten
    exact accounted
  rename_i leaf found
  have settled := unclaimed leaf found
  by_cases breaks : (leaf.cow && write) = true
  · simp only [breaks, if_true] at rewritten
    simp only [Bool.and_eq_true] at breaks
    have marked := Leaf.mark_cow settled breaks.1
    split at rewritten
    · cases rewritten
      exact claim_shared accounted found marked ‹_› rfl rfl
    · rename_i claimed claim
      obtain ⟨n, counted⟩ := leaf_counted accounted found marked
      have uncached := (congrArg (AList.lookup leaf.phys) (claim_cache claim)).trans (uncached_of_counted accounted counted)
      simp only [Pagecache.isCached, uncached, breaks.1, breaks.2, Option.isSome_none, Bool.and_false,
        Bool.false_and, Bool.false_eq_true, if_false, Option.some.injEq] at rewritten
      subst rewritten
      exact claim_last accounted found marked claim rfl rfl
  · simp only [breaks, Bool.false_eq_true, if_false] at rewritten
    split at rewritten
    · rename_i cachedPrivate
      simp only [Bool.and_eq_true] at cachedPrivate
      obtain ⟨own, rfl, rfl⟩ := Option.map_eq_some_iff.mp rewritten
      refine replaceOwn_accounted accounted found settled cachedPrivate.1.2 (allocatable_mem allocated) ?_
      simp [Leaf.mark, cachedPrivate.1.1]
    · cases rewritten
      refine setLeaf_same accounted found rfl ?_
      cases write <;> simp_all [Leaf.mark]

end Myos.User.Memory
