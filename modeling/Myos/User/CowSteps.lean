import Myos.User.CowAccount

namespace Myos.User.Memory
open Lib Myos.Task

variable {m : Memory}

variable {aspace : Aspace} {frame : Frame} {leaf : Leaf} {after before claimed next : Memory} {va : Va}

theorem Accounted.of_base {base : Frame → Ledger} (accounted : before.Accounted)
    (frame : Frame) (was is : Ledger → Ledger)
    (ledgerBefore : ∀ other, before.ledger other = if other = frame then was (base other) else base other)
    (ledgerAfter : ∀ other, after.ledger other = if other = frame then is (base other) else base other)
    (own : (was (base frame)).Sound → (is (base frame)).Sound) : after.Accounted := by
  intro other
  have sound := accounted other
  rw [ledgerBefore] at sound
  rw [ledgerAfter]
  split at sound
  · subst other
    simp only [if_true]
    exact own sound
  · simp only [*, if_false]

theorem Accounted.of_frame (accounted : before.Accounted) (frame : Frame)
    (is : Ledger → Ledger)
    (ledgerAfter : ∀ other, after.ledger other =
      if other = frame then is (before.ledger other) else before.ledger other)
    (own : (before.ledger frame).Sound → (is (before.ledger frame)).Sound) : after.Accounted :=
  accounted.of_base frame id is (fun other => (ite_self (before.ledger other)).symm) ledgerAfter own

theorem Accounted.of_ledger (accounted : before.Accounted)
    (same : ∀ frame, after.ledger frame = before.ledger frame) : after.Accounted := by
  intro frame
  rw [same]
  exact accounted frame

theorem takeFrame_addHand (accounted : m.Accounted) (available : frame ∈ m.free) :
    ((m.takeFrame frame).addHand frame).Accounted :=
  accounted.of_base frame _ _ (ledger_takeFrame available) (ledger_addHand frame) Ledger.Sound.takeHand

theorem dropHand_owe (accounted : m.Accounted) (held : frame ∈ m.hand) :
    ((m.dropHand frame).owe frame).Accounted :=
  accounted.of_base frame _ _ (ledger_dropHand held) (ledger_owe frame) Ledger.Sound.dropHand

theorem addMap_addHand {entry : CacheFrame} (accounted : m.Accounted)
    (cached : m.cache.lookup frame = some entry) : ((Pagecache.addMap m frame entry).addHand frame).Accounted := by
  apply accounted.of_frame frame fun l => { l with cache := some { entry with maps := entry.maps + 1 } }.addHand
  · intro other
    rw [ledger_addHand, Pagecache.addMap, ledger_cache_insert]
    split <;> rfl
  · intro sound
    exact sound.addMap cached

theorem cacheNew_addHand (page : Node × Nat) (accounted : m.Accounted)
    (available : frame ∈ m.free) (uncached : m.cache.lookup frame = none) :
    (addHand { m.takeFrame frame with cache := m.cache.insert frame ⟨1, some page⟩ } frame).Accounted := by
  apply accounted.of_base frame _ (fun l => { l with cache := some ⟨1, some page⟩ }.addHand) (ledger_takeFrame available)
  · intro other
    rw [ledger_addHand]
    split
    · rename_i same
      exact congrArg Ledger.addHand ((ledger_cache_insert frame ⟨1, some page⟩ other).trans (if_pos same))
    · rename_i different
      exact (ledger_cache_insert frame ⟨1, some page⟩ other).trans (if_neg different)
  · intro sound
    exact sound.newCached uncached page

theorem freeFrame_accounted (accounted : (m.owe frame).Accounted) (uncached : m.cache.lookup frame = none)
    (uncounted : m.shared.lookup frame = none) (spared : m.mapped .copying frame = 0) : (m.freeFrame frame).Accounted :=
  accounted.of_base frame _ _ (ledger_owe frame) (ledger_freeFrame frame) (·.addFree uncounted uncached spared)

/-- Either no unfinished copy has the frame mapped, or a release is not its last. -/
def Spares (m : Memory) (frame : Frame) : Prop :=
  m.mapped .copying frame = 0 ∨ 1 < (m.shared.lookup frame).getD 1

theorem pagecacheRelease_accounted (accounted : (m.owe frame).Accounted)
    (released : Pagecache.release m frame = some next) : next.Accounted := by
  unfold Pagecache.release at released
  split at released
  · cases released
  rename_i entry cached
  split at released <;> cases released
  · rename_i last
    apply accounted.of_base frame _ (fun l => { l with cache := none }.addFree) (ledger_owe frame)
    · intro other
      rw [ledger_freeFrame, ledger_cache_erase]
      split <;> rfl
    · intro sound
      exact sound.freeCached cached last.1
  · rename_i stays
    apply accounted.of_base frame _ (fun l => { l with cache := some { entry with maps := entry.maps - 1 } })
      (ledger_owe frame) (ledger_cache_insert frame _)
    intro sound
    exact sound.releaseCached cached stays

theorem cowRelease_accounted (accounted : (m.owe frame).Accounted) (spared : m.Spares frame)
    (released : Cow.release m frame = some next) : next.Accounted := by
  unfold Cow.release at released
  split at released
  · cases released
  rename_i n counted
  split at released <;> cases released
  · rename_i last
    apply accounted.of_base frame _ (fun l => { l with count := none }.addFree) (ledger_owe frame)
    · intro other
      rw [ledger_freeFrame, ledger_shared_erase]
      split <;> rfl
    · intro sound
      rw [Spares, counted, Option.getD_some] at spared
      exact sound.freeShared counted last (spared.resolve_right (by omega))
  · rename_i stays
    apply accounted.of_base frame _ (fun l => { l with count := some (n - 1) }) (ledger_owe frame)
      (ledger_shared_insert frame _)
    intro sound
    exact sound.releaseShared counted stays

theorem releaseFrame_accounted (accounted : (m.owe frame).Accounted) (spared : m.Spares frame) :
    (m.releaseFrame frame).Accounted := by
  unfold releaseFrame
  split
  · exact pagecacheRelease_accounted accounted ‹_›
  rename_i uncached
  split
  · exact cowRelease_accounted accounted spared ‹_›
  rename_i unshared
  have uncounted : m.shared.lookup frame = none := by
    unfold Cow.release at unshared
    grind
  rw [Spares, uncounted] at spared
  refine freeFrame_accounted accounted ?_ uncounted (spared.resolve_right (Nat.lt_irrefl 1))
  unfold Pagecache.release at uncached
  grind

/-- No copy of the page is under way. -/
def Unclaimed (m : Memory) (aspace : Aspace) (va : Va) : Prop := ∀ leaf, m.leaf aspace va = some leaf → leaf.copy = none

theorem Spares.unmap (spared : m.Spares frame) :
    (m.unmapUserPage aspace va).Spares frame := by
  refine spared.imp_left fun unmapped => ?_
  have erased := Table.count_erase m.leaves (fun _ leaf => leaf.phys == frame && leaf.mark == .copying) (aspace, va)
  simp only [mapped, unmapUserPage] at unmapped ⊢
  omega

variable (accounted : m.Accounted)
include accounted

theorem unmapUserPage_owe
    (found : m.leaf aspace va = some leaf) (settled : leaf.copy = none) (memory : leaf.phys ∉ m.device) :
    ((m.unmapUserPage aspace va).owe leaf.phys).Accounted := by
  apply accounted.of_base leaf.phys (fun l => l.addLeaf leaf.mark) _ (ledger_of_leaf found) (ledger_owe leaf.phys)
  intro sound
  exact sound.unmap (leaf.mark_settled settled) (by simpa [ledger, unmapUserPage] using memory)

theorem freeMappedPageLocked_accounted {elsewhere : Bool} (unclaimed : m.Unclaimed aspace va)
    (memory : ∀ leaf, m.leaf aspace va = some leaf → leaf.phys ∉ m.device)
    (spared : elsewhere = false → ∀ leaf, m.leaf aspace va = some leaf → m.Spares leaf.phys) :
    (m.freeMappedPageLocked aspace va elsewhere).Accounted := by
  unfold freeMappedPageLocked
  split
  · exact accounted
  rename_i leaf found
  have owed := unmapUserPage_owe accounted found (unclaimed leaf found) (memory leaf found)
  cases elsewhere with
  | false => exact releaseFrame_accounted owed (spared rfl leaf found).unmap
  | true =>
    apply owed.of_ledger
    intro frame
    simp only [ledger, owe, waiting, mapped, if_true, List.countP_append, List.countP_singleton,
      List.count_cons]
    congr 1
    omega

theorem setLeaf_same {next : Leaf}
    (found : m.leaf aspace va = some leaf) (phys : next.phys = leaf.phys) (mark : next.mark = leaf.mark) :
    (m.setLeaf aspace va next).Accounted := by
  apply accounted.of_ledger
  intro frame
  rw [ledger_setLeaf, ledger_of_leaf found, phys, mark]

theorem setLeaf_hand
    (missing : m.leaf aspace va = none) (held : leaf.phys ∈ m.hand) (bare : leaf.mark = .bare) :
    ((m.dropHand leaf.phys).setLeaf aspace va leaf).Accounted := by
  apply accounted.of_base leaf.phys _ (fun l => l.addLeaf .bare) (ledger_dropHand held)
  · intro other
    have absent : (m.dropHand leaf.phys).leaf aspace va = none := missing
    rw [ledger_setLeaf, unmapUserPage_of_none absent, bare]
  · exact Ledger.Sound.placeHand

omit accounted in
@[simp] theorem leaf_unmapUserPage (aspace : Aspace) (va : Va) :
    (m.unmapUserPage aspace va).leaf aspace va = none :=
  AList.lookup_erase _ _

omit accounted in
theorem setLeaf_addHand (accounted : (m.addHand leaf.phys).Accounted)
    (missing : m.leaf aspace va = none) (bare : leaf.mark = .bare) : (m.setLeaf aspace va leaf).Accounted := by
  have placed := setLeaf_hand accounted missing (.head _) bare
  simpa only [dropHand, addHand, List.erase_cons_head] using placed

omit accounted in
theorem setLeaf_own (accounted : (m.unmapUserPage aspace va).Accounted)
    (available : leaf.phys ∈ m.free) (bare : leaf.mark = .bare) :
    ((m.takeFrame leaf.phys).setLeaf aspace va leaf).Accounted := by
  have placed : (((m.unmapUserPage aspace va).takeFrame leaf.phys).setLeaf aspace va leaf).Accounted :=
    setLeaf_addHand (takeFrame_addHand accounted available) (leaf_unmapUserPage aspace va) bare
  apply placed.of_ledger
  intro frame
  have unmapped : ((m.unmapUserPage aspace va).takeFrame leaf.phys).leaf aspace va = none :=
    leaf_unmapUserPage aspace va
  rw [ledger_setLeaf, ledger_setLeaf, unmapUserPage_of_none unmapped]
  rfl

theorem leaf_sound
    (found : m.leaf aspace va = some leaf) :
    (((m.unmapUserPage aspace va).ledger leaf.phys).addLeaf leaf.mark).Sound := by
  have sound := accounted leaf.phys
  rwa [ledger_of_leaf found, if_pos rfl] at sound

theorem leaf_counted
    (found : m.leaf aspace va = some leaf) (marked : leaf.mark = .cow) :
    ∃ n, m.shared.lookup leaf.phys = some n := by
  have sound := leaf_sound accounted found
  rw [marked] at sound
  exact sound.counted

theorem claim_last {next : Leaf}
    (found : m.leaf aspace va = some leaf) (marked : leaf.mark = .cow)
    (claim : Cow.claim m leaf.phys = (true, claimed)) (phys : next.phys = leaf.phys) (bare : next.mark = .bare) :
    (claimed.setLeaf aspace va next).Accounted := by
  obtain ⟨n, counted⟩ := leaf_counted accounted found marked
  simp only [Cow.claim, counted] at claim
  split at claim <;> cases claim
  rename_i last
  apply accounted.of_base leaf.phys (fun l => l.addLeaf leaf.mark) (fun l => { l with count := none }.addLeaf .bare)
    (ledger_of_leaf found)
  · intro other
    rw [ledger_setLeaf, phys, bare]
    have erased := ledger_shared_erase (m := m.unmapUserPage aspace va) leaf.phys other
    split
    · exact congrArg (Ledger.addLeaf · .bare) (erased.trans (if_pos ‹_›))
    · exact erased.trans (if_neg ‹_›)
  · rw [marked]
    intro sound
    exact sound.claimLast counted last

theorem claim_shared {next : Leaf}
    (found : m.leaf aspace va = some leaf) (marked : leaf.mark = .cow)
    (claim : Cow.claim m leaf.phys = (false, claimed)) (phys : next.phys = leaf.phys) (copying : next.mark = .copying) :
    (claimed.setLeaf aspace va next).Accounted := by
  unfold Cow.claim at claim
  split at claim
  · cases claim
  rename_i n counted
  split at claim <;> cases claim
  apply accounted.of_base leaf.phys (fun l => l.addLeaf leaf.mark)
    (fun l => { l with count := some (n - 1) }.addLeaf .copying) (ledger_of_leaf found)
  · intro other
    rw [ledger_setLeaf, phys, copying]
    have counts := ledger_shared_insert (m := m.unmapUserPage aspace va) leaf.phys (n - 1) other
    split
    · exact congrArg (Ledger.addLeaf · .copying) (counts.trans (if_pos ‹_›))
    · exact counts.trans (if_neg ‹_›)
  · rw [marked]
    intro sound
    exact sound.claimShared counted (by omega)

theorem cowBreak_accounted {copy : Copy} (found : m.leaf aspace va = some leaf) (marked : leaf.mark = .cow) :
    (m.cowBreak aspace va leaf copy).Accounted := by
  unfold cowBreak
  split
  · exact claim_last accounted found marked ‹_› rfl rfl
  · exact claim_shared accounted found marked ‹_› rfl rfl

theorem finishCopy_accounted {copy : Copy} (found : m.leaf aspace va = some leaf) (copying : leaf.mark = .copying)
    (available : frame ∈ m.free) (finished : m.finishCopy aspace va leaf copy (some frame) = some next) :
    next.Accounted := by
  cases finished
  apply setLeaf_own _ available rfl
  apply accounted.of_base leaf.phys (fun l => l.addLeaf leaf.mark) id (ledger_of_leaf found)
  · intro other
    exact (ite_self _).symm
  · rw [copying]
    exact Ledger.Sound.finishCopy

theorem uncached_of_counted {n : Nat}
    (counted : m.shared.lookup frame = some n) : m.cache.lookup frame = none := by
  cases cached : m.cache.lookup frame with
  | none => rfl
  | some entry =>
    have uncounted : m.shared.lookup frame = none := ((accounted frame).cached cached).2.1
    rw [uncounted] at counted
    cases counted

omit accounted in
theorem claim_cache {taken : Bool}
    (claim : Cow.claim m frame = (taken, claimed)) : claimed.cache = m.cache := by
  unfold Cow.claim at claim
  split at claim
  · cases claim
    rfl
  · split at claim <;> cases claim <;> rfl

end Myos.User.Memory
