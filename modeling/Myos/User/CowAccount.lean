import Myos.User.CowLedger

namespace Myos.User.Memory
open Lib

variable {m : Memory}

def mapped (m : Memory) (mark : Mark) (frame : Frame) : Nat :=
  m.leaves.count fun _ leaf => leaf.phys == frame && leaf.mark == mark

def waiting (m : Memory) (frame : Frame) : Nat :=
  m.unmapped.countP (fun entry => entry.2 == frame) + m.taken.count frame

def ledger (m : Memory) (frame : Frame) : Ledger :=
  ⟨m.shared.lookup frame, m.cache.lookup frame, m.device.contains frame, m.mapped .cow frame, m.mapped .bare frame,
    m.mapped .copying frame, m.waiting frame, m.hand.count frame, m.free.count frame⟩

def Accounted (m : Memory) : Prop := ∀ frame, (m.ledger frame).Sound

def owe (m : Memory) (frame : Frame) : Memory := { m with taken := frame :: m.taken }

def addHand (m : Memory) (frame : Frame) : Memory := { m with hand := frame :: m.hand }

def dropHand (m : Memory) (frame : Frame) : Memory := { m with hand := m.hand.erase frame }

theorem ledger_freeFrame (frame other : Frame) :
    (m.freeFrame frame).ledger other = if other = frame then (m.ledger other).addFree else m.ledger other := by
  split
  · subst other
    simp [ledger, freeFrame, Ledger.addFree, mapped, waiting]
  · simp [ledger, freeFrame, mapped, waiting, List.count_cons_of_ne (Ne.symm ‹_›)]

theorem ledger_takeFrame {frame : Frame} (available : frame ∈ m.free) (other : Frame) :
    m.ledger other =
      if other = frame then ((m.takeFrame frame).ledger other).addFree else (m.takeFrame frame).ledger other := by
  split
  · subst other
    have := List.count_pos_iff.mpr available
    simp only [ledger, takeFrame, Ledger.addFree, mapped, waiting, List.count_erase_self]
    congr
    omega
  · simp [ledger, takeFrame, mapped, waiting, List.count_erase_of_ne ‹_›]

theorem ledger_owe (frame other : Frame) :
    (m.owe frame).ledger other = if other = frame then (m.ledger other).owe else m.ledger other := by
  split
  · subst other
    simp [ledger, owe, Ledger.owe, mapped, waiting, Nat.add_assoc]
  · simp [ledger, owe, mapped, waiting, List.count_cons_of_ne (Ne.symm ‹_›)]

theorem ledger_addHand (frame other : Frame) :
    (m.addHand frame).ledger other = if other = frame then (m.ledger other).addHand else m.ledger other := by
  split
  · subst other
    simp [ledger, addHand, Ledger.addHand, mapped, waiting]
  · simp [ledger, addHand, mapped, waiting, List.count_cons_of_ne (Ne.symm ‹_›)]

theorem ledger_dropHand {frame : Frame} (held : frame ∈ m.hand) (other : Frame) :
    m.ledger other =
      if other = frame then ((m.dropHand frame).ledger other).addHand else (m.dropHand frame).ledger other := by
  split
  · subst other
    have := List.count_pos_iff.mpr held
    simp only [ledger, dropHand, Ledger.addHand, mapped, waiting, List.count_erase_self]
    congr
    omega
  · simp [ledger, dropHand, mapped, waiting, List.count_erase_of_ne ‹_›]

theorem ledger_shared_insert (frame : Frame) (n : Nat) (other : Frame) :
    ledger { m with shared := m.shared.insert frame n } other =
      if other = frame then { m.ledger other with count := some n } else m.ledger other := by
  split
  · subst other
    simp [ledger, mapped, waiting]
  · simp [ledger, mapped, waiting, AList.lookup_insert_ne ‹_›]

theorem ledger_shared_erase (frame other : Frame) :
    ledger { m with shared := m.shared.erase frame } other =
      if other = frame then { m.ledger other with count := none } else m.ledger other := by
  split
  · subst other
    simp [ledger, mapped, waiting]
  · simp [ledger, mapped, waiting, AList.lookup_erase_ne ‹_›]

theorem ledger_cache_insert (frame : Frame) (entry : CacheFrame) (other : Frame) :
    ledger { m with cache := m.cache.insert frame entry } other =
      if other = frame then { m.ledger other with cache := some entry } else m.ledger other := by
  split
  · subst other
    simp [ledger, mapped, waiting]
  · simp [ledger, mapped, waiting, AList.lookup_insert_ne ‹_›]

theorem ledger_cache_erase (frame other : Frame) :
    ledger { m with cache := m.cache.erase frame } other =
      if other = frame then { m.ledger other with cache := none } else m.ledger other := by
  split
  · subst other
    simp [ledger, mapped, waiting]
  · simp [ledger, mapped, waiting, AList.lookup_erase_ne ‹_›]

theorem mapped_setLeaf (mark : Mark) (aspace : Aspace) (va : Va) (leaf : Leaf) (frame : Frame) :
    (m.setLeaf aspace va leaf).mapped mark frame =
      (m.unmapUserPage aspace va).mapped mark frame + (leaf.phys == frame && leaf.mark == mark).toNat := by
  have inserted := Table.count_insert m.leaves (fun _ leaf => leaf.phys == frame && leaf.mark == mark) (aspace, va) leaf
  have erased := Table.count_erase m.leaves (fun _ leaf => leaf.phys == frame && leaf.mark == mark) (aspace, va)
  simp only [mapped, setLeaf, unmapUserPage]
  omega

theorem ledger_setLeaf (aspace : Aspace) (va : Va) (leaf : Leaf) (frame : Frame) :
    (m.setLeaf aspace va leaf).ledger frame =
      if frame = leaf.phys then ((m.unmapUserPage aspace va).ledger frame).addLeaf leaf.mark
      else (m.unmapUserPage aspace va).ledger frame := by
  simp only [ledger, mapped_setLeaf]
  split
  · subst frame
    cases marked : leaf.mark <;> simp [Ledger.addLeaf, setLeaf, unmapUserPage, waiting]
  · rename_i different
    simp [Ne.symm different, setLeaf, unmapUserPage, waiting]

theorem setLeaf_self {aspace : Aspace} {va : Va} {leaf : Leaf} (found : m.leaf aspace va = some leaf)
    (frame : Frame) : (m.setLeaf aspace va leaf).ledger frame = m.ledger frame := by
  have inserted (pick : Leaf → Bool) : (m.setLeaf aspace va leaf).leaves.count (fun _ leaf => pick leaf) =
      m.leaves.count fun _ leaf => pick leaf := by
    have := Table.count_insert m.leaves (fun _ leaf => pick leaf) (aspace, va) leaf
    rw [Table.weight_of_some _ found] at this
    exact Nat.add_right_cancel this
  simp only [ledger, mapped, inserted]
  rfl

theorem ledger_of_leaf {aspace : Aspace} {va : Va} {leaf : Leaf} (found : m.leaf aspace va = some leaf)
    (frame : Frame) :
    m.ledger frame =
      if frame = leaf.phys then ((m.unmapUserPage aspace va).ledger frame).addLeaf leaf.mark
      else (m.unmapUserPage aspace va).ledger frame := by
  rw [← setLeaf_self found, ledger_setLeaf]

theorem unmapUserPage_of_none {aspace : Aspace} {va : Va} (missing : m.leaf aspace va = none) :
    m.unmapUserPage aspace va = m := by
  have absent : (aspace, va) ∉ m.leaves := AList.lookup_eq_none.mp missing
  have same : m.leaves.erase (aspace, va) = m.leaves :=
    AList.ext (List.kerase_of_notMem_keys (AList.mem_keys.not.mp absent))
  simp only [unmapUserPage, same]

end Myos.User.Memory
