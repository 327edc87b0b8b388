import Myos.User.CowRun

namespace Myos.User
open Lib Myos.Task

/-- How an entry maps its frame: plainly, as one of a fork's, or counted out of those for a copy. -/
inductive Mark
  | bare
  | cow
  | copying
deriving DecidableEq

def Leaf.mark (leaf : Leaf) : Mark :=
  if leaf.copy.isSome then .copying else if leaf.cow then .cow else .bare

theorem Leaf.mark_settled (leaf : Leaf) (settled : leaf.copy = none) : leaf.mark ≠ .copying := by
  unfold Leaf.mark
  rw [settled]
  cases leaf.cow <;> decide

theorem Leaf.mark_cow {leaf : Leaf} (settled : leaf.copy = none) (marked : leaf.cow = true) : leaf.mark = .cow := by
  rw [Leaf.mark, settled, marked]
  rfl

/-- Everything the kernel keeps about one frame: the leaves that map it by their marks, the mappings gone that
wait for a flush, and who counts them. -/
structure Ledger where
  count : Option Nat
  cache : Option CacheFrame
  device : Bool
  cow : Nat
  bare : Nat
  copying : Nat
  waiting : Nat
  hand : Nat
  free : Nat

namespace Ledger

/-- A frame is a device's, the page cache's, one that forks share or a plain one, and its owner counts
every mapping of it. -/
def Sound (l : Ledger) : Prop :=
  match l.device, l.cache, l.count with
  | true, none, none => l.cow = 0 ∧ l.copying = 0 ∧ l.waiting = 0 ∧ l.hand = 0 ∧ l.free = 0
  | false, some entry, none => l.cow = 0 ∧ l.copying = 0 ∧ l.free = 0 ∧
      entry.maps = l.bare + l.waiting + l.hand ∧ (entry.page = none → 0 < entry.maps)
  | false, none, some n => l.bare = 0 ∧ l.hand = 0 ∧ l.free = 0 ∧ n = l.cow + l.waiting ∧ 0 < n
  | false, none, none => l.cow = 0 ∧ l.bare + l.waiting + l.hand + l.free ≤ 1 ∧
      (l.copying = 0 ∨ l.hand + l.free = 0)
  | _, _, _ => False

def addLeaf (l : Ledger) : Mark → Ledger
  | .cow => { l with cow := l.cow + 1 }
  | .bare => { l with bare := l.bare + 1 }
  | .copying => { l with copying := l.copying + 1 }

def owe (l : Ledger) : Ledger := { l with waiting := l.waiting + 1 }

def addHand (l : Ledger) : Ledger := { l with hand := l.hand + 1 }

def addFree (l : Ledger) : Ledger := { l with free := l.free + 1 }

variable {l : Ledger}

theorem Sound.addFree (sound : l.owe.Sound) (uncounted : l.count = none) (uncached : l.cache = none)
    (spared : l.copying = 0) : l.addFree.Sound := by
  obtain ⟨count, cache, device⟩ := l
  subst uncounted uncached
  cases device <;> simp only [Sound, owe, Ledger.addFree] at sound spared ⊢ <;> omega

variable {mark : Mark} {entry : CacheFrame} {n : Nat}

theorem Sound.unmap (sound : (l.addLeaf mark).Sound) (settled : mark ≠ .copying) (memory : l.device = false) :
    l.owe.Sound := by
  obtain ⟨count, cache, device⟩ := l
  subst memory
  cases mark <;> try contradiction
  all_goals cases count <;> cases cache <;> simp only [Sound, owe, addLeaf] at sound ⊢ <;> omega

theorem Sound.releaseCached (sound : l.owe.Sound) (cached : l.cache = some entry)
    (stays : ¬(entry.maps - 1 = 0 ∧ entry.page = none)) :
    Sound { l with cache := some { entry with maps := entry.maps - 1 } } := by
  obtain ⟨count, cache, device⟩ := l
  subst cached
  cases device <;> cases count <;> simp only [Sound, owe] at sound ⊢
  refine ⟨sound.1, sound.2.1, sound.2.2.1, by omega, ?_⟩
  intro dropped
  exact Nat.pos_of_ne_zero fun last => stays ⟨last, dropped⟩

theorem Sound.freeCached (sound : l.owe.Sound) (cached : l.cache = some entry)
    (last : entry.maps - 1 = 0) : Sound (Ledger.addFree { l with cache := none }) := by
  obtain ⟨count, cache, device⟩ := l
  subst cached
  cases device <;> cases count <;> simp only [Sound, owe, Ledger.addFree] at sound ⊢
  omega

theorem Sound.releaseShared (sound : l.owe.Sound) (counted : l.count = some n) (stays : n - 1 ≠ 0) :
    Sound { l with count := some (n - 1) } := by
  obtain ⟨count, cache, device⟩ := l
  subst counted
  cases device <;> cases cache <;> simp only [Sound, owe] at sound ⊢
  omega

theorem Sound.freeShared (sound : l.owe.Sound) (counted : l.count = some n) (last : n - 1 = 0)
    (spared : l.copying = 0) : Sound (Ledger.addFree { l with count := none }) := by
  obtain ⟨count, cache, device⟩ := l
  subst counted
  cases device <;> cases cache <;> simp only [Sound, owe, Ledger.addFree] at sound spared ⊢
  omega

theorem Sound.dropHand (sound : l.addHand.Sound) : l.owe.Sound := by
  obtain ⟨count, cache, device⟩ := l
  cases device <;> cases count <;> cases cache <;> simp only [Sound, owe, addHand] at sound ⊢ <;> omega

theorem Sound.copying_of_hand (sound : l.addHand.Sound) : l.copying = 0 := by
  obtain ⟨count, cache, device⟩ := l
  cases device <;> cases count <;> cases cache <;> simp only [Sound, addHand] at sound ⊢ <;> omega

theorem Sound.cached (sound : l.Sound) (cached : l.cache = some entry) :
    l.device = false ∧ l.count = none ∧ l.copying = 0 := by
  obtain ⟨count, cache, device⟩ := l
  subst cached
  cases device <;> cases count <;> simp only [Sound] at sound ⊢
  exact ⟨trivial, trivial, sound.2.1⟩

theorem Sound.takeHand (sound : l.addFree.Sound) : l.addHand.Sound := by
  obtain ⟨count, cache, device⟩ := l
  cases device <;> cases count <;> cases cache <;> simp only [Sound, Ledger.addFree, addHand] at sound ⊢ <;> omega

theorem Sound.placeHand (sound : l.addHand.Sound) : (l.addLeaf .bare).Sound := by
  obtain ⟨count, cache, device⟩ := l
  cases device <;> cases count <;> cases cache <;> simp only [Sound, addLeaf, addHand] at sound ⊢ <;> omega

theorem Sound.addMap (sound : l.Sound) (cached : l.cache = some entry) :
    Sound (addHand { l with cache := some { entry with maps := entry.maps + 1 } }) := by
  obtain ⟨count, cache, device⟩ := l
  subst cached
  cases device <;> cases count <;> simp only [Sound, addHand] at sound ⊢
  omega

theorem Sound.newCached (sound : l.addFree.Sound) (uncached : l.cache = none) (page : Node × Nat) :
    Sound (addHand { l with cache := some ⟨1, some page⟩ }) := by
  obtain ⟨count, cache, device⟩ := l
  subst uncached
  cases device <;> cases count <;> simp only [Sound, addHand, Ledger.addFree] at sound ⊢ <;> omega

theorem Sound.counted (sound : (l.addLeaf .cow).Sound) : ∃ n, l.count = some n := by
  obtain ⟨count, cache, device⟩ := l
  cases device <;> cases count <;> cases cache <;> simp only [Sound, addLeaf] at sound ⊢ <;> simp at sound ⊢

theorem Sound.claimLast (sound : (l.addLeaf .cow).Sound) (counted : l.count = some n) (last : n ≤ 1) :
    Sound (addLeaf { l with count := none } .bare) := by
  obtain ⟨count, cache, device⟩ := l
  subst counted
  cases device <;> cases cache <;> simp only [Sound, addLeaf] at sound ⊢
  omega

theorem Sound.claimShared (sound : (l.addLeaf .cow).Sound) (counted : l.count = some n)
    (others : 1 < n) : Sound (addLeaf { l with count := some (n - 1) } .copying) := by
  obtain ⟨count, cache, device⟩ := l
  subst counted
  cases device <;> cases cache <;> simp only [Sound, addLeaf] at sound ⊢
  omega

theorem Sound.finishCopy (sound : (l.addLeaf .copying).Sound) : l.Sound := by
  obtain ⟨count, cache, device⟩ := l
  cases device <;> cases count <;> cases cache <;> simp only [Sound, addLeaf] at sound ⊢ <;> omega

theorem Sound.share (sound : (l.addLeaf mark).Sound) (settled : mark ≠ .copying) (uncached : l.cache = none)
    (memory : l.device = false) :
    Sound (addLeaf (addLeaf { l with count := some (l.count.getD 1 + 1) } .cow) .cow) := by
  obtain ⟨count, cache, device⟩ := l
  subst uncached memory
  cases mark <;> try contradiction
  all_goals cases count <;> simp only [Sound, addLeaf, Option.getD] at sound ⊢ <;> omega

theorem Sound.dropPage (sound : l.Sound) (cached : l.cache = some entry)
    (mapped : entry.maps ≠ 0) : Sound { l with cache := some { entry with page := none } } := by
  obtain ⟨count, cache, device⟩ := l
  subst cached
  cases device <;> cases count <;> simp only [Sound] at sound ⊢
  omega

theorem Sound.freePage (sound : l.Sound) (cached : l.cache = some entry)
    (unmapped : entry.maps = 0) : Sound (Ledger.addFree { l with cache := none }) := by
  obtain ⟨count, cache, device⟩ := l
  subst cached
  cases device <;> cases count <;> simp only [Sound, Ledger.addFree] at sound ⊢
  omega

theorem Sound.addDevice (sound : l.Sound) (device : l.device = true) : (l.addLeaf .bare).Sound := by
  obtain ⟨count, cache, isDevice⟩ := l
  subst device
  cases count <;> cases cache <;> simp only [Sound, addLeaf] at sound ⊢
  exact sound

theorem Sound.unmapDevice (sound : (l.addLeaf mark).Sound) (device : l.device = true) :
    l.Sound := by
  obtain ⟨count, cache, isDevice⟩ := l
  subst device
  cases mark <;> cases count <;> cases cache <;> simp only [Sound, addLeaf] at sound ⊢ <;> omega

theorem Sound.bare_of_uncounted (sound : (l.addLeaf mark).Sound) (settled : mark ≠ .copying)
    (uncounted : l.count = none) : mark = .bare := by
  cases mark with
  | bare => rfl
  | cow =>
    obtain ⟨n, counted⟩ := sound.counted
    simp [uncounted] at counted
  | copying => contradiction

theorem Sound.uncounted_of_device (sound : l.Sound) (device : l.device = true) : l.count = none := by
  obtain ⟨count, cache, isDevice⟩ := l
  subst device
  cases count <;> cases cache <;> simp only [Sound] at sound ⊢

theorem Sound.count_eq_of_counted (sound : l.Sound) (counted : l.count.isSome) :
    l.count.getD 1 = l.cow + l.waiting := by
  obtain ⟨count, cache, device⟩ := l
  cases count with
  | none => cases counted
  | some n =>
    cases device <;> cases cache <;> simp only [Sound, Option.getD] at sound ⊢
    omega

theorem Sound.counted_of_cow (sound : l.Sound) (marked : 0 < l.cow) : l.count.isSome := by
  obtain ⟨count, cache, device⟩ := l
  cases device <;> cases cache <;> cases count <;> simp only [Sound, Option.isSome] at sound marked ⊢ <;> omega

theorem Sound.count_eq_of_waiting (sound : l.Sound) (uncached : l.cache = none) (waits : 0 < l.waiting) :
    l.count.getD 1 = l.cow + l.waiting := by
  obtain ⟨count, cache, device⟩ := l
  subst uncached
  cases device <;> cases count <;> simp only [Sound, Option.getD] at sound waits ⊢ <;> omega

theorem Sound.unmapped_of_free (sound : l.addFree.Sound) : l.cow = 0 ∧ l.bare = 0 ∧ l.copying = 0 := by
  obtain ⟨count, cache, device⟩ := l
  cases device <;> cases count <;> cases cache <;> simp only [Sound, Ledger.addFree] at sound ⊢ <;> omega

end Ledger
end Myos.User
