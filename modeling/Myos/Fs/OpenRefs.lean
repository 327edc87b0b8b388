import Mathlib.Data.Finset.Card
import Mathlib.Data.List.Perm.Basic

namespace Myos.Fs

/-- What an fd leads to: an open file description, and the path its file was opened by. -/
class Described (φ : Type) (π : outParam Type) where
  desc : φ → Nat
  path : φ → π

open Described

/-- The fds on a module's files. `opens` counts the descriptions of a path from `open_ref` on, which `fd_open` calls
once the fd is in its table; `opening` are those it has yet to be called for. -/
structure OpenRefs (φ π : Type) where
  fds : List φ
  opening : List φ
  opens : π → Nat
  next : Nat

namespace OpenRefs

variable {φ π : Type} [Described φ π] [DecidableEq π] (r : OpenRefs φ π)

def none : OpenRefs φ π := ⟨[], [], fun _ => 0, 0⟩

def add (new : Nat → φ) : OpenRefs φ π :=
  { r with fds := r.fds ++ [new r.next], opening := r.opening ++ [new r.next], next := r.next + 1 }

def openRef (j : Nat) : Option (OpenRefs φ π) :=
  (r.opening[j]?).map fun fd =>
    { r with
      opening := r.opening.eraseIdx j
      opens := Function.update r.opens (path fd) (r.opens (path fd) + 1) }

def share (k : Nat) : Option (OpenRefs φ π) := (r.fds[k]?).map fun fd => { r with fds := r.fds ++ [fd] }

/-- Whether the description of `fd` goes with it. -/
def unshared (fd : φ) (left : List φ) : Bool := !left.any fun other => desc other == desc fd

def closeRef (fd : φ) (left : List φ) : OpenRefs φ π :=
  { r with
    fds := left
    opens := if unshared fd left then Function.update r.opens (path fd) (r.opens (path fd) - 1) else r.opens }

/-- Whether `close_ref` runs the module's `release` for the path. -/
def releases (fd : φ) (left : List φ) : Bool := unshared fd left && r.opens (path fd) == 1

/-- No open of the path is between its fd and its `open_ref`. -/
def settled (p : π) : Bool := r.opening.all fun fd => path fd != p

def descs (fds : List φ) (p : π) : Finset Nat := ((fds.filter fun fd => path fd = p).map desc).toFinset

structure Counted : Prop where
  same : ∀ a ∈ r.fds, ∀ b ∈ r.fds, desc a = desc b → path a = path b
  fresh : ∀ a ∈ r.fds, desc a < r.next
  opens : ∀ p, r.opens p + r.opening.countP (fun fd => path fd = p) = (descs r.fds p).card

variable {r} {r' : OpenRefs φ π} {fd other : φ} {k : Nat} {p : π}

theorem mem_descs {fds : List φ} {d : Nat} : d ∈ descs fds p ↔ ∃ fd ∈ fds, path fd = p ∧ desc fd = d := by
  simp [descs, and_assoc]

theorem counted_none : (none : OpenRefs φ π).Counted := ⟨nofun, nofun, fun _ => rfl⟩

theorem Counted.add {new : Nat → φ} (counted : r.Counted) (numbered : ∀ d, desc (new d) = d) : (r.add new).Counted := by
  have later : ∀ a ∈ r.fds, desc a ≠ desc (new r.next) := fun a old => by
    rw [numbered]
    exact (counted.fresh a old).ne
  refine ⟨fun a ina b inb numbers => ?_, fun a ina => ?_, fun p => ?_⟩
  · rcases List.mem_append.mp ina with olda | isNew <;> rcases List.mem_append.mp inb with oldb | isNew'
    · exact counted.same a olda b oldb numbers
    · cases List.mem_singleton.mp isNew'
      exact absurd numbers (later a olda)
    · cases List.mem_singleton.mp isNew
      exact absurd numbers.symm (later b oldb)
    · cases List.mem_singleton.mp isNew
      cases List.mem_singleton.mp isNew'
      rfl
  · rcases List.mem_append.mp ina with olda | isNew
    · exact Nat.lt_succ_of_lt (counted.fresh a olda)
    · cases List.mem_singleton.mp isNew
      exact (numbered r.next).trans_lt (Nat.lt_succ_self r.next)
  · have before := counted.opens p
    have missing : r.next ∉ descs r.fds p := fun member => by
      obtain ⟨a, olda, _, number⟩ := mem_descs.mp member
      exact (counted.fresh a olda).ne number
    change r.opens p + (r.opening ++ [new r.next]).countP _ = (descs (r.fds ++ [new r.next]) p).card
    rw [List.countP_append, ← Nat.add_assoc, before]
    by_cases here : path (new r.next) = p
    · have grown : descs (r.fds ++ [new r.next]) p = insert r.next (descs r.fds p) := by
        ext d
        simp [descs, here, numbered]
      rw [grown, Finset.card_insert_of_notMem missing]
      simp [here]
    · have same : descs (r.fds ++ [new r.next]) p = descs r.fds p := by
        ext d
        simp [descs, here]
      rw [same]
      simp [here]

theorem cons_eraseIdx_perm {α : Type} {l : List α} {k : Nat} {a : α} (found : l[k]? = some a) :
    (a :: l.eraseIdx k).Perm l := by
  obtain ⟨within, rfl⟩ := List.getElem?_eq_some_iff.mp found
  exact List.getElem_cons_eraseIdx_perm within

theorem Counted.openRef {j : Nat} (counted : r.Counted) (called : r.openRef j = some r') : r'.Counted := by
  obtain ⟨fd, found, rfl⟩ := Option.map_eq_some_iff.mp called
  refine ⟨counted.same, counted.fresh, fun p => ?_⟩
  have split := (cons_eraseIdx_perm found).countP_eq fun fd => path fd = p
  rw [List.countP_cons] at split
  rw [← counted.opens p, ← split]
  change Function.update r.opens (path fd) (r.opens (path fd) + 1) p +
    (r.opening.eraseIdx j).countP (fun fd => path fd = p) = _
  by_cases here : path fd = p
  · subst here
    rw [Function.update_self, if_pos (decide_eq_true rfl)]
    omega
  · rw [Function.update_of_ne (Ne.symm here), if_neg (by simpa using here), Nat.add_zero]

theorem Counted.share (counted : r.Counted) (called : r.share k = some r') : r'.Counted := by
  obtain ⟨fd, found, rfl⟩ := Option.map_eq_some_iff.mp called
  have member := List.mem_of_getElem? found
  have old : ∀ a ∈ r.fds ++ [fd], a ∈ r.fds := fun a ina => by
    rcases List.mem_append.mp ina with olda | isNew
    · exact olda
    · exact List.mem_singleton.mp isNew ▸ member
  refine ⟨fun a ina b inb => counted.same a (old a ina) b (old b inb), fun a ina => counted.fresh a (old a ina), fun p => ?_⟩
  rw [show descs (r.fds ++ [fd]) p = descs r.fds p from ?_]
  · exact counted.opens p
  ext d
  rw [mem_descs, mem_descs]
  exact ⟨fun ⟨a, ina, rest⟩ => ⟨a, old a ina, rest⟩, fun ⟨a, ina, rest⟩ => ⟨a, List.mem_append_left _ ina, rest⟩⟩

section Close

variable (counted : r.Counted) (found : r.fds[k]? = some fd)
include counted found

theorem Counted.descs_left (other : p ≠ path fd ∨ unshared fd (r.fds.eraseIdx k) = false) :
    descs (r.fds.eraseIdx k) p = descs r.fds p := by
  ext d
  rw [mem_descs, mem_descs]
  refine ⟨fun ⟨a, left, rest⟩ => ⟨a, List.mem_of_mem_eraseIdx left, rest⟩, ?_⟩
  rintro ⟨a, ina, here, number⟩
  rcases List.mem_cons.mp ((cons_eraseIdx_perm found).mem_iff.mpr ina) with rfl | left
  · rcases other with elsewhere | shared
    · exact absurd here.symm elsewhere
    -- another fd of the description is left
    simp only [unshared, Bool.not_eq_false', List.any_eq_true, beq_iff_eq] at shared
    obtain ⟨b, left, same⟩ := shared
    refine ⟨b, left, ?_, same.trans number⟩
    exact (counted.same b (List.mem_of_mem_eraseIdx left) a ina same).trans here
  · exact ⟨a, left, here, number⟩

omit counted in
theorem descs_unshared (alone : unshared fd (r.fds.eraseIdx k) = true) :
    descs (r.fds.eraseIdx k) (path fd) = (descs r.fds (path fd)).erase (desc fd) := by
  simp only [unshared, Bool.not_eq_true', List.any_eq_false, beq_iff_eq] at alone
  ext d
  rw [Finset.mem_erase, mem_descs, mem_descs]
  constructor
  · rintro ⟨a, left, here, rfl⟩
    exact ⟨alone a left, a, List.mem_of_mem_eraseIdx left, here, rfl⟩
  · rintro ⟨different, a, ina, here, rfl⟩
    rcases List.mem_cons.mp ((cons_eraseIdx_perm found).mem_iff.mpr ina) with rfl | left
    · exact absurd rfl different
    · exact ⟨a, left, here, rfl⟩

omit found in
theorem Counted.opens_eq (settled : r.settled (path fd) = true) : r.opens (path fd) = (descs r.fds (path fd)).card := by
  have none_opening : r.opening.countP (fun other => path other = path fd) = 0 := by
    rw [List.countP_eq_zero]
    intro other opening same
    have apart := List.all_eq_true.mp settled other opening
    rw [bne_iff_ne] at apart
    exact apart (of_decide_eq_true same)
  rw [← counted.opens, none_opening, Nat.add_zero]

theorem Counted.closeRef (settled : r.settled (path fd) = true) : (r.closeRef fd (r.fds.eraseIdx k)).Counted := by
  have old : ∀ a ∈ r.fds.eraseIdx k, a ∈ r.fds := fun a left => List.mem_of_mem_eraseIdx left
  refine ⟨fun a ina b inb => counted.same a (old a ina) b (old b inb), fun a ina => counted.fresh a (old a ina), fun p => ?_⟩
  have before := counted.opens p
  by_cases here : unshared fd (r.fds.eraseIdx k) = true ∧ p = path fd
  · obtain ⟨alone, rfl⟩ := here
    have member : desc fd ∈ descs r.fds (path fd) := mem_descs.mpr ⟨fd, List.mem_of_getElem? found, rfl, rfl⟩
    have total := counted.opens_eq settled
    simp only [OpenRefs.closeRef, alone, if_true, Function.update_self]
    rw [descs_unshared found alone, Finset.card_erase_of_mem member]
    omega
  · have unchanged : (r.closeRef fd (r.fds.eraseIdx k)).opens p = r.opens p := by
      simp only [OpenRefs.closeRef]
      split
      next alone => exact Function.update_of_ne (fun same => here ⟨alone, same⟩) ..
      · rfl
    rw [unchanged]
    refine before.trans (congrArg Finset.card (counted.descs_left found ?_).symm)
    rw [Classical.not_and_iff_not_or_not, Bool.not_eq_true] at here
    exact here.symm

/-- When `release` runs, no fd is left on the path, whichever description it is of. -/
theorem Counted.releases_last (settled : r.settled (path fd) = true) (released : r.releases fd (r.fds.eraseIdx k) = true) :
    ∀ other ∈ r.fds.eraseIdx k, path other ≠ path fd := by
  intro other left same
  obtain ⟨alone, one⟩ := Bool.and_eq_true_iff.mp released
  rw [beq_iff_eq, counted.opens_eq settled, Finset.card_eq_one] at one
  obtain ⟨d, single⟩ := one
  have first : desc fd ∈ descs r.fds (path fd) := mem_descs.mpr ⟨fd, List.mem_of_getElem? found, rfl, rfl⟩
  have second : desc other ∈ descs r.fds (path fd) := mem_descs.mpr ⟨other, List.mem_of_mem_eraseIdx left, same, rfl⟩
  rw [single, Finset.mem_singleton] at first second
  simp only [unshared, Bool.not_eq_true', List.any_eq_false, beq_iff_eq] at alone
  exact alone other left (second.trans first.symm)

/-- The close that leaves no fd on the path runs `release`. -/
theorem Counted.last_releases (settled : r.settled (path fd) = true)
    (last : ∀ other ∈ r.fds.eraseIdx k, path other ≠ path fd) : r.releases fd (r.fds.eraseIdx k) = true := by
  have member := List.mem_of_getElem? found
  have alone : unshared fd (r.fds.eraseIdx k) = true := by
    simp only [unshared, Bool.not_eq_true', List.any_eq_false, beq_iff_eq]
    exact fun other left same => last other left (counted.same other (List.mem_of_mem_eraseIdx left) fd member same)
  have single : descs r.fds (path fd) = {desc fd} := by
    ext d
    rw [mem_descs, Finset.mem_singleton]
    constructor
    · rintro ⟨a, ina, here, rfl⟩
      rcases List.mem_cons.mp ((cons_eraseIdx_perm found).mem_iff.mpr ina) with rfl | left
      · rfl
      · exact absurd here (last a left)
    · rintro rfl
      exact ⟨fd, member, rfl, rfl⟩
  rw [releases, alone, counted.opens_eq settled, single, Finset.card_singleton]
  rfl

end Close
end OpenRefs
end Myos.Fs
