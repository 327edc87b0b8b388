import Mathlib.Data.List.Induction
import Myos.Sec.Rename
import Myos.Task.NsSpec

namespace Myos.Sec
open Myos.Fs

/-- The directories the walk from `start` comes to, by their paths beneath `old`. -/
inductive Walks (v : Vfs) (old start : List Name) : List Name → Prop
  | base (isDir : v.statDir (old ++ start) = true) : Walks v old start start
  | step {rel : List Name} {name : Name} (walks : Walks v old start rel) (isListed : name ∈ listed v (old ++ rel))
      (isDir : v.statDir (old ++ (rel ++ [name])) = true) : Walks v old start (rel ++ [name])

variable {c : Caller} {v : Vfs} {old start rel : List Name}

theorem Walks.trans {middle : List Name} (left : Walks v old start middle) (right : Walks v old middle rel) :
    Walks v old start rel := by
  induction right with
  | base => exact left
  | step _ isListed isDir ih => exact .step ih isListed isDir

theorem Walks.fromDir (walks : Walks v old start rel) : v.statDir (old ++ start) = true := by
  induction walks with
  | base isDir => exact isDir
  | step _ _ _ ih => exact ih

theorem Walks.cases_start (walks : Walks v old start rel) : rel = start ∨
    ∃ name ∈ listed v (old ++ start), v.statDir (old ++ (start ++ [name])) = true ∧ Walks v old (start ++ [name]) rel := by
  induction walks with
  | base => exact .inl rfl
  | @step rel name walks isListed isDir ih =>
    right
    rcases ih with rfl | ⟨first, isFirst, firstDir, deeper⟩
    · exact ⟨name, isListed, isDir, .base isDir⟩
    · exact ⟨first, isFirst, firstDir, .step deeper isListed isDir⟩

namespace RenameCall
variable {r : RenameCall} {names : List Name} {subs todo : List (List Name)}

structure Passes (c : Caller) (v : Vfs) (r : RenameCall) (rel : List Name) : Prop where
  whole : cutOff (v.listdir RENAME_LIST_MAX (r.old.comps ++ rel)) = false
  utf8 : ∀ name ∈ listed v (r.old.comps ++ rel), isUtf8 name = true
  allowed : ∀ name ∈ listed v (r.old.comps ++ rel),
    r.mayRemove c v (rel ++ [name]) = true ∧ r.mayCreate c v (rel ++ [name]) = true

theorem checkNames_eq_some : r.checkNames c v rel names = some subs ↔
    (∀ name ∈ names, isUtf8 name = true ∧ r.mayRemove c v (rel ++ [name]) = true ∧
      r.mayCreate c v (rel ++ [name]) = true) ∧ subs = (names.map (rel ++ [·])).filter (r.statDir v) := by
  induction names generalizing subs with
  | nil =>
    rw [checkNames]
    constructor
    · rintro ⟨⟩
      exact ⟨List.forall_mem_nil _, rfl⟩
    · rintro ⟨-, rfl⟩
      rfl
  | cons name rest ih =>
    rw [checkNames]
    split
    · rename_i passes
      simp only [Bool.and_eq_true, and_assoc] at passes
      simp only [Option.map_eq_some_iff, ih, List.map_cons, List.filter_cons, List.forall_mem_cons]
      constructor
      · rintro ⟨others, ⟨pass, rfl⟩, rfl⟩
        exact ⟨⟨passes, pass⟩, rfl⟩
      · rintro ⟨⟨-, pass⟩, rfl⟩
        exact ⟨_, ⟨pass, rfl⟩, rfl⟩
    · rename_i fails
      simp only [reduceCtorEq, false_iff]
      rintro ⟨pass, -⟩
      have := pass name (.head _)
      simp [this] at fails

theorem mem_subs {sub : List Name} : sub ∈ ((names.map (rel ++ [·])).filter (r.statDir v)).reverse ↔
    ∃ name ∈ names, rel ++ [name] = sub ∧ r.statDir v sub = true := by
  simp only [List.mem_reverse, List.mem_filter, List.mem_map]
  constructor
  · rintro ⟨⟨name, member, rfl⟩, isDir⟩
    exact ⟨name, member, rfl, isDir⟩
  · rintro ⟨name, member, rfl, isDir⟩
    exact ⟨⟨name, member, rfl⟩, isDir⟩

theorem walk_iff (dirs : ∀ start ∈ todo, r.statDir v start = true) : r.walk c v todo = true ↔
    ∀ start ∈ todo, ∀ rel, Walks v r.old.comps start rel → r.Passes c v rel := by
  fun_induction walk c v r todo with
  | case1 => simp
  | case2 start rest cut =>
    simp only [Bool.false_eq_true, false_iff]
    intro passes
    rw [(passes start (.head _) start (.base (dirs start (.head _)))).whole] at cut
    cases cut
  | case3 start rest whole refused =>
    simp only [Bool.false_eq_true, false_iff]
    intro passes
    have pass := passes start (.head _) start (.base (dirs start (.head _)))
    rw [checkNames_eq_some.mpr ⟨fun name member => ⟨pass.utf8 name member, pass.allowed name member⟩, rfl⟩] at refused
    cases refused
  | case4 start rest whole subs checked ih =>
    obtain ⟨pass, rfl⟩ := checkNames_eq_some.mp checked
    have here : r.statDir v start = true := dirs start (.head _)
    rw [ih fun sub member => ?_]
    · constructor
      · intro passes start' member rel walks
        rcases List.mem_cons.mp member with rfl | member
        · rcases walks.cases_start with rfl | ⟨name, isListed, isDir, deeper⟩
          · exact ⟨by simpa using whole, fun name member => (pass name member).1, fun name member => (pass name member).2⟩
          · exact passes _ (List.mem_append_left _ (mem_subs.mpr ⟨name, isListed, rfl, isDir⟩)) rel deeper
        · exact passes start' (List.mem_append_right _ member) rel walks
      · intro passes start' member rel walks
        rcases List.mem_append.mp member with pushed | member
        · obtain ⟨name, isListed, rfl, isDir⟩ := mem_subs.mp pushed
          exact passes start (.head _) rel ((Walks.step (.base here) isListed isDir).trans walks)
        · exact passes start' (.tail _ member) rel walks
    · rcases List.mem_append.mp member with pushed | member
      · obtain ⟨_, -, -, isDir⟩ := mem_subs.mp pushed
        exact isDir
      · exact dirs sub (.tail _ member)

def needNew (replaced : Bool) : Rights := if replaced then Rights.CREATE ||| Rights.REMOVE else Rights.CREATE

theorem mayRename_iff : r.mayRename c v = true ↔
    c.allowedIn v r.old Rights.REMOVE (ns c r.old r.oldNs) = true ∧
      c.allowedIn v r.new (needNew r.replaced) (ns c r.new r.newNs) = true ∧
      ∀ rel, Walks v r.old.comps [] rel → r.Passes c v rel := by
  simp only [mayRename, needNew]
  cases oldAllowed : c.allowedIn v r.old Rights.REMOVE (ns c r.old r.oldNs)
  · simp
  cases newAllowed : c.allowedIn v r.new (if r.replaced then Rights.CREATE ||| Rights.REMOVE else Rights.CREATE)
      (ns c r.new r.newNs)
  · simp
  cases isDir : r.statDir v [] with
  | true => simpa using walk_iff (c := c) (List.forall_mem_singleton.mpr isDir)
  | false =>
    simp only [Bool.not_true, Bool.or_false, Bool.false_eq_true, if_false, Bool.not_false, if_true, true_and,
      true_iff]
    intro rel walks
    cases isDir.symm.trans walks.fromDir

end RenameCall

namespace Caller

def Enforcing (c : Caller) : Prop := ∀ p u d, c.current = some (p, u, d) → p.enforcing = true

theorem allowedIn_eq (enforcing : c.Enforcing) (real : RealPath) (need ns : Rights) :
    c.allowedIn v real need ns = Rights.contains (c.rightsIn v real ns) need := by
  unfold allowedIn rightsIn
  split
  · rfl
  cases current : c.current with
  | none =>
    cases Rights.contains ns need <;> rfl
  | some policy =>
    obtain ⟨p, u, d⟩ := policy
    have strict := enforcing p u d current
    dsimp only
    rw [Rights.contains_and, refused, strict]
    cases Rights.contains ns need <;> simp

end Caller

structure Authorised (c : Caller) (v : Vfs) (r : RenameCall) : Prop where
  old : Rights.contains (c.rightsIn v r.old (RenameCall.ns c r.old r.oldNs)) Rights.REMOVE = true
  new : Rights.contains (c.rightsIn v r.new (RenameCall.ns c r.new r.newNs)) Rights.CREATE = true
  replaced : r.replaced = true →
    Rights.contains (c.rightsIn v r.new (RenameCall.ns c r.new r.newNs)) Rights.REMOVE = true
  beneath : ∀ sub, sub ≠ [] → (v.stat (r.old.comps ++ sub)).isSome = true →
    Rights.contains (c.rightsIn v (r.old.join sub) (RenameCall.ns c (r.old.join sub) r.oldNs)) Rights.REMOVE = true ∧
      Rights.contains (c.rightsIn v (r.new.join sub) (RenameCall.ns c (r.new.join sub) r.newNs)) Rights.CREATE = true

/-- A longer buffer would get another listing. -/
def Overfull (v : Vfs) (path : List Name) : Prop :=
  ∃ more, v.listdir (RENAME_LIST_MAX + more) path ≠ v.listdir RENAME_LIST_MAX path

/-- Whoever asks in enforcing mode, a rename let through is authorised name by name, and one of a directory with a
listing that does not fit, at it or beneath it, is refused. -/
def NameByName (v : Vfs) (old new : RealPath) (replaced : Bool) : Prop :=
  ∀ (c : Caller) (oldNs newNs : Option Rights), c.Enforcing →
    (RenameCall.mayRename c v ⟨old, oldNs, new, newNs, replaced⟩ = true →
      Authorised c v ⟨old, oldNs, new, newNs, replaced⟩) ∧
    ((∃ sub, v.statDir (old.comps ++ sub) = true ∧ Overfull v (old.comps ++ sub)) →
      RenameCall.mayRename c v ⟨old, oldNs, new, newNs, replaced⟩ = false)

def Refused (v : Vfs) (old : List Name) : Prop :=
  ∃ rel, Walks v old [] rel ∧ (RenameCall.cutOff (v.listdir RENAME_LIST_MAX (old ++ rel)) = true ∨
    ∃ name ∈ listed v (old ++ rel), isUtf8 name = false)

/-- The paths beneath `old` whose rights the walk asks for, and `old` itself. -/
inductive Met (v : Vfs) (old : List Name) : List Name → Prop
  | here : Met v old []
  | beneath {rel : List Name} {name : Name} (walks : Walks v old [] rel) (isListed : name ∈ listed v (old ++ rel)) :
      Met v old (rel ++ [name])

/-- What exists beneath `old` is stored where a path the walk meets is stored, under the old name and under the
new one. -/
structure Covered (v : Vfs) (old new : List Name) (replaced : Bool) : Prop where
  removed : ∀ sub, sub ≠ [] → (v.stat (old ++ sub)).isSome = true →
    (∃ met, Met v old met ∧ canonical v (old ++ met) = canonical v (old ++ sub)) ∨
      replaced = true ∧ canonical v new = canonical v (old ++ sub)
  created : ∀ sub, sub ≠ [] → (v.stat (old ++ sub)).isSome = true →
    ∃ met, Met v old met ∧ canonical v (new ++ met) = canonical v (new ++ sub)

end Myos.Sec
