import Mathlib.Algebra.Group.Int.Defs
import Mathlib.Algebra.GroupWithZero.Nat
import Mathlib.Tactic.Common

namespace Myos.Lib

inductive Fault (ε : Type*) where
  | overflow
  | error (e : ε)
  deriving DecidableEq

/-- A computation on machine integers, held as `Nat`, in which a sum, difference or product that does
not fit its type ends everything. -/
abbrev Checked (ε : Type*) (α : Type*) := Except (Fault ε) α

namespace Checked

universe u

variable {ε : Type*} {α β : Type u}

def fail (e : ε) : Checked ε α := .error (.error e)

def add (width a b : Nat) : Checked ε Nat := if a + b < 2 ^ width then .ok (a + b) else .error .overflow

def sub (a b : Nat) : Checked ε Nat := if b ≤ a then .ok (a - b) else .error .overflow

def mul (width a b : Nat) : Checked ε Nat := if a * b < 2 ^ width then .ok (a * b) else .error .overflow

def addInt (width : Nat) (a b : Int) : Checked ε Int :=
  if -2 ^ (width - 1) ≤ a + b ∧ a + b < 2 ^ (width - 1) then .ok (a + b) else .error .overflow

def neg (width : Nat) (a : Int) : Checked ε Int := if -a < 2 ^ (width - 1) then .ok (-a) else .error .overflow

def addOr (width : Nat) (e : ε) (a b : Nat) : Checked ε Nat := if a + b < 2 ^ width then .ok (a + b) else fail e

def mulOr (width : Nat) (e : ε) (a b : Nat) : Checked ε Nat := if a * b < 2 ^ width then .ok (a * b) else fail e

/-- A computation with no errors of its own, inside one that has some. -/
def lift : Checked Empty α → Checked ε α
  | .ok a => .ok a
  | .error _ => .error .overflow

def Overflows (x : Checked ε α) : Prop := x = .error .overflow

instance (x : Checked ε α) : Decidable (Overflows x) :=
  match x with
  | .ok _ => .isFalse nofun
  | .error .overflow => .isTrue rfl
  | .error (.error _) => .isFalse nofun

def Safe (x : Checked ε α) (post : α → Prop) : Prop :=
  match x with
  | .ok a => post a
  | .error .overflow => False
  | .error (.error _) => True

variable {x : Checked ε α} {f : α → Checked ε β} {post : α → Prop} {last : β → Prop} {width a b : Nat}

theorem Safe.not_overflows (safe : Safe x post) : ¬ Overflows x := by
  intro overflow
  rw [overflow] at safe
  exact safe

theorem safe_of_not_overflows (safe : ¬ Overflows x) : Safe x fun a => x = .ok a := by
  cases x with
  | ok a => rfl
  | error fault =>
    cases fault with
    | overflow => exact absurd rfl safe
    | error e => trivial

theorem Safe.cases (safe : Safe x post) : (∃ a, x = .ok a ∧ post a) ∨ ∃ e, x = .error (.error e) := by
  cases x with
  | ok a => exact .inl ⟨a, rfl, safe⟩
  | error fault =>
    cases fault with
    | overflow => exact safe.elim
    | error e => exact .inr ⟨e, rfl⟩

/-- The state a call leaves: the one it found after an error, `stopped` after an overflow. -/
def settle {σ : Type*} (found stopped : σ) (next : α → σ) : Checked ε α → σ
  | .ok out => next out
  | .error (.error _) => found
  | .error .overflow => stopped

theorem Safe.settle {σ : Type*} {inv : σ → Prop} {found stopped : σ} {next : α → σ} (safe : Safe x post)
    (holds : inv found) (keeps : ∀ out, post out → inv (next out)) : inv (x.settle found stopped next) := by
  rcases safe.cases with ⟨out, rfl, good⟩ | ⟨e, rfl⟩
  · exact keeps out good
  · exact holds

theorem Safe.ok {a : α} (safe : Safe x post) (returned : x = .ok a) : post a := by
  rw [returned] at safe
  exact safe

theorem Safe.bind (first : Safe x post) (next : ∀ a, post a → Safe (f a) last) : Safe (x >>= f) last := by
  cases x with
  | ok a => exact next a first
  | error fault =>
    cases fault with
    | overflow => exact first
    | error e => trivial

theorem Safe.mono {weaker : α → Prop} (safe : Safe x post) (weakens : ∀ a, post a → weaker a) : Safe x weaker := by
  cases x with
  | ok a => exact weakens a safe
  | error fault =>
    cases fault with
    | overflow => exact safe
    | error e => trivial

theorem safe_add (fits : a + b < 2 ^ width) : Safe (add width a b : Checked ε Nat) (· = a + b) := by
  rw [add, if_pos fits]
  rfl

theorem safe_sub (fits : b ≤ a) : Safe (sub a b : Checked ε Nat) (· = a - b) := by
  rw [sub, if_pos fits]
  rfl

theorem safe_mul (fits : a * b < 2 ^ width) : Safe (mul width a b : Checked ε Nat) (· = a * b) := by
  rw [mul, if_pos fits]
  rfl

variable {γ : Type} {g : Nat → Checked ε γ} {goal : γ → Prop}

theorem Safe.add (fits : a + b < 2 ^ width) (next : Safe (g (a + b)) goal) : Safe (add width a b >>= g) goal := by
  rw [Checked.add, if_pos fits]
  exact next

theorem Safe.sub (fits : b ≤ a) (next : Safe (g (a - b)) goal) : Safe (sub a b >>= g) goal := by
  rw [Checked.sub, if_pos fits]
  exact next

theorem Safe.mul (fits : a * b < 2 ^ width) (next : Safe (g (a * b)) goal) : Safe (mul width a b >>= g) goal := by
  rw [Checked.mul, if_pos fits]
  exact next

theorem safe_addInt {c d : Int} (fits : -2 ^ (width - 1) ≤ c + d ∧ c + d < 2 ^ (width - 1)) :
    Safe (addInt width c d : Checked ε Int) (· = c + d) := by
  rw [addInt, if_pos fits]
  rfl

theorem safe_neg {c : Int} (fits : -c < 2 ^ (width - 1)) : Safe (neg width c : Checked ε Int) (· = -c) := by
  rw [neg, if_pos fits]
  rfl

theorem safe_addOr (e : ε) : Safe (addOr width e a b) fun c => c = a + b ∧ c < 2 ^ width := by
  unfold addOr
  split
  · rename_i fits
    exact ⟨rfl, fits⟩
  · trivial

theorem safe_mulOr (e : ε) : Safe (mulOr width e a b) fun c => c = a * b ∧ c < 2 ^ width := by
  unfold mulOr
  split
  · rename_i fits
    exact ⟨rfl, fits⟩
  · trivial

theorem overflows_bind : Overflows (x >>= f) ↔ Overflows x ∨ ∃ a, x = .ok a ∧ Overflows (f a) := by
  cases x with
  | ok a =>
    constructor
    · exact fun overflow => .inr ⟨a, rfl, overflow⟩
    rintro (overflow | ⟨_, same, overflow⟩)
    · cases overflow
    · cases same
      exact overflow
  | error fault =>
    constructor
    · exact fun overflow => .inl (congrArg Except.error (Except.error.inj overflow))
    · rintro (overflow | ⟨_, same, _⟩)
      · exact congrArg Except.error (Except.error.inj overflow)
      · cases same

/-- It returns or overflows, with no error of its own. -/
def Settles (x : Checked ε α) : Prop := (∃ a, x = .ok a) ∨ Overflows x

theorem settles_lift (x : Checked Empty α) : Settles (lift x : Checked ε α) := by
  cases x with
  | ok a => exact .inl ⟨a, rfl⟩
  | error fault => exact .inr rfl

theorem lift_eq_ok {x : Checked Empty α} {a : α} (returned : (lift x : Checked ε α) = .ok a) : x = .ok a := by
  cases x with
  | ok b =>
    cases returned
    rfl
  | error fault => cases returned

theorem Settles.bind (first : Settles x) (next : ∀ a, Settles (f a)) : Settles (x >>= f) := by
  rcases first with ⟨a, rfl⟩ | overflow
  · exact next a
  · exact .inr (overflows_bind.mpr (.inl overflow))

theorem settles_foldlM {σ : Type u} {step : σ → α → Checked ε σ} (each : ∀ s a, Settles (step s a)) (l : List α) (s : σ) :
    Settles (l.foldlM step s) := by
  induction l generalizing s with
  | nil => exact .inl ⟨s, rfl⟩
  | cons a l ih => exact (each s a).bind ih

theorem ok_bind (a : α) (f : α → Checked ε β) : ((.ok a : Checked ε α) >>= f) = f a := rfl

theorem error_bind (fault : Fault ε) (f : α → Checked ε β) : ((.error fault : Checked ε α) >>= f) = .error fault := rfl

theorem bind_congr_ok {g : α → Checked ε β} (same : ∀ a, x = .ok a → f a = g a) : x >>= f = x >>= g := by
  cases x with
  | ok a => exact same a rfl
  | error fault => rfl

theorem add_eq_ok {c : Nat} (added : (add width a b : Checked ε Nat) = .ok c) : c = a + b := by
  unfold add at added
  split at added
  all_goals cases added
  rfl

theorem bind_eq_ok {c : β} : (x >>= f) = .ok c ↔ ∃ a, x = .ok a ∧ f a = .ok c := by
  cases x with
  | ok a =>
    constructor
    · exact fun returned => ⟨a, rfl, returned⟩
    · rintro ⟨_, same, returned⟩
      cases same
      exact returned
  | error fault =>
    constructor
    · intro returned
      cases returned
    · rintro ⟨_, same, _⟩
      cases same

def Returns (x : Checked ε α) (post : α → Prop) : Prop := ∃ a, x = .ok a ∧ post a

theorem Returns.pure {a : α} (holds : post a) : Returns (Pure.pure a : Checked ε α) post := ⟨a, rfl, holds⟩

theorem Returns.bind (first : Returns x post) (next : ∀ a, post a → Returns (f a) last) : Returns (x >>= f) last := by
  obtain ⟨a, rfl, holds⟩ := first
  exact next a holds

theorem Returns.mono {weaker : α → Prop} (returns : Returns x post) (weakens : ∀ a, post a → weaker a) : Returns x weaker := by
  obtain ⟨a, returned, holds⟩ := returns
  exact ⟨a, returned, weakens a holds⟩

theorem Returns.ite {c : Prop} [Decidable c] {y : Checked ε α} (yes : c → Returns x post) (no : ¬c → Returns y post) :
    Returns (if c then x else y) post := by
  split
  · exact yes ‹_›
  · exact no ‹_›

theorem Returns.add (fits : a + b < 2 ^ width) (next : Returns (g (a + b)) goal) : Returns (add width a b >>= g) goal := by
  rwa [Checked.add, if_pos fits]

theorem Returns.sub (fits : b ≤ a) (next : Returns (g (a - b)) goal) : Returns (sub a b >>= g) goal := by
  rwa [Checked.sub, if_pos fits]

theorem Returns.mul (fits : a * b < 2 ^ width) (next : Returns (g (a * b)) goal) : Returns (mul width a b >>= g) goal := by
  rwa [Checked.mul, if_pos fits]

theorem returns_mapM {δ : Type*} {g : δ → Checked ε α} {list : List δ} (each : ∀ c ∈ list, Returns (g c) fun _ => True) :
    Returns (list.mapM g) fun _ => True := by
  induction list with
  | nil => exact ⟨[], rfl, trivial⟩
  | cons c rest ih =>
    rw [List.mapM_cons]
    apply Returns.bind (each c (.head _))
    intro a _
    apply Returns.bind (ih fun c mem => each c (.tail _ mem))
    exact fun _ _ => .pure trivial

end Checked
end Myos.Lib
