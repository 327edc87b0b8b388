import Mathlib.Logic.Relation

namespace Myos.Lib

section Guard

variable {α : Type*} {guard : Prop} [Decidable guard] {a b : α} {P : α → Prop}

@[elab_as_elim]
theorem guarded (stepped : (if guard then some a else none) = some b) (holds : guard → P a) : P b := by
  obtain ⟨met, same⟩ := Option.ite_none_right_eq_some.mp stepped
  exact Option.some.inj same ▸ holds met

@[elab_as_elim]
theorem unguarded (stepped : (if guard then none else some a) = some b) (holds : ¬guard → P a) : P b := by
  obtain ⟨met, same⟩ := Option.ite_none_left_eq_some.mp stepped
  exact Option.some.inj same ▸ holds met

@[elab_as_elim]
theorem mapped {β : Type*} {found : Option β} {f : β → α} (stepped : found.map f = some b)
    (holds : ∀ a, found = some a → P (f a)) : P b := by
  obtain ⟨a, isFound, rfl⟩ := Option.map_eq_some_iff.mp stepped
  exact holds a isFound

end Guard

/-- A state machine whose events carry every choice the environment makes; an event that cannot
happen in a state steps to `none`. -/
structure System (σ ε : Type*) where
  start : σ → Prop
  step : σ → ε → Option σ

namespace System

variable {σ ε : Type*} (sys : System σ ε)

/-- The states reached by events that all meet `meets` in the state they happen in. -/
inductive Reach (meets : σ → ε → Prop) : σ → Prop
  | start {state : σ} : sys.start state → Reach meets state
  | next {state next : σ} {event : ε} : Reach meets state → meets state event →
      sys.step state event = some next → Reach meets next

abbrev Any : σ → ε → Prop := fun _ _ => True

def run (state : σ) : List ε → Option σ
  | [] => some state
  | event :: rest => (sys.step state event).bind (fun next => run next rest)

def runMeeting (meets : σ → ε → Prop) [∀ state event, Decidable (meets state event)] (state : σ) :
    List ε → Option σ
  | [] => some state
  | event :: rest =>
    if meets state event then (sys.step state event).bind (fun next => runMeeting meets next rest)
    else none

variable {sys} {meets : σ → ε → Prop}

theorem Reach.invariant {inv : σ → Prop} (base : ∀ state, sys.start state → inv state)
    (preserved : ∀ state event next, inv state → meets state event →
      sys.step state event = some next → inv next)
    {state : σ} (reachable : sys.Reach meets state) : inv state := by
  induction reachable with
  | start initial => exact base _ initial
  | next _ met stepped ih => exact preserved _ _ _ ih met stepped

theorem Reach.runAlways {state final : σ} (reachable : sys.Reach meets state) (events : List ε)
    (always : ∀ event ∈ events, ∀ state, meets state event) (ran : sys.run state events = some final) :
    sys.Reach meets final := by
  induction events generalizing state with
  | nil =>
    cases ran
    exact reachable
  | cons event rest ih =>
    obtain ⟨next, stepped, ran⟩ := Option.bind_eq_some_iff.mp ran
    have now := always event (.head _) state
    exact ih (.next reachable now stepped) (fun later mem => always later (.tail _ mem)) ran

theorem Reach.run {state final : σ} (reachable : sys.Reach Any state) (events : List ε)
    (ran : sys.run state events = some final) : sys.Reach Any final :=
  reachable.runAlways events (fun _ _ _ => trivial) ran

theorem Reach.runMeeting [∀ state event, Decidable (meets state event)] {state final : σ}
    (reachable : sys.Reach meets state) (events : List ε)
    (ran : sys.runMeeting meets state events = some final) : sys.Reach meets final := by
  induction events generalizing state with
  | nil =>
    cases ran
    exact reachable
  | cons event rest ih =>
    simp only [System.runMeeting] at ran
    split at ran
    · rename_i met
      obtain ⟨next, stepped, ran⟩ := Option.bind_eq_some_iff.mp ran
      exact ih (.next reachable met stepped) ran
    · cases ran

end System
end Myos.Lib
