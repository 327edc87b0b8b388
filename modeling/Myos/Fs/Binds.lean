import Myos.Fs.Resolve
import Myos.Lib.System

namespace Myos.Fs.Binds
open Lib

abbrev Text := List UInt8

structure Bind where
  target : Text
  source : Text
deriving DecidableEq

def MAX_BIND_HOPS : Nat := 8

def trimStart (path : Text) : Text := path.dropWhile (· == SLASH)

def Bind.applies (path : Text) (b : Bind) : Bool :=
  path == b.target || b.target.isPrefixOf path && path[b.target.length]? == some SLASH

def Bind.replaces (path : Text) (b : Bind) : Text :=
  let rest := path.drop b.target.length
  b.source ++ if b.source = [] then trimStart rest else rest

def rewrite (binds : List Bind) (path : Text) : Option Text :=
  (maxByKey (fun b => b.target.length) (binds.filter (Bind.applies path))).map (Bind.replaces path)

def unbindFrom (binds : List Bind) : Nat → Text → Option Text
  | 0, _ => none
  | hops + 1, path =>
    match rewrite binds path with
    | none => some path
    | some next => unbindFrom binds hops next

def unbind (binds : List Bind) (path : Text) : Option Text := unbindFrom binds MAX_BIND_HOPS path

inductive Event
  | bind (source target : Text) (found : Bool)
  | removeBind (target : Text)

def step (binds : List Bind) : Event → Option (List Bind)
  | .bind source target found =>
    let target := trimStart target
    if target = [] ∨ found = false then some binds
    else some (binds.filter (fun b => b.target != target) ++ [⟨target, trimStart source⟩])
  | .removeBind target => some (binds.filter fun b => b.target != trimStart target)

def system : System (List Bind) Event := ⟨fun binds => binds = [], step⟩

inductive Stops (binds : List Bind) : Nat → Text → Text → Prop
  | here {path : Text} : rewrite binds path = none → Stops binds 0 path path
  | more {n : Nat} {path next final : Text} : rewrite binds path = some next → Stops binds n next final →
      Stops binds (n + 1) path final

def Resolves (binds : List Bind) (path : Text) : Prop :=
  (∀ n final, Stops binds n path final → unbind binds path = some final) ∧
    (unbind binds path = none → ∀ n final, ¬ Stops binds n path final)

variable {binds : List Bind} {n : Nat} {path final : Text}

theorem unbindFrom_of_stops (stops : Stops binds n path final) (hops : Nat) :
    unbindFrom binds hops path = if n < hops then some final else none := by
  induction stops generalizing hops with
  | here done =>
    cases hops with
    | zero => rfl
    | succ hops => simp [unbindFrom, done]
  | more rewritten _ ih =>
    cases hops with
    | zero => rfl
    | succ hops => simp [unbindFrom, rewritten, ih]

theorem resolves_iff_short (binds : List Bind) (path : Text) :
    Resolves binds path ↔ ∀ n final, Stops binds n path final → n < MAX_BIND_HOPS := by
  constructor
  · rintro ⟨found, -⟩ n final stops
    have answer := unbindFrom_of_stops stops MAX_BIND_HOPS
    rw [show unbindFrom binds MAX_BIND_HOPS path = _ from found n final stops] at answer
    exact (Option.ite_none_right_eq_some.mp answer.symm).1
  intro short
  have found {n : Nat} {final : Text} (stops : Stops binds n path final) : unbind binds path = some final :=
    (unbindFrom_of_stops stops MAX_BIND_HOPS).trans (if_pos (short n final stops))
  constructor
  · exact fun n final => found
  · intro missing n final stops
    cases missing.symm.trans (found stops)

def chain : List Bind := (List.range' 97 8).map fun i => ⟨[.ofNat i], [.ofNat (i + 1)]⟩

theorem chain_cut : ¬ ∀ binds, system.Reach System.Any binds → ∀ path, Resolves binds path := by
  intro resolves
  have built : system.Reach System.Any chain :=
    (System.Reach.start rfl).run (chain.map fun b => .bind b.source b.target true) (by decide)
  have stops : Stops chain 8 [97] [105] :=
    .more rfl (.more rfl (.more rfl (.more rfl (.more rfl (.more rfl (.more rfl (.more rfl (.here rfl))))))))
  cases (resolves chain built [97]).1 8 [105] stops

end Myos.Fs.Binds
