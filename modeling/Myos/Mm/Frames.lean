import Mathlib.Algebra.GroupWithZero.Nat
import Mathlib.Tactic.Common
import Myos.Lib.Consts
import Myos.Lib.System

/-! The physical frame allocator: a bump cursor over the usable memory, and a list of freed frames threaded through them.
What panics or never returns steps to `none`. -/

namespace Myos.Mm

open Myos.Lib

def MIN_SIZE : Nat := 64 * 1024 * 1024
def MAX_SIZE : Nat := 1024 * 1024 * 1024
def SKIP : Nat := 64 * 1024
def ANYWHERE : Nat × Nat := (0, U64_MAX)

structure Region where
  base : Nat
  length : Nat
  usable : Bool
  deriving DecidableEq

structure Boot where
  regions : List Region
  kernel : Nat × Nat
  deriving DecidableEq

def alignUp (x : Nat) : Option Nat := if x + 0xfff < 2 ^ 64 then some ((x + 0xfff) / PAGE * PAGE) else none

namespace Boot

variable (boot : Boot)

def usable : List Region := boot.regions.filter (·.usable)

def heapSize : Nat :=
  let total := (boot.usable.map (·.length)).sum
  let largest := (boot.usable.map (·.length)).foldl max 0
  min (min (max (total / 4) MIN_SIZE) MAX_SIZE) (max (largest / 2) MIN_SIZE) / (2 * 1024 * 1024) * (2 * 1024 * 1024)

def allocUsable (size : Nat) : Option Nat :=
  (boot.usable.find? fun e => decide (size + SKIP ≤ e.length)).bind fun e => alignUp (e.base + SKIP)

def heap : Option (Nat × Nat) := (boot.allocUsable boot.heapSize).map fun start => (start, start + boot.heapSize)

def overlapsKernel (phys : Nat) : Bool := decide (phys < boot.kernel.2) && decide (boot.kernel.1 < min (phys + PAGE) U64_MAX)

def inUsable (phys : Nat) : Bool :=
  boot.usable.any fun e => decide (e.base ≤ phys) && decide (min (phys + PAGE) U64_MAX ≤ min (e.base + e.length) U64_MAX)

def usableFrames : Nat := (boot.usable.map (·.length / PAGE)).sum

def userReserve : Nat := min (max (boot.usableFrames / 64) 512) 16384

def Meets (n phys : Nat) : Prop := ∃ i, i < n ∧ boot.overlapsKernel ((phys + i * PAGE) % 2 ^ 64) = true

instance (n phys : Nat) : Decidable (boot.Meets n phys) := inferInstanceAs (Decidable (∃ i, i < n ∧ _))

/-- A run of `n` frames from `phys` on that ends by `top`, past the kernel image if need be. A second run that meets it would
start where that one did, for ever. -/
def place (n need top : Nat) : Nat → Nat → Option (Option Nat)
  | 0, _ => none
  | tries + 1, phys =>
    if min (phys + need) U64_MAX ≤ top then
      if boot.Meets n phys then (alignUp boot.kernel.2).bind (place n need top tries)
      else if phys + need < 2 ^ 64 then some (some phys) else none
    else some none

def placeIn (n need next : Nat) (range : Nat × Nat) : List Region → Option (Option Nat)
  | [] => some none
  | e :: rest =>
    if e.usable then
      if e.base + e.length < 2 ^ 64 then
        (alignUp (max (max e.base next) range.1)).bind fun phys =>
          (boot.place n need (min (e.base + e.length) range.2) 2 phys).bind fun
            | some phys => some (some phys)
            | none => placeIn n need next range rest
      else none
    else placeIn n need next range rest

end Boot

structure State where
  boot : Boot
  heap : Nat × Nat
  next : Nat
  head : Nat
  word : Nat → Nat
  held : List Nat
  allocs : Nat
  frees : Nat

def frames (first n : Nat) : List Nat := (List.range n).map fun i => first + i * PAGE

namespace State

variable (s : State)

def cursor : Nat := if s.next = 0 then s.heap.2 else s.next

def bumpRun (n need : Nat) (range : Nat × Nat) : Option (Option Nat × State) :=
  (alignUp s.cursor).bind fun next =>
    (s.boot.placeIn n need next range s.boot.regions).map fun
      | some phys => (some phys, { s with next := phys + need })
      | none => (none, s)

def give (first n : Nat) : State :=
  { s with word := fun phys => if phys ∈ frames first n then 0 else s.word phys, held := frames first n ++ s.held }

def corrupt (phys : Nat) : Bool := decide (phys % PAGE ≠ 0) || s.boot.overlapsKernel phys || !s.boot.inUsable phys

def popFree : Option (Option Nat × State) :=
  if s.head = 0 then some (none, s)
  else if s.corrupt s.head then none
  else if s.word s.head ≠ 0 ∧ s.corrupt (s.word s.head) then none
  else some (some s.head, { s with head := s.word s.head })

def take : Option (Option Nat × State) :=
  s.popFree.bind fun
    | (some phys, s) => some (some phys, s)
    | (none, s) => s.bumpRun 1 PAGE ANYWHERE

def counted (n : Nat) : Option Nat × State → Option Nat × State
  | (some phys, s) => (some phys, { s.give phys n with allocs := s.allocs + n })
  | (none, s) => (none, s)

def freeFrame (phys : Nat) : State :=
  let s := { s with held := s.held.erase phys }
  if phys = 0 ∨ phys % PAGE ≠ 0 then s
  else if s.boot.overlapsKernel phys then s
  else { s with word := Function.update s.word phys s.head, head := phys, frees := s.frees + 1 }

def giveBack : List Nat → State → Option State
  | [], s => some s
  | phys :: rest, s => if phys ∈ s.held then giveBack rest (s.freeFrame phys) else none

def rawAlloc (back : List Nat) : Option (Option Nat × State) :=
  s.take.bind fun
    | (some phys, s) => some (counted 1 (some phys, s))
    | (none, s) => if back = [] then some (none, s) else (giveBack back s).bind fun s => s.take.map (counted 1)

def scarce : Bool := decide (s.boot.usableFrames ≤ min (s.allocs - s.frees + s.boot.userReserve) U64_MAX)

def bumpDma (n : Nat) (range : Nat × Nat) : Option (Option Nat × State) :=
  if n * PAGE < 2 ^ 64 then (s.bumpRun n (n * PAGE) range).map (counted n) else none

def allocPages (n : Nat) (range : Nat × Nat) (back : List Nat) : Option (Option Nat × State) :=
  if n = 0 then some (none, s)
  else if n = 1 then
    (s.rawAlloc back).bind fun
      | (none, s) => some (none, s)
      | (some phys, s) =>
        if range.1 ≤ phys ∧ min (phys + PAGE) U64_MAX ≤ range.2 then some (some phys, s)
        else (s.freeFrame phys).bumpDma 1 range
  else s.bumpDma n range

end State

inductive Event where
  | allocFrame (back : List Nat)
  | tryAllocFrameUser (early back : List Nat)
  | allocContiguousFrames (n : Nat)
  | allocContiguousPages (n : Nat) (range : Nat × Nat) (back : List Nat)
  | freeFrame (phys : Nat)
  | store (phys value : Nat)

namespace Event

def Fits : Event → Prop
  | allocContiguousFrames n => n < 2 ^ 64
  | allocContiguousPages n range _ => n < 2 ^ 64 ∧ range.1 < 2 ^ 64 ∧ range.2 < 2 ^ 64
  | _ => True

instance : (e : Event) → Decidable e.Fits
  | allocContiguousFrames n => inferInstanceAs (Decidable (n < 2 ^ 64))
  | allocContiguousPages n range _ => inferInstanceAs (Decidable (n < 2 ^ 64 ∧ range.1 < 2 ^ 64 ∧ range.2 < 2 ^ 64))
  | allocFrame _ | tryAllocFrameUser _ _ | freeFrame _ | store _ _ => inferInstanceAs (Decidable True)

def back : Event → List Nat
  | allocFrame back => back
  | tryAllocFrameUser early back => early ++ back
  | allocContiguousPages _ _ back => back
  | _ => []

def wants : Event → Nat × (Nat × Nat)
  | allocContiguousFrames n => (n, ANYWHERE)
  | allocContiguousPages n range _ => (n, range)
  | _ => (1, ANYWHERE)

end Event

namespace State

def call (s : State) : Event → Option (Option Nat × State)
  | .allocFrame back => (s.rawAlloc back).bind fun
      | (some phys, s) => some (some phys, s)
      | (none, _) => none
  | .tryAllocFrameUser early back =>
    (if s.scarce then giveBack early s else some s).bind fun s => if s.scarce then some (none, s) else s.rawAlloc back
  | .allocContiguousFrames n =>
    if n = 0 then some (none, s)
    else (s.bumpRun n (min (n * PAGE) U64_MAX) ANYWHERE).map fun
      | (some phys, s) => (some phys, s.give phys n)
      | (none, s) => (none, s)
  | .allocContiguousPages n range back => s.allocPages n range back
  | .freeFrame phys => if phys ∈ s.held then some (none, s.freeFrame phys) else none
  | .store phys value => if phys ∈ s.held then some (none, { s with word := Function.update s.word phys value }) else none

end State

def Boot.Disjoint (boot : Boot) : Prop :=
  boot.usable.Pairwise fun a b => a.base + a.length ≤ b.base ∨ b.base + b.length ≤ a.base

instance (boot : Boot) : Decidable boot.Disjoint := inferInstanceAs (Decidable (List.Pairwise _ _))

def system : System State Event where
  start s := s.boot.Disjoint ∧ s.boot.heap = some s.heap ∧ s.next = 0 ∧ s.head = 0 ∧ s.held = []
  step s e := if e.Fits then (s.call e).map Prod.snd else none

end Myos.Mm
