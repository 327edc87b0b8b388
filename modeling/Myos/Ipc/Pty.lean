import Myos.Lib.Consts
import Myos.Lib.Ring
import Myos.Lib.System

namespace Myos.Ipc.Pty
open Lib

def OUT_CAP : Nat := 4096

abbrev OutRing := Ring UInt8 OUT_CAP

namespace OutRing

def new : OutRing := .empty 0 (by decide)

def push (r : OutRing) (b : UInt8) : Option OutRing :=
  if room : r.len < OUT_CAP then
    some ⟨Function.update r.buf ((r.head + r.len) % OUT_CAP) b, r.head, r.len + 1, r.inside, room⟩
  else none

def take (r : OutRing) (size : Nat) : List UInt8 × OutRing :=
  let n := min size r.len
  ((List.range n).map fun i => r.buf ((r.head + i) % OUT_CAP),
    ⟨r.buf, (r.head + n) % OUT_CAP, r.len - n, Nat.mod_lt _ (by decide), (Nat.sub_le _ _).trans r.bounded⟩)

theorem push_contents {r r' : OutRing} {b : UInt8} (pushed : push r b = some r') : r'.contents = r.contents ++ [b] := by
  unfold push at pushed
  split at pushed <;> cases pushed
  rename_i room
  refine Ring.contents_append rfl rfl (fun i inside => Function.update_of_ne (Ring.slot_ne r.head inside room) ..) fun i h => ?_
  cases Nat.lt_one_iff.mp h
  exact Function.update_self ..

theorem push_isSome {r : OutRing} (b : UInt8) (room : r.len < OUT_CAP) : ∃ r', push r b = some r' ∧ r'.len = r.len + 1 :=
  ⟨_, dif_pos room, rfl⟩

theorem push_full {r : OutRing} (b : UInt8) (full : r.len = OUT_CAP) : push r b = none :=
  dif_neg (by omega)

theorem take_contents (r : OutRing) (size : Nat) : (take r size).1 ++ (take r size).2.contents = r.contents := by
  have rest : (take r size).2.contents = r.contents.drop (min size r.len) := Ring.contents_drop rfl rfl rfl
  have first : (take r size).1 = r.contents.take (min size r.len) := by
    simp [take, Ring.contents, ← List.map_take, List.take_range]
  rw [rest, first, List.take_append_drop]

end OutRing

structure Call where
  data : List UInt8
  n : Nat
deriving DecidableEq

structure State where
  crlf : Bool
  ring : OutRing
  read : List UInt8
  returned : List Call
  call : Option Call

inductive Event
  | write (data : List UInt8)
  | turn
  | finish
  | masterRead (size : Nat)

namespace State

variable (s : State)

def advance (c : Call) (ring : OutRing) : State := { s with ring, call := some { c with n := c.n + 1 } }

def turn (c : Call) (b : UInt8) : State :=
  if s.crlf && b == LF then
    match OutRing.push s.ring CR with
    | none => s
    | some ring =>
      match OutRing.push ring LF with
      | none => { s with ring }
      | some ring => s.advance c ring
  else
    match OutRing.push s.ring b with
    | none => s
    | some ring => s.advance c ring

def masterRead (size : Nat) : State :=
  let taken := OutRing.take s.ring size
  { s with read := s.read ++ taken.1, ring := taken.2 }

def step : Event → Option State
  | .write data => if s.call = none then some { s with call := some ⟨data, 0⟩ } else none
  | .turn => s.call.bind fun c => c.data[c.n]?.map (s.turn c)
  | .finish => s.call.bind fun c =>
    if c.n = c.data.length then some { s with returned := s.returned ++ [c], call := none } else none
  | .masterRead size => some (s.masterRead size)

def Start (s : State) : Prop := s.ring.len = 0 ∧ s.read = [] ∧ s.returned = [] ∧ s.call = none

def system : System State Event := ⟨Start, step⟩

def transferred : List UInt8 := (s.returned ++ s.call.toList).flatMap fun c => c.data.take c.n

def expand (crlf : Bool) (bytes : List UInt8) : List UInt8 :=
  bytes.flatMap fun b => if crlf && b == LF then [CR, LF] else [b]

/-- What the ring still holds follows what the master has read, together the bytes that were counted with
each LF expanded; and a write returns once all its bytes are counted. -/
structure Delivers (s : State) : Prop where
  inOrder : s.read <+: expand s.crlf (s.transferred ++ s.call.toList.flatMap fun c => c.data.drop c.n)
  settled : s.call = none → s.read ++ s.ring.contents = expand s.crlf s.transferred
  counted : ∀ c ∈ s.returned, c.n = c.data.length

structure Inv (s : State) : Prop where
  bytes : s.read ++ s.ring.contents = expand s.crlf s.transferred
  counted : ∀ c ∈ s.returned, c.n = c.data.length
  within : ∀ c ∈ s.call, c.n ≤ c.data.length

/-- An LF that is to be expanded does not meet a ring with one free slot. -/
def meets (s : State) : Event → Bool
  | .turn => !s.call.any fun c => c.data[c.n]? == some LF && s.crlf && s.ring.len + 1 == OUT_CAP
  | _ => true

variable {s s' : State}

theorem expand_append (crlf : Bool) (first second : List UInt8) :
    expand crlf (first ++ second) = expand crlf first ++ expand crlf second := List.flatMap_append ..

theorem Inv.advance (inv : s.Inv) {c : Call} {b : UInt8} (isCall : s.call = some c) (next : c.data[c.n]? = some b)
    {ring : OutRing}
    (added : ring.contents = s.ring.contents ++ expand s.crlf [b]) : (s.advance c ring).Inv := by
  obtain ⟨inside, isNext⟩ := List.getElem?_eq_some_iff.mp next
  have more : (s.advance c ring).transferred = s.transferred ++ [b] := by
    simp [transferred, State.advance, isCall, List.take_add_one, next]
  refine ⟨?_, inv.counted, fun c' isC => ?_⟩
  · rw [more, State.advance, added, ← List.append_assoc, inv.bytes, expand_append]
  · cases isC
    exact inside

theorem Inv.turn (inv : s.Inv) {c : Call} {b : UInt8} (isCall : s.call = some c) (next : c.data[c.n]? = some b)
    (met : s.meets .turn = true) : (s.turn c b).Inv := by
  unfold State.turn
  split
  · rename_i expands
    obtain ⟨crlf, isLf⟩ := (Bool.and_eq_true ..).mp expands
    cases beq_iff_eq.mp isLf
    split
    · exact inv
    rename_i first pushed
    have apart : s.ring.len + 1 ≠ OUT_CAP := by simpa [meets, isCall, next, crlf] using met
    have grown := congrArg List.length (OutRing.push_contents pushed)
    rw [Ring.length_contents, List.length_append, Ring.length_contents, List.length_singleton] at grown
    split
    · rename_i full
      have bounded := first.bounded
      obtain ⟨_, pushed, _⟩ := OutRing.push_isSome (r := first) LF (by omega)
      cases full.symm.trans pushed
    · rename_i second pushed'
      refine inv.advance isCall next ?_
      rw [OutRing.push_contents pushed', OutRing.push_contents pushed, List.append_assoc]
      simp [expand, crlf]
  · rename_i plain
    split
    · exact inv
    · rename_i ring pushed
      refine inv.advance isCall next ?_
      rw [OutRing.push_contents pushed, expand, List.flatMap_singleton, if_neg plain]

theorem Inv.step (inv : s.Inv) {event : Event} (met : s.meets event = true) (stepped : s.step event = some s') : s'.Inv := by
  cases event with
  | write data =>
    refine guarded stepped fun idle => ?_
    have same : ({ s with call := some ⟨data, 0⟩ } : State).transferred = s.transferred := by simp [transferred, idle]
    refine ⟨same ▸ inv.bytes, inv.counted, fun c isC => ?_⟩
    cases isC
    exact Nat.zero_le _
  | turn =>
    obtain ⟨c, isCall, stepped⟩ := Option.bind_eq_some_iff.mp stepped
    exact mapped stepped fun b next => inv.turn isCall next met
  | finish =>
    obtain ⟨c, isCall, stepped⟩ := Option.bind_eq_some_iff.mp stepped
    refine guarded stepped fun all => ?_
    refine ⟨?_, fun c' member => ?_, nofun⟩
    · have bytes := inv.bytes
      simp only [transferred, isCall] at bytes
      simpa [transferred] using bytes
    rcases List.mem_append.mp member with old | new
    · exact inv.counted c' old
    · cases List.mem_singleton.mp new
      exact all
  | masterRead size =>
    obtain rfl : s.masterRead size = s' := Option.some.inj stepped
    refine ⟨?_, inv.counted, inv.within⟩
    rw [State.masterRead, List.append_assoc, OutRing.take_contents]
    exact inv.bytes

theorem Inv.delivers (inv : s.Inv) : s.Delivers := by
  refine ⟨?_, fun _ => inv.bytes, inv.counted⟩
  rw [expand_append, ← inv.bytes, List.append_assoc]
  exact List.prefix_append ..

theorem reach_delivers (s : State) (reachable : system.Reach (fun s event => s.meets event = true) s) : s.Delivers := by
  refine Inv.delivers (reachable.invariant (fun s start => ?_) fun _ _ _ inv met stepped => inv.step met stepped)
  obtain ⟨empty, read, returned, idle⟩ := start
  refine ⟨?_, ?_, ?_⟩
  · simp [read, returned, idle, transferred, expand, Ring.contents, empty]
  · simp [returned]
  · simp [idle]

def boot : State := ⟨true, OutRing.new, [], [], none⟩

theorem boot_start : boot.Start := ⟨rfl, rfl, rfl, rfl⟩

theorem reach_delivers_line : ∃ s : State, s.Delivers ∧ s.read = [72, CR, LF] := by
  have start : system.Reach (fun s event => s.meets event = true) boot := .start boot_start
  exact ⟨_, reach_delivers _ (start.runMeeting [.write [72, LF], .turn, .turn, .finish, .masterRead 5] rfl), rfl⟩

theorem turns_plain (k : Nat) : ∀ (s : State) (data : List UInt8) (n : Nat), s.call = some ⟨data, n⟩ → s.ring.len + k ≤ OUT_CAP →
    (∀ i < k, data[n + i]? = some 0) → ∃ ring : OutRing, ring.len = s.ring.len + k ∧
      system.run s (List.replicate k .turn) = some { s with ring, call := some ⟨data, n + k⟩ } := by
  induction k with
  | zero =>
    intro s data n isCall _ _
    refine ⟨s.ring, rfl, ?_⟩
    rw [Nat.add_zero, ← isCall]
    rfl
  | succ k ih =>
    intro s data n isCall room plain
    obtain ⟨ring, pushed, len⟩ := OutRing.push_isSome (r := s.ring) 0 (by omega)
    have turned : system.step s .turn = some (s.advance ⟨data, n⟩ ring) := by
      change s.call.bind _ = _
      have next := plain 0 (Nat.succ_pos k)
      rw [Nat.add_zero] at next
      simp [isCall, next, turn, pushed, LF]
    obtain ⟨last, isLen, ran⟩ := ih (s.advance ⟨data, n⟩ ring) data (n + 1) rfl (by simp only [advance]; omega) fun i less => by
      rw [Nat.add_assoc, Nat.add_comm 1]
      exact plain (i + 1) (by omega)
    refine ⟨last, ?_, ?_⟩
    · simp only [advance] at isLen
      omega
    · rw [List.replicate_succ, System.run, turned, Option.bind_some, ran, Nat.add_right_comm]
      rfl

theorem turn_lf {c : Call} (crlf : s.crlf = true) (isCall : s.call = some c) (next : c.data[c.n]? = some LF) {first : OutRing}
    (pushed : OutRing.push s.ring CR = some first) : system.step s .turn =
      some (match OutRing.push first LF with | none => { s with ring := first } | some ring => s.advance c ring) := by
  change s.call.bind _ = _
  simp [isCall, next, turn, crlf, pushed]

/-- The ring has one slot left when the LF comes: its CR goes out, and once more with the LF. -/
theorem full_ring_doubles_cr : ¬ ∀ s, system.Reach System.Any s → s.Delivers := by
  intro delivers
  obtain ⟨k, size⟩ : ∃ k, k + 1 = OUT_CAP := ⟨4095, rfl⟩
  let data := List.replicate k (0 : UInt8) ++ [LF]
  have lf : data[k]? = some LF := by simp [data]
  have wrote : system.Reach System.Any { boot with call := some ⟨data, 0⟩ } :=
    (System.Reach.start boot_start).run [.write data] rfl
  obtain ⟨ring, len, ran⟩ := turns_plain k { boot with call := some ⟨data, 0⟩ } data 0 rfl (show 0 + k ≤ OUT_CAP by omega)
    fun i less => by simp [data, less, List.getElem?_append_left]
  change ring.len = 0 + k at len
  rw [Nat.zero_add] at ran
  have filled := wrote.run _ ran
  -- the CR takes the last slot, the master empties the ring, and the turn starts over
  obtain ⟨ring₁, pushed₁, len₁⟩ := OutRing.push_isSome (r := ring) CR (by omega)
  have full : OutRing.push ring₁ LF = none := OutRing.push_full LF (by omega)
  have cut : system.Reach System.Any { boot with ring := ring₁, call := some ⟨data, k⟩ } :=
    filled.next trivial ((turn_lf rfl rfl lf pushed₁).trans (by rw [full]))
  obtain ⟨out, ring₂, taken⟩ : ∃ out ring₂, OutRing.take ring₁ OUT_CAP = (out, ring₂) := ⟨_, _, rfl⟩
  have drained := cut.run [.masterRead OUT_CAP] rfl
  rw [masterRead, taken] at drained
  have empty : ring₁.len - min OUT_CAP ring₁.len = ring₂.len := congrArg (·.2.len) taken
  have whole := congrArg List.length (OutRing.take_contents ring₁ OUT_CAP)
  simp only [taken, List.length_append, Ring.length_contents] at whole
  have cap : 1 < OUT_CAP := by decide
  obtain ⟨ring₃, pushed₃, len₃⟩ := OutRing.push_isSome (r := ring₂) CR (by omega)
  obtain ⟨ring₄, pushed₄, len₄⟩ := OutRing.push_isSome (r := ring₃) LF (by omega)
  have again : system.Reach System.Any { boot with read := out, ring := ring₄, call := some ⟨data, k + 1⟩ } :=
    drained.next trivial ((turn_lf rfl rfl lf pushed₃).trans (by rw [pushed₄]; rfl))
  have done : system.Reach System.Any { boot with read := out, ring := ring₄, returned := [⟨data, k + 1⟩] } :=
    again.run [.finish] (by simp [System.run, system, step, data, boot])
  have lengths := congrArg List.length ((delivers _ done).settled rfl)
  have sent : (expand true data).length = k + 2 := by simp [expand, data, LF, List.flatMap_append, List.flatMap_replicate]
  have all : data.take (k + 1) = data := List.take_of_length_le (by simp [data])
  simp only [transferred, boot, Option.toList_none, List.append_nil, List.flatMap_singleton, all, sent, List.length_append,
    Ring.length_contents] at lengths
  omega

end State
end Myos.Ipc.Pty
