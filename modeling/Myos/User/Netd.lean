import Myos.Modules.Netfs.Net

/-! netd's side of the tcp, udp and icmp conversations. What its sockets do (how much they take, what they received, whether
they are closed) is an argument of each function. -/

namespace Myos.User.Netd

open Myos.Modules.Netfs.Net (ConnByte Proto Status Ctl Req Rep Reply MAX_CONV U16)

def NETFS_RX_CAP : Nat := 32768
def REP_CAP : Nat := 8192
def REP_HDR : Nat := 9

structure Conv where
  kind : Option Proto
  handle : Bool
  haveRemote : Bool
  connected : Bool
  hungup : Bool
  pending : List ConnByte
  listening : Bool
  acceptWait : Bool
  accepted : Option Nat
  acceptedPending : Option Nat
  rxRoom : Nat
  acceptSeq : Nat
  closing : Bool
  closingAfterFlush : Bool
  fromAccept : Bool
  held : Bool
  released : Bool
  conn : Nat

def Conv.EMPTY : Conv :=
  ⟨none, false, false, false, false, [], false, false, none, none, NETFS_RX_CAP, 0, false, false, false, false, false, 0⟩

structure Answer where
  live : Bool
  moved : Nat
  ok : Bool
  line : Status
  peer : Option (List ConnByte → Bool)
  first : List (List (BitVec 8))
  second : List (List (BitVec 8))

structure State where
  convs : Nat → Conv
  rep : List Reply

namespace State

variable (st : State)

def set (i : Nat) (c : Conv) : State := { st with convs := Function.update st.convs i c }

def reply (i : Nat) (body : Rep) : State := { st with rep := st.rep ++ [.about i body] }

def publishHead (l : Nat) (head : Option Nat) : State :=
  let c := st.convs l
  match head with
  | some n =>
    let seq := (c.acceptSeq + 1) % 2 ^ 32
    (st.set l { c with accepted := some n, acceptSeq := seq, acceptWait := false }).reply l (.status (.accepted n seq))
  | none => (st.set l { c with accepted := none }).reply l (.status .listening)

def txCredit (i n : Nat) : State :=
  (List.replicate (n / (U16 - 1)) (U16 - 1) ++ if n % (U16 - 1) = 0 then [] else [n % (U16 - 1)]).foldl
    (fun st m => st.reply i (.txCredit m (st.convs i).conn)) st

def retire (i : Nat) : State :=
  let c := st.convs i
  if c.held && !c.released then st.set i { c with handle := false, hungup := true, closing := true, pending := [] }
  else st.set i .EMPTY

def dropConv (i : Nat) (live : Bool) (moved : Nat) : State :=
  let c := st.convs i
  if c.kind = some .tcp ∧ c.listening then st
  else if c.closing || c.closingAfterFlush then st
  else if c.handle && decide (c.kind = some .tcp) && live then
    let left := c.pending.drop moved
    if left ≠ [] then st.set i { c with pending := left, closingAfterFlush := true }
    else st.set i { c with pending := left, closing := true }
  else st.retire i

def releaseConv (i : Nat) (live : Bool) (moved : Nat) : State :=
  let dropped := st.dropConv i live moved
  let c := dropped.convs i
  if c.closing || c.closingAfterFlush then dropped.set i .EMPTY else dropped

def handleClone (i : Nat) (p : Proto) (conn : Nat) (live : Bool) (moved : Nat) : State :=
  (st.releaseConv i live moved).set i { Conv.EMPTY with kind := some p, handle := true, held := true, conn }

def recv (i : Nat) (received : List (BitVec 8)) : State :=
  let c := st.convs i
  let out := received.take (min c.rxRoom (REP_CAP - REP_HDR))
  if c.kind ≠ some .tcp ∨ !c.handle ∨ out = [] then st
  else (st.set i { c with rxRoom := c.rxRoom - out.length }).reply i (.data (out.map fun b => (c.conn, b)))

def drainTcpRxIntoRep (i : Nat) (received : List (List (BitVec 8))) : State :=
  (received.take 8).foldl (fun st chunk => st.recv i chunk) st

def unpark (i : Nat) (st : State) (l : Nat) : State :=
  let c := st.convs l
  let behind := if c.acceptedPending = some i then none else c.acceptedPending
  if c.accepted = some i then (st.set l { c with acceptedPending := none }).publishHead l behind
  else st.set l { c with acceptedPending := behind }

def forceFreeOrphan (i : Nat) (received : List (List (BitVec 8))) : State :=
  let drained := ((List.range MAX_CONV).foldl (unpark i) st).drainTcpRxIntoRep i received
  let told := if (drained.convs i).kind ≠ none then drained.reply i (.status .hangup) else drained
  told.set i .EMPTY

def freeParked (parked : Option Nat) (received : List (List (BitVec 8))) : State :=
  match parked with
  | some n =>
    if n < MAX_CONV ∧ (st.convs n).fromAccept ∧ !(st.convs n).held then st.forceFreeOrphan n received else st
  | none => st

def closeListener (i : Nat) (first second : List (List (BitVec 8))) : State :=
  let c := st.convs i
  ((st.set i .EMPTY).freeParked c.accepted first).freeParked c.acceptedPending second

def queueFull (l : Nat) : Bool := (st.convs l).accepted.isSome && (st.convs l).acceptedPending.isSome

def queued (n : Nat) : Bool :=
  (List.range MAX_CONV).any fun l => (st.convs l).accepted == some n || (st.convs l).acceptedPending == some n

def firstEmpty : Option Nat := (List.range MAX_CONV).find? fun n => decide ((st.convs n).kind = none)

def victim : Option Nat := (List.range MAX_CONV).find? fun n =>
  let c := st.convs n
  c.fromAccept && !c.held && !c.connected && !c.hungup && !c.closing && !c.closingAfterFlush

def install (l n conn : Nat) : State :=
  let made := { Conv.EMPTY with kind := some .tcp, handle := true, haveRemote := true, fromAccept := true, conn }
  let told := (st.set n made).reply n (.cloneOk true conn)
  if (told.convs l).accepted = none then told.publishHead l (some n)
  else told.set l { told.convs l with acceptedPending := some n }

def unqueue (l v : Nat) : State :=
  let c := st.convs l
  let moved := if c.accepted = some v then { c with accepted := c.acceptedPending, acceptedPending := none } else c
  st.set l (if moved.acceptedPending = some v then { moved with acceptedPending := none } else moved)

def handOff (l conn : Nat) (received : List (List (BitVec 8))) : State :=
  if st.queueFull l then st
  else
    match st.firstEmpty with
    | some n => st.install l n conn
    | none =>
      match st.victim with
      | some v => ((st.forceFreeOrphan v received).unqueue l v).install l v conn
      | none => st

def isListener (i : Nat) : Bool := decide ((st.convs i).kind = some .tcp) && (st.convs i).listening

def republish (i : Nat) : State :=
  match (st.convs i).accepted with
  | some n => st.reply i (.status (.accepted n (st.convs i).acceptSeq))
  | none => st.reply i (.status .listening)

def handleUdpCtl (i : Nat) (cmd : Ctl) (answer : Answer) : State :=
  let named :=
    match cmd, answer.peer with
    | .connect, some keep => (st.set i { st.convs i with haveRemote := true, connected := true }).reply i (.peer keep)
    | _, _ => st
  if answer.ok then named.reply i (.status answer.line) else named.reply i (.err .error)

def taken (i : Nat) (seq : Option Nat) : State :=
  let c := st.convs i
  match c.accepted with
  | none => st.republish i
  | some n =>
    if seq.any (· != c.acceptSeq) then st.republish i
    else
      let held := if n < MAX_CONV then st.set n { st.convs n with held := decide ((st.convs n).kind ≠ none) } else st
      (held.set i { held.convs i with acceptedPending := none }).publishHead i (held.convs i).acceptedPending

def handleCtl (i : Nat) (cmd : Ctl) (answer : Answer) : State :=
  let c := st.convs i
  if cmd = .hangup then
    let told := if c.acceptWait then st.reply i (.err .hangup) else st
    (told.dropConv i answer.live answer.moved).reply i (.status .hangup)
  else if c.kind = some .udp then st.handleUdpCtl i cmd answer
  else
    match cmd with
    | .announce =>
      if c.kind = some .tcp ∧ c.handle ∧ answer.ok then (st.set i { c with listening := true }).reply i (.status .listening)
      else st.reply i (.err (.text false))
    | .taken seq => if st.isListener i then st.taken i seq else st.reply i (.err (.text false))
    | .accept =>
      if !st.isListener i then st.reply i (.err (.text false))
      else if c.accepted = none then (st.reply i (.status .listening)).set i { c with acceptWait := true }
      else st.republish i
    | .connect =>
      match c.kind with
      | some .icmp => (st.set i { c with haveRemote := true, connected := true }).reply i (.status .connected)
      | some .tcp =>
        let named := st.set i { c with haveRemote := true }
        if !c.handle then named
        else if answer.ok then named.reply i (.status .connecting) else named.reply i (.err (.text false))
      | _ => st.reply i (.err (.text false))
    | _ => st.reply i (.err (.text false))

def handleSend (i : Nat) (payload : List ConnByte) (moved : Nat) : State :=
  let c := st.convs i
  match c.kind with
  | some .icmp => if c.haveRemote then st else st.reply i (.err (.text false))
  | some .udp => st
  | some .tcp =>
    if !c.handle then st
    else
      let all := c.pending ++ payload
      (st.set i { c with pending := all.drop moved }).txCredit i (min moved all.length)
  | none => st.reply i (.err (.text false))

def handleReq (r : Modules.Netfs.Net.Request) (answer : Answer) : State :=
  match r.body with
  | .clone => (st.handleClone r.id r.proto r.conn answer.live answer.moved).reply r.id (.cloneOk false r.conn)
  | .ctl cmd => st.handleCtl r.id cmd answer
  | .send payload => st.handleSend r.id payload answer.moved
  | .close =>
    let let_go := st.set r.id { st.convs r.id with released := true }
    (if let_go.isListener r.id then let_go.closeListener r.id answer.first answer.second
      else let_go.releaseConv r.id answer.live answer.moved).reply r.id (.status .hangup)
  | .credit n =>
    let c := st.convs r.id
    st.set r.id { c with rxRoom := min (c.rxRoom + n) NETFS_RX_CAP }

end State

inductive Pass where
  | flush (i moved : Nat)
  | connected (i : Nat)
  | hangup (i : Nat)
  | recv (i : Nat) (received : List (BitVec 8))
  | datagram (i : Nat) (received : List (BitVec 8))
  | refused (i : Nat)
  | finish (i : Nat)
  | drop (i : Nat) (received : List (List (BitVec 8))) (live : Bool) (moved : Nat)
  | orphan (i : Nat) (received : List (List (BitVec 8)))
  | unparkStale (i : Nat)
  | rearm (i : Nat)
  | tableStart
  | table

namespace State

variable (st : State)

def pumped (i : Nat) : Bool :=
  let c := st.convs i
  decide (c.kind = some .tcp) && c.handle && !c.listening

def flush (i moved : Nat) : State :=
  let c := st.convs i
  let left := c.pending.drop moved
  let told := (st.set i { c with pending := left }).txCredit i (min moved c.pending.length)
  if c.closingAfterFlush && left.isEmpty then
    told.set i { told.convs i with closing := true, closingAfterFlush := false }
  else told

def unparkStale (i : Nat) : State :=
  let c := st.convs i
  let gone (n : Nat) : Bool := decide (MAX_CONV ≤ n) || decide ((st.convs n).kind = none)
  let behind := if c.acceptedPending.any gone then none else c.acceptedPending
  if c.accepted.any gone then (st.set i { c with acceptedPending := none }).publishHead i behind
  else st.set i { c with acceptedPending := behind }

def pass : Pass → Option State
  | .flush i moved => if i < MAX_CONV ∧ st.pumped i then some (st.flush i moved) else none
  | .connected i =>
    let c := st.convs i
    if i < MAX_CONV ∧ st.pumped i ∧ !c.connected ∧ !c.hungup then
      some ((st.set i { c with connected := true }).reply i (.status .connected))
    else none
  | .hangup i =>
    let c := st.convs i
    if i < MAX_CONV ∧ st.pumped i ∧ !c.hungup ∧ (c.connected ∨ c.haveRemote ∨ c.fromAccept) then
      some ((st.set i { c with hungup := true }).reply i (.status .hangup))
    else none
  | .recv i received => if i < MAX_CONV ∧ st.pumped i then some (st.recv i received) else none
  | .datagram i received =>
    let c := st.convs i
    if i < MAX_CONV ∧ (c.kind = some .udp ∨ c.kind = some .icmp) ∧ c.handle then
      some (st.reply i (.data (received.map fun b => (c.conn, b))))
    else none
  | .refused i => if i < MAX_CONV ∧ (st.convs i).kind = some .udp then some (st.reply i .refused) else none
  | .finish i =>
    if i < MAX_CONV ∧ ((st.convs i).closing ∨ (st.convs i).closingAfterFlush) then some (st.retire i) else none
  | .drop i received live moved =>
    let c := st.convs i
    if i < MAX_CONV ∧ c.hungup ∧ !c.closing ∧ !c.closingAfterFlush ∧ !c.listening ∧ c.kind ≠ none ∧ !st.queued i then
      some ((st.drainTcpRxIntoRep i received).dropConv i live moved)
    else none
  | .orphan i received =>
    let c := st.convs i
    if i < MAX_CONV ∧ c.kind = some .tcp ∧ !c.listening ∧ c.fromAccept ∧ !c.held ∧ !c.connected ∧ !c.closing ∧
        !c.closingAfterFlush ∧ !c.hungup then
      some (st.forceFreeOrphan i received)
    else none
  | .unparkStale i => if i < MAX_CONV ∧ st.isListener i then some (st.unparkStale i) else none
  | .rearm i =>
    if i < MAX_CONV ∧ st.isListener i then
      some (st.set i { st.convs i with handle := true, connected := false, hungup := false })
    else none
  | .tableStart => some { st with rep := st.rep ++ [.tableStart] }
  | .table => some { st with rep := st.rep ++ [.table fun i => decide ((st.convs i).kind ≠ none)] }

end State
end Myos.User.Netd
