import Mathlib.Algebra.GroupWithZero.Nat
import Mathlib.Logic.Function.Basic
import Myos.Lib.Consts

/-! The tcp, udp and icmp conversations of `/net`, on the module's side: a slot for each index, the requests to netd and
what netd's replies do. -/

namespace Myos.Modules.Netfs.Net

def MAX_CONV : Nat := 128
def DATA_CAP : Nat := 32768
def TX_CAP : Nat := 32768
def MSG_CAP : Nat := 2048
def REQ_HDR : Nat := 6
def UDP_HDR : Nat := 36
def U16 : Nat := 2 ^ 16

inductive Proto where
  | tcp | udp | icmp
  deriving DecidableEq

/-- A byte with the connection it belongs to. -/
abbrev ConnByte := Nat × Byte

inductive Status where
  | none | cloned | connecting | connected | listening | accepted (id seq : Nat) | hangup | error | text (isOver : Bool)
  deriving DecidableEq

namespace Status

def isOver : Status → Bool
  | hangup | error => true
  | text isOver => isOver
  | _ => false

def hangupish : Status → Bool
  | hangup | error => true
  | _ => false

end Status

structure Conv where
  used : Bool
  closing : Bool
  suppressStaleHangup : Bool
  cloning : Bool
  closePending : Bool
  proto : Proto
  stream : List ConnByte
  datagrams : List (List ConnByte)
  credit : Nat
  status : Status
  txRoom : Nat
  owner : Nat
  refused : Bool
  table : Nat
  conn : Nat

namespace Conv

def EMPTY : Conv := ⟨false, false, false, false, false, .tcp, [], [], 0, .none, TX_CAP, NO_OWNER, false, 0, 0⟩

def dataLen (c : Conv) : Nat := c.stream.length + (c.datagrams.map fun d => 2 + d.length).sum

def bytes (c : Conv) : List ConnByte := c.stream ++ c.datagrams.flatten

def append (c : Conv) (src : List ConnByte) : Conv :=
  match c.proto with
  | .udp => if c.dataLen + (2 + src.length) ≤ DATA_CAP then { c with datagrams := c.datagrams ++ [src] } else c
  | _ => { c with stream := c.stream ++ src.take (DATA_CAP - c.dataLen) }

def take (c : Conv) (hdr : Bool) (room : Nat) : List ConnByte × Nat × Conv :=
  match c.proto, c.datagrams with
  | .udp, d :: rest =>
    let skip := if hdr then 0 else min UDP_HDR d.length
    ((d.drop skip).take room, 2 + d.length, { c with datagrams := rest })
  | .udp, [] => ([], 0, c)
  | _, _ => (c.stream.take room, min room c.stream.length, { c with stream := c.stream.drop room })

end Conv

inductive Ctl where
  | hangup | connect | announce | accept | taken (seq : Option Nat) | other
  deriving DecidableEq

inductive Req where
  | clone | ctl (cmd : Ctl) | send (bytes : List ConnByte) | close | credit (n : Nat)

structure Request where
  id : Nat
  proto : Proto
  conn : Nat
  body : Req

inductive Rep where
  | cloneOk (accepted : Bool) (conn : Nat)
  | data (bytes : List ConnByte)
  | status (s : Status)
  | err (s : Status)
  | txCredit (n conn : Nat)
  | refused
  | peer (keep : List ConnByte → Bool)

inductive Reply where
  | about (id : Nat) (body : Rep)
  | tableStart
  | table (listed : Nat → Bool)

structure State where
  ring : Nat
  req : List Request
  convs : Nat → Conv
  listed : Nat → Bool
  tableGen : Nat
  tableComplete : Bool

namespace State

variable (st : State)

def set (id : Nat) (c : Conv) : State := { st with convs := Function.update st.convs id c }

def enqueue (r : Request) : Option State := if st.req.length < st.ring then some { st with req := st.req ++ [r] } else none

def convOk (uid id : Nat) (p : Proto) : Bool :=
  decide (id < MAX_CONV) && (st.convs id).used && decide ((st.convs id).proto = p) && (st.convs id).owner == uid

def firstFree : Option Nat := (List.range MAX_CONV).find? fun i => !(st.convs i).used

def hungUp : Option Nat := (List.range MAX_CONV).find? fun i =>
  let c := st.convs i
  c.used && !c.closing && c.dataLen == 0 && c.status.isOver

def unlisted : Option Nat :=
  if st.tableComplete then (List.range MAX_CONV).find? fun i =>
    let c := st.convs i
    c.used && !c.cloning && !c.closing && !c.closePending && !st.listed i && decide (2 ≤ st.tableGen - c.table)
  else none

def allocConv : Option Nat := st.firstFree.or (st.hungUp.or st.unlisted)

def cloneLocked (uid : Nat) (p : Proto) (conn : Nat) : State × Option Nat :=
  match st.allocConv with
  | none => (st, none)
  | some i =>
    let taken := st.set i { Conv.EMPTY with used := true, cloning := true, proto := p, owner := uid, table := st.tableGen, conn }
    match taken.enqueue ⟨i, p, conn, .clone⟩ with
    | some asked => (asked, some i)
    | none => (taken.set i .EMPTY, none)

def returnCredit (id : Nat) : State :=
  let c := st.convs id
  if !c.used || c.credit == 0 || (c.dataLen != 0 && decide (c.credit < DATA_CAP / 4)) then st
  else
    match st.enqueue ⟨id, c.proto, c.conn, .credit c.credit⟩ with
    | some asked => asked.set id { c with credit := 0 }
    | none => st

def readLocked (id : Nat) (p : Proto) (hdr peek : Bool) (room : Nat) : State × Option (List ConnByte) :=
  let c := st.convs id
  if !c.used || decide (c.proto ≠ p) || c.refused then (st, none)
  else if c.dataLen = 0 then (st, some [])
  else
    let (out, used, rest) := c.take hdr room
    if peek then (st, some out)
    else ((st.set id { rest with credit := (rest.credit + used) % U16 }).returnCredit id, some out)

def writeLocked (uid id : Nat) (p : Proto) (hdr : Bool) (conn : Nat) (src : List ConnByte) : State × Option Nat :=
  let c := st.convs id
  let max := MSG_CAP - REQ_HDR
  if !st.convOk uid id p then (st, none)
  else
    match p with
    | .udp =>
      let room := if hdr then 0 else UDP_HDR
      if c.refused || decide (max < src.length + room) || decide (src.length + room < UDP_HDR) then (st, none)
      else
        match st.enqueue ⟨id, p, conn, .send (List.replicate room (conn, 0) ++ src)⟩ with
        | some asked => (asked, some src.length)
        | none => (st, none)
    | .tcp =>
      let n := min (min src.length max) c.txRoom
      if n = 0 then (st, none)
      else
        match st.enqueue ⟨id, p, conn, .send (src.take n)⟩ with
        | some asked => (asked.set id { c with txRoom := c.txRoom - n }, some n)
        | none => (st, none)
    | .icmp =>
      if max < src.length ∨ src = [] then (st, none)
      else
        match st.enqueue ⟨id, p, conn, .send src⟩ with
        | some asked => (asked, some src.length)
        | none => (st, none)

def writeCtl (uid id : Nat) (p : Proto) (conn : Nat) (cmd : Ctl) : State :=
  let c := st.convs id
  if !st.convOk uid id p then st
  else
    match cmd with
    | .hangup =>
      if c.closing then st
      else
        match st.enqueue ⟨id, p, c.conn, .close⟩ with
        | some asked => asked.set id { c with status := .hangup, closing := true }
        | none => st.set id { c with status := .hangup }
    | _ => (st.enqueue ⟨id, p, conn, .ctl cmd⟩).getD st

def readCtl (id : Nat) (p : Proto) : State :=
  let c := st.convs id
  if c.used ∧ c.proto = p then st.set id { c with refused := false } else st

def teardownConv (id : Nat) : State :=
  let c := st.convs id
  if !c.used || c.closing then st
  else
    match st.enqueue ⟨id, c.proto, c.conn, .close⟩ with
    | some asked => asked.set id { c with status := .hangup, closing := true }
    | none => st.set id { c with status := .hangup, closePending := true }

def netRelease (uid id : Nat) (p : Proto) : State := if st.convOk uid id p then st.teardownConv id else st

def retryClose (id : Nat) : State :=
  let c := st.convs id
  if !c.used || !c.closePending || c.closing then st
  else
    match st.enqueue ⟨id, c.proto, c.conn, .close⟩ with
    | some asked => asked.set id { c with closePending := false, closing := true }
    | none => st

def retryCloses : State := (List.range MAX_CONV).foldl retryClose st

def cloneOk (id : Nat) (accepted : Bool) (conn : Nat) : State :=
  let c := st.convs id
  if MAX_CONV ≤ id then st
  else if !accepted && c.used && c.closing then st.set id { c with cloning := false }
  else if !c.used || c.closing || accepted then
    st.set id { Conv.EMPTY with
      used := true
      suppressStaleHangup := !accepted
      proto := if !accepted && c.used && !c.closing then c.proto else .tcp
      status := .cloned
      owner := if accepted then NO_OWNER else c.owner
      table := st.tableGen
      conn }
  else st.set id { c with cloning := false, status := if c.status = .none then .cloned else c.status }

def showStatus (id : Nat) (s : Status) : State :=
  let c := st.convs id
  let shown := if s = .none then .connected else s
  st.set id (if c.closing && s != .none && shown.isOver then .EMPTY
    else { c with status := shown, suppressStaleHangup := false })

def passOwner (id accepted : Nat) : State :=
  let a := st.convs accepted
  if accepted < MAX_CONV ∧ a.used then st.set accepted { a with owner := (st.convs id).owner } else st

def statusReply (id : Nat) (s : Status) : State :=
  let c := st.convs id
  if s.hangupish && c.suppressStaleHangup && !c.closing then st.set id { c with suppressStaleHangup := false }
  else
    match s with
    | .accepted accepted _ => (st.showStatus id s).passOwner id accepted
    | _ => st.showStatus id s

def applyReply : Reply → State
  | .tableStart => { st with tableComplete := false }
  | .table listed => { st with listed, tableComplete := true, tableGen := st.tableGen + 1 }
  | .about id (.cloneOk accepted conn) => st.cloneOk id accepted conn
  | .about id body =>
    let c := st.convs id
    if MAX_CONV ≤ id ∨ !c.used ∨ c.cloning then st
    else
      match body with
      | .data bytes => st.set id ({ c with suppressStaleHangup := false }.append bytes)
      | .status s => st.statusReply id s
      | .peer keep => st.set id { c with datagrams := c.datagrams.filter keep }
      | .refused => st.set id { c with refused := true }
      | .txCredit n _ => st.set id { c with txRoom := min (c.txRoom + n) TX_CAP }
      | .err s => st.set id (if c.closing then .EMPTY else { c with status := if s = .none then .error else s })
      | .cloneOk _ _ => st

end State
end Myos.Modules.Netfs.Net
