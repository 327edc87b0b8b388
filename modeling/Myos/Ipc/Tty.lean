import Myos.Lib.Consts
import Myos.Lib.System

namespace Myos.Ipc.Tty
open Lib

def RING : Nat := 256
def EDIT : Nat := 128

def BS : UInt8 := 8
def TAB : UInt8 := 9
def ESC : UInt8 := 0x1b
def SPACE : UInt8 := 0x20
def DEL : UInt8 := 127

structure Termios where
  icrnl : Bool
  isig : Bool
  icanon : Bool
  echo : Bool
  veof : UInt8
deriving DecidableEq

def Termios.cooked : Termios := ⟨true, true, true, true, 4⟩

def printable (byte : UInt8) : Bool := SPACE ≤ byte && byte ≤ 0x7e

structure TtyIn where
  termios : Termios
  buf : List UInt8
  edit : List UInt8
  eof : Bool
deriving DecidableEq

namespace TtyIn

def new : TtyIn := ⟨.cooked, [], [], false⟩

variable (t : TtyIn)

def setTermios (next : Termios) : TtyIn :=
  { t with termios := next, edit := if t.termios.icanon && !next.icanon then [] else t.edit }

def available : Nat := t.buf.length

def pushCommitted (byte : UInt8) : TtyIn :=
  if t.available + 1 = RING then t else { t with buf := t.buf ++ [byte] }

def commitEdit : TtyIn := { t.edit.foldl pushCommitted t with edit := [] }

def input (raw : UInt8) : UInt8 := if raw = CR ∧ t.termios.icrnl then LF else raw

def echoes (bytes : List UInt8) : List UInt8 := if t.termios.echo then bytes else []

def pushRaw (raw : UInt8) : TtyIn × List UInt8 × Bool :=
  let byte := t.input raw
  if t.termios.icanon ∧ byte = t.termios.veof ∧ byte ≠ 0 then
    (if t.edit = [] then { t with eof := true } else t.commitEdit, [], false)
  else if t.termios.isig ∧ byte = 3 then ({ t with edit := [] }, [], true)
  else if !t.termios.icanon then
    (t.pushCommitted byte,
      if byte ≠ ESC ∧ (byte = LF ∨ byte = TAB ∨ printable byte) then t.echoes [byte] else [], false)
  else if ¬ (byte = LF ∨ byte = TAB ∨ byte = BS ∨ byte = DEL ∨ printable byte) then (t, [], false)
  else if byte = DEL ∨ byte = BS then
    if t.edit = [] then (t, [], false)
    else ({ t with edit := t.edit.dropLast }, t.echoes [BS, SPACE, BS], false)
  else if byte = LF then (t.commitEdit.pushCommitted LF, t.echoes [LF], false)
  else if EDIT ≤ t.edit.length then (t, [], false)
  else ({ t with edit := t.edit ++ [byte] }, t.echoes [byte], false)

def slaveRead (size : Nat) : Option (List UInt8 × TtyIn) :=
  if t.available = 0 ∧ t.eof then some ([], { t with eof := false })
  else if t.buf.take size = [] then none
  else some (t.buf.take size, { t with buf := t.buf.drop size })

def isVeof (raw : UInt8) : Prop := t.input raw = t.termios.veof ∧ t.input raw ≠ 0

def isVintr (raw : UInt8) : Prop := t.termios.isig ∧ t.input raw = 3

instance (raw : UInt8) : Decidable (t.isVeof raw) := inferInstanceAs (Decidable (_ ∧ _))

instance (raw : UInt8) : Decidable (t.isVintr raw) := inferInstanceAs (Decidable (_ ∧ _))

def commits (raw : UInt8) : List UInt8 :=
  if t.isVeof raw then t.edit
  else if t.isVintr raw then []
  else if t.input raw = LF then t.edit ++ [LF]
  else []

def endsInput (raw : UInt8) : Bool := t.isVeof raw ∧ t.edit = []

end TtyIn

inductive Item
  | byte (b : UInt8)
  | eof
deriving DecidableEq

def items (bytes : List UInt8) (eof : Bool) : List Item := bytes.map .byte ++ if eof then [.eof] else []

/-- A terminal with all that was committed to it and what its reads returned, an empty read being an end of file. -/
structure Session where
  tty : TtyIn
  log : List Item
  reads : List (List UInt8)
deriving DecidableEq

inductive Event
  | typed (raw : UInt8)
  | read (size : Nat)
  | setTermios (next : Termios)

namespace Session

variable (s : Session)

/-- Typing that the ring has room for, reads that do not block, and changes that keep ICANON. A read into an
empty buffer returns at once and looks at nothing. -/
def step : Event → Option Session
  | .typed raw =>
    if s.tty.available + (s.tty.commits raw).length < RING then
      some { s with
        tty := (s.tty.pushRaw raw).1
        log := s.log ++ items (s.tty.commits raw) (s.tty.endsInput raw) }
    else none
  | .read size =>
    if size = 0 then some s
    else (s.tty.slaveRead size).map fun (got, tty) => { s with tty, reads := s.reads ++ [got] }
  | .setTermios next => if next.icanon then some { s with tty := s.tty.setTermios next } else none

def boot : Session := ⟨.new, [], []⟩

def system : System Session Event := ⟨(· = boot), step⟩

def delivered : List Item := s.reads.flatMap fun got => items got got.isEmpty

/-- The reads have returned the first of what was committed, in its order; and all of it when none is left. -/
structure Ordered : Prop where
  inOrder : s.delivered <+: s.log
  whole : s.tty.available = 0 → s.tty.eof = false → s.delivered = s.log

/-- No newline and no VEOF is typed while an end of file waits to be read. -/
def meets (s : Session) : Event → Prop
  | .typed raw => s.tty.eof = true → s.tty.input raw ≠ LF ∧ ¬ s.tty.isVeof raw
  | _ => True

instance (event : Event) : Decidable (s.meets event) := by
  cases event <;> unfold meets <;> infer_instance

end Session

namespace TtyIn

variable {t : TtyIn} {raw : UInt8}

theorem foldl_pushCommitted (bytes : List UInt8) (room : t.available + bytes.length < RING) :
    bytes.foldl pushCommitted t = { t with buf := t.buf ++ bytes } := by
  induction bytes generalizing t with
  | nil => simp
  | cons byte bytes ih =>
    rw [available, List.length_cons] at room
    have pushed : t.pushCommitted byte = { t with buf := t.buf ++ [byte] } := if_neg (by rw [available]; omega)
    rw [List.foldl_cons, pushed, ih (by simp only [available, List.length_append, List.length_singleton]; omega)]
    simp

theorem commitEdit_eq (room : t.available + t.edit.length < RING) :
    t.commitEdit = { t with buf := t.buf ++ t.edit, edit := [] } := by
  rw [commitEdit, foldl_pushCommitted _ room]

theorem pushRaw_canonical (canonical : t.termios.icanon = true) (room : t.available + (t.commits raw).length < RING) :
    (t.pushRaw raw).1.buf = t.buf ++ t.commits raw ∧ (t.pushRaw raw).1.eof = (t.eof || t.endsInput raw) ∧
      (t.pushRaw raw).1.termios = t.termios := by
  unfold pushRaw commits endsInput at *
  by_cases veof : t.isVeof raw
  · rw [if_pos veof] at room
    rw [if_pos ⟨canonical, veof⟩, if_pos veof]
    by_cases empty : t.edit = []
    · simp [empty, veof]
    · simp [empty, commitEdit_eq room]
  rw [if_neg veof] at room
  rw [if_neg fun both => veof both.2, if_neg veof]
  by_cases vintr : t.termios.isig ∧ t.input raw = 3
  · rw [if_pos vintr, if_pos (show t.isVintr raw from vintr)]
    simp [veof]
  rw [if_neg (show ¬ t.isVintr raw from vintr)] at room ⊢
  rw [if_neg vintr, if_neg (by simp [canonical])]
  by_cases newline : t.input raw = LF
  · rw [if_pos newline] at room
    rw [List.length_append, List.length_singleton] at room
    have pushed : t.commitEdit.pushCommitted LF = { t with buf := t.buf ++ t.edit ++ [LF], edit := [] } := by
      rw [commitEdit_eq (by omega), pushCommitted, if_neg]
      simp only [available, List.length_append] at room ⊢
      omega
    rw [newline, if_neg (by simp), if_neg (by decide), if_pos rfl, pushed]
    simp [veof]
  · rw [if_neg newline, if_neg newline]
    -- An edit, or a byte that is not taken, stays in the line.
    split
    · simp [veof]
    split
    · split <;> simp [veof]
    split <;> simp [veof]

end TtyIn

namespace Session

variable {s s' : Session}

structure Inv (s : Session) : Prop where
  canonical : s.tty.termios.icanon = true
  pending : s.log = s.delivered ++ items s.tty.buf s.tty.eof

theorem Inv.typed (inv : s.Inv) {raw : UInt8} (met : s.meets (.typed raw))
    (room : s.tty.available + (s.tty.commits raw).length < RING) :
    Inv ⟨(s.tty.pushRaw raw).1, s.log ++ items (s.tty.commits raw) (s.tty.endsInput raw), s.reads⟩ := by
  obtain ⟨buf, eof, termios⟩ := TtyIn.pushRaw_canonical inv.canonical room
  refine ⟨termios ▸ inv.canonical, ?_⟩
  rw [buf, eof, inv.pending, List.append_assoc]
  refine congrArg (s.delivered ++ ·) ?_
  cases waits : s.tty.eof with
  | false => simp [items]
  | true =>
    obtain ⟨notNewline, notVeof⟩ := met waits
    simp [items, TtyIn.commits, TtyIn.endsInput, notNewline, notVeof]

theorem Inv.read (inv : s.Inv) {size : Nat} {got : List UInt8} {tty : TtyIn} (read : s.tty.slaveRead size = some (got, tty)) :
    Inv ⟨tty, s.log, s.reads ++ [got]⟩ := by
  have grown : delivered ⟨tty, s.log, s.reads ++ [got]⟩ = s.delivered ++ items got got.isEmpty := by
    simp [delivered]
  unfold TtyIn.slaveRead at read
  split at read
  · rename_i ended
    cases read
    refine ⟨inv.canonical, ?_⟩
    rw [grown, inv.pending, List.eq_nil_of_length_eq_zero ended.1, ended.2]
    simp [items]
  obtain ⟨positive, made⟩ := Option.ite_none_left_eq_some.mp read
  cases made
  refine ⟨inv.canonical, ?_⟩
  rw [grown, inv.pending, List.append_assoc]
  refine congrArg (s.delivered ++ ·) ?_
  have nonempty : (s.tty.buf.take size).isEmpty = false := by simpa using positive
  rw [nonempty]
  simp only [items, Bool.false_eq_true, if_false, List.append_nil]
  rw [← List.append_assoc, ← List.map_append, List.take_append_drop]

theorem Inv.step (inv : s.Inv) {event : Event} (met : s.meets event) (stepped : s.step event = some s') : s'.Inv := by
  cases event with
  | typed raw =>
    exact guarded stepped fun room => inv.typed met room
  | read size =>
    simp only [Session.step] at stepped
    split at stepped
    · cases stepped
      exact inv
    · obtain ⟨⟨got, tty⟩, read, rfl⟩ := Option.map_eq_some_iff.mp stepped
      exact inv.read read
  | setTermios next =>
    exact guarded stepped fun canonical => ⟨canonical, inv.pending⟩

theorem Inv.ordered (inv : s.Inv) : s.Ordered where
  inOrder := ⟨_, inv.pending.symm⟩
  whole drained open_ := by
    rw [inv.pending, List.eq_nil_of_length_eq_zero drained, open_]
    simp [items]

theorem reach_ordered (s : Session) (reachable : system.Reach meets s) : s.Ordered := by
  refine Inv.ordered (reachable.invariant (fun s start => ?_) fun _ _ _ inv met stepped => inv.step met stepped)
  cases start
  exact ⟨rfl, rfl⟩

/-- A line, an end of file that waits behind it, and a line typed once both have been read. -/
theorem reach_ordered_twoLines : ∃ s, system.Reach meets s ∧ s.Ordered ∧ s.reads = [[97, LF], [], [98]] := by
  have reached := (System.Reach.start rfl : system.Reach meets boot).runMeeting
    [.typed 97, .typed CR, .typed 4, .read 9, .read 9, .typed 98, .typed 4, .read 1] rfl
  exact ⟨_, reached, reach_ordered _ reached, rfl⟩

/-- The end of file comes after the line that was typed behind it. -/
theorem eof_overtaken : ¬ ∀ s, system.Reach System.Any s → s.Ordered := by
  intro ordered
  have reached := (System.Reach.start rfl : system.Reach System.Any boot).run
    [.typed 4, .typed 97, .typed LF, .read 9] rfl
  have inOrder := (ordered _ reached).inOrder
  revert inOrder
  decide

end Session
end Myos.Ipc.Tty
