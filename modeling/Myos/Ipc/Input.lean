import Myos.Lib.Ring
import Myos.Lib.System

/-! The serial port's bytes on their way from its interrupt to the console's line discipline. -/

namespace Myos.Ipc.Input
open Lib

def IRQ_RING : Nat := 256

/-- Before which access a CPU that drains the port is, `port` when it has no byte. `UART_RX_LOCK` lets one in. -/
inductive Drain
  | port
  | compare (b : UInt8) (h : Nat)
  | full (b : UInt8) (h : Nat)
  | drop (b : UInt8) (h old : Nat)
  | store (b : UInt8) (h : Nat)
  | publish (h : Nat)

/-- The same of one that polls. `POLL_LOCK` lets one in. -/
inductive Fold
  | tail
  | compare (t : Nat)
  | load (t : Nat)
  | advance (t : Nat) (b : UInt8)
  | push (b : UInt8)

/-- `received` and `pushed` are history: what the port gave and what the line discipline got. -/
structure State where
  head : Nat
  tail : Nat
  buf : Nat → UInt8
  drain : Drain
  fold : Fold
  received : List UInt8
  pushed : List UInt8

inductive Event
  | receive (b : UInt8)
  | drain
  | fold

namespace State

variable (s : State)

def drainNext : Option State :=
  match s.drain with
  | .compare b h => some { s with drain := if (h + 1) % IRQ_RING = s.tail then .full b h else .store b h }
  | .full b h => some { s with drain := .drop b h s.tail }
  | .drop b h old => some { s with tail := (old + 1) % IRQ_RING, drain := .store b h }
  | .store b h => some { s with buf := Function.update s.buf h b, drain := .publish h }
  | .publish h => some { s with head := (h + 1) % IRQ_RING, drain := .port }
  | .port => none

def foldNext : State :=
  match s.fold with
  | .tail => { s with fold := .compare s.tail }
  | .compare t => { s with fold := if t = s.head then .tail else .load t }
  | .load t => { s with fold := .advance t (s.buf t) }
  | .advance t b => { s with tail := (t + 1) % IRQ_RING, fold := .push b }
  | .push b => { s with pushed := s.pushed ++ [b], fold := .tail }

def step : Event → Option State
  -- Only a drain writes `IRQ_HEAD`, so it may as well be loaded here.
  | .receive b => match s.drain with
    | .port => some { s with drain := .compare b s.head, received := s.received ++ [b] }
    | _ => none
  | .drain => s.drainNext
  | .fold => some s.foldNext

/-- No byte comes while the ring is full: its drain moves the tail too, and can move it back. -/
def keepsUp (e : Event) : Bool :=
  match e, s.drain with
  | .drain, .compare _ h => (h + 1) % IRQ_RING ≠ s.tail
  | _, _ => true

def boot : State := ⟨0, 0, fun _ => 0, .port, .tail, [], []⟩

def system : System State Event := ⟨(· = boot), step⟩

end State

/-- The byte a drain has read and not published yet. -/
def Drain.bytes (buf : Nat → UInt8) : Drain → List UInt8
  | .compare b _ | .store b _ => [b]
  | .publish h => [buf h]
  | _ => []

def Drain.Fits (head len : Nat) : Drain → Prop
  | .port => True
  | .compare _ h => h = head
  | .store _ h | .publish h => h = head ∧ len + 1 < IRQ_RING
  | .full .. | .drop .. => False

def Fold.bytes : Fold → List UInt8
  | .push b => [b]
  | _ => []

def Fold.Fits (tail len : Nat) (buf : Nat → UInt8) : Fold → Prop
  | .tail | .push _ => True
  | .compare t => t = tail
  | .load t => t = tail ∧ 0 < len
  | .advance t b => t = tail ∧ 0 < len ∧ b = buf t

theorem Fold.Fits.kept {f : Fold} {tail len len' : Nat} {buf buf' : Nat → UInt8} (fits : f.Fits tail len buf)
    (longer : len ≤ len')
    (same : 0 < len → buf' tail = buf tail) : f.Fits tail len' buf' := by
  cases f with
  | load t => exact ⟨fits.1, Nat.lt_of_lt_of_le fits.2 longer⟩
  | advance t b =>
    obtain ⟨rfl, positive, rfl⟩ := fits
    exact ⟨rfl, Nat.lt_of_lt_of_le positive longer, (same positive).symm⟩
  | _ => exact fits

theorem Drain.Fits.kept {d : Drain} {head len len' : Nat} (fits : d.Fits head len) (shorter : len' ≤ len) : d.Fits head len' := by
  cases d with
  | store b h | publish h => exact ⟨fits.1, Nat.lt_of_le_of_lt (Nat.succ_le_succ shorter) fits.2⟩
  | _ => exact fits

namespace State

variable {s s' : State}

/-- `r` is what is staged, and what a drain or a fold has loaded is what is there still. -/
structure Staged (s : State) (r : Ring UInt8 IRQ_RING) : Prop where
  buf : s.buf = r.buf
  tail : s.tail = r.head
  free : r.len < IRQ_RING
  head : s.head = (r.head + r.len) % IRQ_RING
  drain : s.drain.Fits s.head r.len
  fold : s.fold.Fits r.head r.len r.buf
  bytes : s.received = s.pushed ++ s.fold.bytes ++ r.contents ++ s.drain.bytes r.buf

def Inv (s : State) : Prop := ∃ r, s.Staged r

variable {r : Ring UInt8 IRQ_RING}

theorem Staged.drainNext (staged : s.Staged r) (room : s.keepsUp .drain) (stepped : s.drainNext = some s') : s'.Inv := by
  obtain ⟨buf, tail, free, head, drain, fold, bytes⟩ := staged
  unfold State.drainNext at stepped
  cases at_ : s.drain with rw [at_] at stepped drain bytes
  | port => cases stepped
  | full | drop => cases drain
  | compare b h =>
    simp only [keepsUp, at_, decide_eq_true_eq] at room
    simp only [if_neg room] at stepped
    cases stepped
    refine ⟨r, buf, tail, free, head, ⟨drain, ?_⟩, fold, bytes⟩
    have inside := r.inside
    simp only [IRQ_RING, Drain.Fits] at *
    omega
  | store b h =>
    cases stepped
    have other {i : Nat} (before : i < r.len) : (r.head + i) % IRQ_RING ≠ h := by
      rw [drain.1, head]
      exact Ring.slot_ne _ before free
    let next := { r with buf := Function.update r.buf h b }
    have same : next.contents = r.contents :=
      List.map_congr_left fun i member => Function.update_of_ne (other (List.mem_range.mp member)) ..
    refine ⟨next, by rw [buf], tail, free, head, drain, ?_, ?_⟩
    · refine fold.kept (Nat.le_refl _) fun positive => Function.update_of_ne ?_ ..
      simpa [Nat.mod_eq_of_lt r.inside] using other positive
    · simpa [Drain.bytes, same, next] using bytes
  | publish h =>
    cases stepped
    let next := { r with len := r.len + 1, bounded := free }
    have more : next.contents = r.contents ++ [r.buf h] :=
      Ring.contents_append rfl rfl (fun _ _ => rfl) fun i single => by
        obtain rfl : i = 0 := by simpa using single
        simp [drain.1, head, next]
    refine ⟨next, buf, tail, drain.2, ?_, trivial, ?_, ?_⟩
    · rw [drain.1, head, Nat.mod_add_mod]
      rfl
    · exact fold.kept (Nat.le_succ _) fun _ => rfl
    · simpa [Drain.bytes, more] using bytes

theorem Staged.foldNext (staged : s.Staged r) : s.foldNext.Inv := by
  obtain ⟨buf, tail, free, head, drain, fold, bytes⟩ := staged
  unfold State.foldNext
  cases at_ : s.fold with rw [at_] at fold bytes
  | tail => exact ⟨r, buf, tail, free, head, drain, tail, bytes⟩
  | load t => exact ⟨r, buf, tail, free, head, drain, ⟨fold.1, fold.2, by rw [buf]⟩, bytes⟩
  | compare t =>
    dsimp only
    split
    · exact ⟨r, buf, tail, free, head, drain, trivial, bytes⟩
    · refine ⟨r, buf, tail, free, head, drain, ⟨fold, Nat.pos_of_ne_zero fun missing => ?_⟩, bytes⟩
      simp_all [Fold.Fits, Nat.mod_eq_of_lt r.inside]
  | advance t b =>
    obtain ⟨rfl, positive, rfl⟩ := fold
    have first : r.contents = r.buf r.head :: r.contents.drop 1 := by
      have cut := List.drop_eq_getElem_cons (l := r.contents) (i := 0) (by simpa using positive)
      simpa [Ring.contents, Nat.mod_eq_of_lt r.inside] using cut
    let next : Ring UInt8 IRQ_RING := ⟨r.buf, (r.head + 1) % IRQ_RING, r.len - 1, Nat.mod_lt _ (by decide), by omega⟩
    have rest : next.contents = r.contents.drop 1 := Ring.contents_drop rfl rfl rfl
    refine ⟨next, buf, rfl, Nat.lt_of_le_of_lt (Nat.sub_le ..) free, ?_, drain.kept (Nat.sub_le ..), trivial, ?_⟩
    · rw [head, Nat.mod_add_mod, Nat.add_assoc, Nat.add_sub_cancel' positive]
    · rw [first] at bytes
      simpa [Fold.bytes, rest] using bytes
  | push b => exact ⟨r, buf, tail, free, head, drain, trivial, by simpa [Fold.bytes] using bytes⟩

theorem Staged.step {e : Event} (staged : s.Staged r) (met : s.keepsUp e) (stepped : s.step e = some s') : s'.Inv := by
  cases e with
  | drain => exact staged.drainNext met stepped
  | fold =>
    cases stepped
    exact staged.foldNext
  | receive b =>
    obtain ⟨buf, tail, free, head, drain, fold, bytes⟩ := staged
    simp only [State.step] at stepped
    split at stepped <;> cases stepped
    rename_i at_
    exact ⟨r, buf, tail, free, head, rfl, fold, by simp [bytes, at_, Drain.bytes]⟩

/-- However the two interleave, the bytes come out as they came in: none lost, none twice, and all once the ring is empty. -/
theorem reach_inOrder (reachable : system.Reach (keepsUp · ·) s) :
    s.pushed <+: s.received ∧ (s.drain = .port → s.fold = .tail → s.head = s.tail → s.pushed = s.received) := by
  have inv : s.Inv := by
    refine reachable.invariant ?_ fun _ _ _ ⟨_, staged⟩ met stepped => staged.step met stepped
    rintro _ rfl
    exact ⟨.empty 0 (by decide), rfl, rfl, by decide, rfl, trivial, trivial, rfl⟩
  obtain ⟨r, _, tail, free, head, _, _, bytes⟩ := inv
  refine ⟨?_, fun out done empty => ?_⟩
  · simp [bytes]
  have missing : r.len = 0 := by
    rw [head, tail] at empty
    simp only [IRQ_RING] at *
    omega
  simp [bytes, out, done, missing, Fold.bytes, Drain.bytes, Ring.contents]

def typed : List Event := [.receive 104, .fold, .drain, .drain, .drain, .fold, .fold, .receive 105, .fold, .fold]

theorem reach_inOrder_typed : [104] <+: ((system.runMeeting (keepsUp · ·) boot typed).get (by decide +kernel)).received :=
  (reach_inOrder (System.Reach.runMeeting (.start rfl) typed (Option.some_get _).symm)).1

end State
end Myos.Ipc.Input
