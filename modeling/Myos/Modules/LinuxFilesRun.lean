import Myos.Modules.LinuxFiles

namespace Myos.Modules.LinuxFiles
open Lib

theorem slice_splice (data : Bytes) (pos : Nat) (bytes : Bytes) :
    slice (splice data pos bytes) pos bytes.length = bytes := by
  have length : ((data ++ List.replicate (pos - data.length) 0).take pos).length = pos := by
    rw [List.length_take, List.length_append, List.length_replicate]
    omega
  unfold slice splice
  rw [List.append_assoc, List.drop_append_of_le_length (Nat.le_of_eq length.symm),
    List.drop_of_length_le (Nat.le_of_eq length), List.nil_append, List.take_left]

/-- The file that a positional write on `fd` reaches: the one its recorded path names now, where the policy lets the
caller write. -/
def target (env : Env) (tree : Tree) (paths : List FdPath) (fd : Nat) : Option Nat :=
  (recorded paths fd).bind fun e => ((env.real e.path).filter env.may).bind tree.names

structure Only (node : Nat) (before after : Tree) : Prop where
  names : after.names = before.names
  data : ∀ other, other ≠ node → after.data other = before.data other

namespace Only

variable {node : Nat} {first second third : Tree}

theorem refl (tree : Tree) : Only node tree tree := ⟨rfl, fun _ _ => rfl⟩

theorem trans (left : Only node first second) (right : Only node second third) : Only node first third :=
  ⟨right.names.trans left.names, fun other ne => (right.data other ne).trans (left.data other ne)⟩

theorem setData (tree : Tree) (bytes : Bytes) : Only node tree (tree.setData node bytes) :=
  ⟨rfl, fun _ ne => if_neg ne⟩

end Only

section Write

variable {env : Env} {tree : Tree} {real node : Nat} {paths : List FdPath} {fd : Nat}

def Holds (after : Tree) (node off : Nat) (bytes : Bytes) (answer : Except Errno Nat) : Prop :=
  ∀ n, answer = .ok n → n ≤ bytes.length ∧ slice (after.data node) off n = bytes.take n

theorem writeErrno_some (may : env.may real = true) (named : tree.names real = some node) (pos : Nat) (src : Bytes) :
    Only node tree (writeErrno env tree real pos src).1 ∧
      Holds (writeErrno env tree real pos src).1 node pos src (writeErrno env tree real pos src).2 := by
  unfold writeErrno
  rw [if_neg (by rw [may]; exact Bool.noConfusion), named]
  cases env.accepts pos src.length with
  | error e => exact ⟨.refl tree, fun n absent => by cases absent⟩
  | ok n =>
    refine ⟨.setData tree _, fun m same => ?_⟩
    cases same
    refine ⟨Nat.min_le_right _ _, ?_⟩
    have read := slice_splice (tree.data node) pos (src.take n)
    rw [List.length_take] at read
    show slice (if node = node then _ else _) pos _ = _
    rw [if_pos rfl, read, ← List.take_take, List.take_length]

theorem writeErrno_none (refused : env.may real = false ∨ tree.names real = none) (pos : Nat) (src : Bytes) :
    writeErrno env tree real pos src = (tree, .error Errno.EIO) := by
  unfold writeErrno
  split
  · rfl
  · rename_i may
    rw [refused.resolve_left may]

theorem zeroFill_some (may : env.may real = true) (off fuel last : Nat) (tree : Tree)
    (named : tree.names real = some node) : Only node tree (zeroFill env real off fuel last tree).1 := by
  induction fuel generalizing last tree with
  | zero => exact .refl tree
  | succ fuel ih =>
    unfold zeroFill
    split
    · exact .refl tree
    have written := (writeErrno_some may named last (List.replicate (min (off - last) 4096) 0)).1
    split
    all_goals rename_i made
    all_goals rw [made] at written
    · exact written
    · exact written
    · exact written.trans (ih _ _ ((congrFun written.names real).trans named))

theorem writeAt_some (may : env.may real = true) (named : tree.names real = some node) (off : Nat) (bytes : Bytes) :
    Only node tree (writeAt env tree real off bytes).1 ∧
      Holds (writeAt env tree real off bytes).1 node off bytes (writeAt env tree real off bytes).2 := by
  unfold writeAt
  rw [named]
  have filled := zeroFill_some may off (off - (tree.data node).length) (tree.data node).length tree named
  dsimp only
  split
  all_goals rename_i made
  all_goals rw [made] at filled
  · exact ⟨filled, fun n absent => by cases absent⟩
  · have last := writeErrno_some may ((congrFun filled.names real).trans named) off bytes
    exact ⟨filled.trans last.1, last.2⟩

theorem writeAt_none (refused : env.may real = false) (off : Nat) (bytes : Bytes) :
    ∃ e, writeAt env tree real off bytes = (tree, .error e) := by
  unfold writeAt
  cases tree.names real with
  | none => exact ⟨_, rfl⟩
  | some node =>
    dsimp only
    cases off - (tree.data node).length with
    | zero => exact ⟨_, writeErrno_none (.inl refused) _ _⟩
    | succ fuel =>
      unfold zeroFill
      by_cases reached : off ≤ (tree.data node).length
      · rw [if_pos reached]
        exact ⟨_, writeErrno_none (.inl refused) _ _⟩
      · rw [if_neg reached, writeErrno_none (.inl refused)]
        exact ⟨_, rfl⟩

theorem pwrite_some (reaches : target env tree paths fd = some node) (bytes : Option Bytes) (off : Nat) :
    Only node tree (pwrite env tree paths fd bytes off).1 ∧
      ∀ b, bytes = some b → Holds (pwrite env tree paths fd bytes off).1 node off b (pwrite env tree paths fd bytes off).2 := by
  obtain ⟨e, found, reaches⟩ := Option.bind_eq_some_iff.mp reaches
  obtain ⟨real, allowed, named⟩ := Option.bind_eq_some_iff.mp reaches
  obtain ⟨resolved, may⟩ := Option.filter_eq_some_iff.mp allowed
  unfold pwrite
  rw [found]
  dsimp only
  rw [resolved]
  cases bytes with
  | none => exact ⟨.refl tree, fun b absent => by cases absent⟩
  | some bytes =>
    have written := writeAt_some may named off (bytes.take (2 ^ 20))
    refine ⟨written.1, fun b same n answered => ?_⟩
    cases same
    obtain ⟨few, read⟩ := written.2 n answered
    rw [List.length_take] at few
    refine ⟨by omega, ?_⟩
    rw [read, List.take_take, Nat.min_eq_left (by omega)]

theorem pwrite_none (refused : target env tree paths fd = none) (bytes : Option Bytes) (off : Nat) :
    ∃ e, pwrite env tree paths fd bytes off = (tree, .error e) := by
  unfold pwrite
  cases found : recorded paths fd with
  | none => exact ⟨_, rfl⟩
  | some e =>
    dsimp only
    cases resolved : env.real e.path with
    | none => exact ⟨_, rfl⟩
    | some real =>
      cases bytes with
      | none => exact ⟨_, rfl⟩
      | some bytes =>
        dsimp only
        cases may : env.may real with
        | false => exact writeAt_none may off _
        | true =>
          unfold target at refused
          rw [found, Option.bind_some, resolved, Option.filter_some, may, if_pos rfl, Option.bind_some] at refused
          unfold writeAt
          rw [refused]
          exact ⟨_, rfl⟩

theorem Only.target {after : Tree} (only : Only node tree after) :
    LinuxFiles.target env after paths fd = LinuxFiles.target env tree paths fd := by
  unfold LinuxFiles.target
  rw [only.names]

theorem pwritevLoop_some (off : Nat) (buffers : List (Nat × Option Bytes)) (total : Nat) (tree : Tree)
    (reaches : target env tree paths fd = some node) : Only node tree (pwritevLoop env paths fd off buffers total tree).1 := by
  induction buffers generalizing total tree with
  | nil => exact .refl tree
  | cons buffer rest ih =>
    have written := (pwrite_some reaches buffer.2 (off + total)).1
    unfold pwritevLoop
    split
    all_goals rename_i made
    all_goals rw [made] at written
    · exact written
    · split
      · exact written
      · exact written.trans (ih _ _ (written.target.trans reaches))

theorem copyChunk_some (off : Nat) (chunk : Bytes) (fuel done : Nat) (tree : Tree)
    (reaches : target env tree paths fd = some node) : Only node tree (copyChunk env paths fd off chunk fuel done tree).1 := by
  induction fuel generalizing done tree with
  | zero => exact .refl tree
  | succ fuel ih =>
    have written := (pwrite_some reaches (some (chunk.drop done)) (off + done)).1
    unfold copyChunk
    split
    · exact .refl tree
    split
    all_goals rename_i made
    all_goals rw [made] at written
    · exact written
    · exact written
    · exact written.trans (ih _ _ (written.target.trans reaches))

theorem copyLoop_some (len : Nat) (reads : List (Except Errno Bytes)) (total off : Nat) (tree : Tree)
    (reaches : target env tree paths fd = some node) : Only node tree (copyLoop env paths fd len reads total off tree).1 := by
  induction reads generalizing total off tree with
  | nil => exact .refl tree
  | cons got rest ih =>
    unfold copyLoop
    split
    · exact .refl tree
    split
    · exact .refl tree
    · exact .refl tree
    rename_i b bytes
    have written := copyChunk_some off ((b :: bytes).take (min (len - total) CHUNK))
      ((b :: bytes).take (min (len - total) CHUNK)).length 0 tree reaches
    dsimp only
    split
    · exact written
    · exact written.trans (ih _ _ _ (written.target.trans reaches))

theorem pwritev_some (reaches : target env tree paths fd = some node) (off : Nat) (buffers : List (Nat × Option Bytes)) :
    Only node tree (pwritev env tree paths fd off buffers).1 := by
  unfold pwritev
  split
  · exact .refl tree
  · exact pwritevLoop_some off buffers 0 tree reaches

theorem copyFileRange_some (reaches : target env tree paths fd = some node) (off len flags : Nat) (scratch : Bool)
    (reads : List (Except Errno Bytes)) :
    Only node tree (copyFileRange env tree paths fd off len flags scratch reads).1 := by
  unfold copyFileRange
  split
  · exact .refl tree
  split
  · exact .refl tree
  split
  · exact .refl tree
  · exact copyLoop_some len reads 0 off tree reaches

theorem pwritev_none (refused : target env tree paths fd = none) (off : Nat) {buffers : List (Nat × Option Bytes)}
    (nonempty : buffers ≠ []) : ∃ e, pwritev env tree paths fd off buffers = (tree, .error e) := by
  unfold pwritev
  split
  · exact ⟨_, rfl⟩
  cases buffers with
  | nil => exact absurd rfl nonempty
  | cons buffer rest =>
    obtain ⟨e, failed⟩ := pwrite_none refused buffer.2 (off + 0)
    refine ⟨e, ?_⟩
    unfold pwritevLoop
    rw [failed]

def Gives : List (Except Errno Bytes) → Prop
  | .ok (_ :: _) :: _ => True
  | .error _ :: _ => True
  | _ => False

instance (reads : List (Except Errno Bytes)) : Decidable (Gives reads) :=
  match reads with
  | [] => .isFalse id
  | .ok [] :: _ => .isFalse id
  | .ok (_ :: _) :: _ => .isTrue trivial
  | .error _ :: _ => .isTrue trivial

theorem copyLoop_none (refused : target env tree paths fd = none) {len : Nat} (positive : len ≠ 0) (off : Nat)
    {reads : List (Except Errno Bytes)} (gives : Gives reads) :
    ∃ e, copyLoop env paths fd len reads 0 off tree = (tree, .error e) := by
  match reads, gives with
  | .error e :: rest, _ =>
    refine ⟨e, ?_⟩
    unfold copyLoop
    rw [if_neg (by omega)]
    rfl
  | .ok (b :: bytes) :: rest, _ =>
    have want : 0 < ((b :: bytes).take (min (len - 0) CHUNK)).length := by
      have size : 0 < CHUNK := by decide
      rw [List.length_take, List.length_cons]
      omega
    obtain ⟨e, failed⟩ := pwrite_none refused (Option.some (((b :: bytes).take (min (len - 0) CHUNK)).drop 0)) (off + 0)
    have chunk : copyChunk env paths fd off ((b :: bytes).take (min (len - 0) CHUNK))
        ((b :: bytes).take (min (len - 0) CHUNK)).length 0 tree = (tree, 0, Option.some e) := by
      obtain ⟨fuel, same⟩ := Nat.exists_eq_add_one_of_ne_zero (Nat.ne_of_gt want)
      rw [same]
      unfold copyChunk
      rw [if_neg (by omega), failed]
    refine ⟨e, ?_⟩
    unfold copyLoop
    rw [if_neg (by omega)]
    dsimp only
    rw [chunk]
    exact if_pos (.inl rfl)

end Write

/-- What a positional write should do: with a descriptor open for writing change its file alone, and have the bytes it
counts read back by the same descriptor; else change nothing and fail. -/
def Call.Right (c : Call) : Prop :=
  match c.file with
  | some file =>
    if file.writable then
      (∀ node, node ≠ file.node → c.after node = c.before node) ∧
        ∀ bytes off n, c.single = some (bytes, off) → c.answer = .ok n →
          slice (c.after file.node) off n = bytes.take n ∧
            (file.readable = true → pread c.after file off n = some (bytes.take n))
    else c.after = c.before ∧ ∃ e, c.answer = .error e
  | none => c.after = c.before ∧ ∃ e, c.answer = .error e

namespace State

variable {s : State}

/-- The file that the descriptor's recorded path names now, if the caller may write it, is the one the descriptor is open
on for writing. -/
def Faithful (s : State) (pid fd : Nat) (env : Env) : Prop :=
  ∀ node ∈ target env s.tree (s.paths pid) fd, (s.fileOf pid fd).any fun file => file.node == node && file.writable

def Writes (s : State) (pid fd : Nat) : Prop := (s.fileOf pid fd).any fun file => file.writable

/-- Each positional write is so, and one through a descriptor that is not open for writing has something to write. -/
def Meets (s : State) : Event → Prop
  | .pwrite pid fd _ _ env => s.Faithful pid fd env
  | .pwritev pid fd buffers _ env => s.Faithful pid fd env ∧ (s.Writes pid fd ∨ buffers ≠ [])
  | .copyFileRange pid fd _ len flags scratch reads env =>
    s.Faithful pid fd env ∧ (s.Writes pid fd ∨ flags ≠ 0 ∨ len ≠ 0 ∧ (scratch = false ∨ Gives reads))
  | _ => True

instance (pid fd : Nat) (env : Env) : Decidable (s.Faithful pid fd env) :=
  inferInstanceAs (Decidable (∀ node ∈ target env s.tree (s.paths pid) fd, _))

instance (pid fd : Nat) : Decidable (s.Writes pid fd) := inferInstanceAs (Decidable (_ = true))

instance (event : Event) : Decidable (s.Meets event) := by
  cases event with
  | pwrite pid fd bytes off env => exact inferInstanceAs (Decidable (s.Faithful pid fd env))
  | pwritev pid fd buffers off env | copyFileRange pid fd off len flags scratch reads env =>
    exact inferInstanceAs (Decidable (s.Faithful pid fd env ∧ _))
  | _ => exact .isTrue trivial

variable {env : Env} {fd off pid : Nat}

theorem right_of_target {made : Tree × Except Errno Nat} {single : Option (Bytes × Nat)}
    (faithful : s.Faithful pid fd env)
    (reached : ∀ node, target env s.tree (s.paths pid) fd = some node → Only node s.tree made.1 ∧
      ∀ bytes off, single = some (bytes, off) → Holds made.1 node off bytes made.2)
    (missed : target env s.tree (s.paths pid) fd = none →
      made.1 = s.tree ∧ (∀ bytes off n, single = some (bytes, off) → made.2 ≠ .ok n) ∧
        (s.Writes pid fd ∨ ∃ e, made.2 = .error e)) :
    (Call.mk (s.fileOf pid fd) s.tree.data made.1.data made.2 single).Right := by
  unfold Call.Right
  unfold Writes at missed
  cases reaches : target env s.tree (s.paths pid) fd with
  | some node =>
    have same := faithful node reaches
    obtain ⟨only, holds⟩ := reached node reaches
    cases opened : s.fileOf pid fd with
    | none =>
      rw [opened] at same
      cases same
    | some file =>
      rw [opened] at same
      obtain ⟨sameNode, writable⟩ := Bool.and_eq_true_iff.mp same
      rw [← beq_iff_eq.mp sameNode] at only holds
      dsimp only
      rw [if_pos writable]
      refine ⟨only.data, fun bytes off n single answered => ?_⟩
      have read := (holds bytes off single n answered).2
      exact ⟨read, fun readable => by rw [pread, if_pos readable, read]⟩
  | none =>
    obtain ⟨kept, fails, failed⟩ := missed reaches
    rw [kept]
    cases opened : s.fileOf pid fd with
    | none =>
      rw [opened] at failed
      exact ⟨rfl, failed.resolve_left fun writes => by cases writes⟩
    | some file =>
      rw [opened] at failed
      dsimp only
      split
      · exact ⟨fun _ _ => rfl, fun bytes off n single answered => absurd answered (fails bytes off n single)⟩
      · rename_i plain
        exact ⟨rfl, failed.resolve_left plain⟩

theorem right_pwrite {bytes : Option Bytes} (faithful : s.Faithful pid fd env) :
    (Call.mk (s.fileOf pid fd) s.tree.data (pwrite env s.tree (s.paths pid) fd bytes off).1.data
      (pwrite env s.tree (s.paths pid) fd bytes off).2 (bytes.map fun b => (b, off))).Right := by
  refine right_of_target faithful (fun node reaches => ?_) fun refused => ?_
  · obtain ⟨only, holds⟩ := pwrite_some reaches bytes off
    refine ⟨only, fun b at_ same => ?_⟩
    obtain ⟨b, given, same⟩ := Option.map_eq_some_iff.mp same
    cases same
    exact holds b given
  · obtain ⟨e, failed⟩ := pwrite_none refused bytes off
    rw [failed]
    exact ⟨rfl, fun _ _ _ _ same => (by cases same), .inr ⟨e, rfl⟩⟩

theorem right_pwritev {buffers : List (Nat × Option Bytes)}
    (faithful : s.Faithful pid fd env) (asks : s.Writes pid fd ∨ buffers ≠ []) :
    (Call.mk (s.fileOf pid fd) s.tree.data (pwritev env s.tree (s.paths pid) fd off buffers).1.data
      (pwritev env s.tree (s.paths pid) fd off buffers).2 none).Right := by
  refine right_of_target faithful (fun node reaches => ⟨pwritev_some reaches off buffers, fun _ _ same => by cases same⟩)
    fun refused => ?_
  by_cases empty : buffers = []
  · rw [empty]
    exact ⟨rfl, fun _ _ _ same => (by cases same), .inl (asks.resolve_right fun positive => positive empty)⟩
  · obtain ⟨e, failed⟩ := pwritev_none refused off empty
    rw [failed]
    exact ⟨rfl, fun _ _ _ same => (by cases same), .inr ⟨e, rfl⟩⟩

theorem copyFileRange_none {tree : Tree} {paths : List FdPath}
    (refused : target env tree paths fd = none) (off len flags : Nat) (scratch : Bool) (reads : List (Except Errno Bytes)) :
    (copyFileRange env tree paths fd off len flags scratch reads).1 = tree ∧
      (flags ≠ 0 ∨ len ≠ 0 ∧ (scratch = false ∨ Gives reads) →
        ∃ e, (copyFileRange env tree paths fd off len flags scratch reads).2 = .error e) := by
  unfold copyFileRange
  split
  · exact ⟨rfl, fun _ => ⟨_, rfl⟩⟩
  rename_i plain
  split
  · rename_i missing
    exact ⟨rfl, fun asks => absurd missing (asks.resolve_left plain).1⟩
  rename_i positive
  split
  · exact ⟨rfl, fun _ => ⟨_, rfl⟩⟩
  rename_i mapped
  by_cases gives : Gives reads
  · obtain ⟨e, failed⟩ := copyLoop_none refused positive off gives
    rw [failed]
    exact ⟨rfl, fun _ => ⟨e, rfl⟩⟩
  refine ⟨?_, fun asks => absurd ((asks.resolve_left plain).2.resolve_left mapped) gives⟩
  match reads, gives with
  | [], _ => rfl
  | .ok [] :: rest, _ =>
    unfold copyLoop
    rw [if_neg (by omega)]
  | .ok (_ :: _) :: rest, gives => exact absurd trivial gives
  | .error _ :: rest, gives => exact absurd trivial gives

theorem right_copyFileRange {len flags : Nat} {scratch : Bool} {reads : List (Except Errno Bytes)}
    (faithful : s.Faithful pid fd env)
    (asks : s.Writes pid fd ∨ flags ≠ 0 ∨ len ≠ 0 ∧ (scratch = false ∨ Gives reads)) :
    (Call.mk (s.fileOf pid fd) s.tree.data
      (copyFileRange env s.tree (s.paths pid) fd off len flags scratch reads).1.data
      (copyFileRange env s.tree (s.paths pid) fd off len flags scratch reads).2 none).Right := by
  refine right_of_target faithful
    (fun node reaches => ⟨copyFileRange_some reaches off len flags scratch reads, fun _ _ same => by cases same⟩)
    fun refused => ?_
  have missed := copyFileRange_none refused off len flags scratch reads
  exact ⟨missed.1, fun _ _ _ same => (by cases same), asks.imp_right missed.2⟩

def AllRight (s : State) : Prop := ∀ c ∈ s.calls, c.Right

theorem AllRight.record {single : Option (Bytes × Nat)} {made : Tree × Except Errno Nat} (all : s.AllRight)
    (right : (Call.mk (s.fileOf pid fd) s.tree.data made.1.data made.2 single).Right) :
    (s.record pid fd single made).AllRight := by
  intro c member
  rcases List.mem_cons.mp member with rfl | earlier
  · exact right
  · exact all c earlier

theorem step_calls {event : Event} {next : State} (stepped : s.step event = some next) :
    next.calls = s.calls ∨ (∃ pid fd bytes off env, event = .pwrite pid fd bytes off env) ∨
      (∃ pid fd buffers off env, event = .pwritev pid fd buffers off env) ∨
      ∃ pid fd off len flags scratch reads env, event = .copyFileRange pid fd off len flags scratch reads env := by
  cases event with
  | pwrite pid fd bytes off env => exact .inr (.inl ⟨pid, fd, bytes, off, env, rfl⟩)
  | pwritev pid fd buffers off env => exact .inr (.inr (.inl ⟨pid, fd, buffers, off, env, rfl⟩))
  | copyFileRange pid fd off len flags scratch reads env =>
    exact .inr (.inr (.inr ⟨pid, fd, off, len, flags, scratch, reads, env, rfl⟩))
  | openat pid path fd id real readable writable new =>
    simp only [State.step] at stepped
    split at stepped
    · cases stepped
    split at stepped
    · cases stepped
    split at stepped
    · cases stepped
      exact .inl rfl
    · cases stepped
      exact .inl rfl
    · cases stepped
  | other pid e =>
    simp only [State.step] at stepped
    split at stepped
    · cases stepped
      exact .inl rfl
    · cases stepped
  | _ =>
    cases stepped
    exact .inl rfl

theorem AllRight.step {event : Event} {next : State} (all : s.AllRight) (met : s.Meets event)
    (stepped : s.step event = some next) : next.AllRight := by
  rcases step_calls stepped with same | ⟨pid, fd, bytes, off, env, rfl⟩ | ⟨pid, fd, buffers, off, env, rfl⟩ |
    ⟨pid, fd, off, len, flags, scratch, reads, env, rfl⟩
  · unfold AllRight
    rw [same]
    exact all
  all_goals cases stepped
  · exact all.record (right_pwrite met)
  · exact all.record (right_pwritev met.1 met.2)
  · exact all.record (right_copyFileRange met.1 met.2)

end State

theorem reach_allRight (s : State) (reachable : State.system.Reach State.Meets s) : s.AllRight := by
  refine reachable.invariant (fun _ boot c member => ?_) fun _ _ _ all met stepped => all.step met stepped
  rw [boot.2] at member
  cases member

def fresh : State := ⟨⟨fun n => if n = 1 then some 7 else none, fun _ => []⟩, fun _ => none, fun _ _ => none, fun _ => [], []⟩

def whole : Env := ⟨some, fun _ => true, fun _ len => .ok len⟩

/-- A file opened for both and written past its end. -/
theorem reach_allRight_gap : ∃ s, State.system.Reach State.Meets s ∧ s.AllRight ∧
    s.calls.map (·.answer) = [.ok 2] ∧ s.tree.data 7 = [0, 0, 0, 5, 6] := by
  have booted : State.system.Reach State.Meets fresh := .start ⟨fun _ => rfl, rfl⟩
  have reached := booted.runMeeting [.openat 1 1 3 0 some true true none, .pwrite 1 3 (some [5, 6]) 3 whole] rfl
  exact ⟨_, reached, reach_allRight _ reached, rfl, rfl⟩

/-- A descriptor opened for reading alone writes its file. -/
theorem readonly_writes : ¬ ∀ s, State.system.Reach System.Any s → s.AllRight := by
  intro holds
  have booted : State.system.Reach System.Any fresh := .start ⟨fun _ => rfl, rfl⟩
  have reached := booted.run [.openat 1 1 3 0 some true false none, .pwrite 1 3 (some [5, 6]) 0 whole] rfl
  obtain ⟨e, failed⟩ := (holds _ reached _ (.head _)).2
  cases failed

end Myos.Modules.LinuxFiles
