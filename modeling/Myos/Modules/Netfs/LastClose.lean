import Myos.Modules.Netfs.NetRun
import Myos.Modules.Netfs.UnixLastClose

namespace Myos.Modules.Netfs

namespace Net

theorem State.teardownConv_torn (st : State) (id conn : Nat) : ((st.teardownConv id).convs id).torn conn := by
  unfold State.teardownConv
  dsimp only
  split
  next isOver =>
    rw [Bool.or_eq_true] at isOver
    rcases isOver with unused | closing
    · simp [Conv.torn, unused]
    · simp [Conv.torn, closing]
  · split <;> simp [State.set, Conv.torn]

theorem State.netRelease_torn {st : State} {uid id conn : Nat} {p : Proto} (torn : (st.convs id).torn conn) :
    ((st.netRelease uid id p).convs id).torn conn := by
  unfold State.netRelease
  split
  · exact st.teardownConv_torn id conn
  · exact torn

theorem State.convOk_proto {st : State} {uid id : Nat} {p : Proto} (ok : st.convOk uid id p) : (st.convs id).proto = p := by
  simp only [State.convOk, Bool.and_eq_true, decide_eq_true_eq] at ok
  exact ok.1.2

namespace Run.State

variable {s s' : State}

/-- No conversation outlived its last fd, or ended under an open `data` fd by the close of another. -/
structure EndsOnLast (s : State) : Prop where
  missed : s.faults.missed = false
  cutShort : s.faults.cutShort = false

open Fs.Described in
/-- The last fd on a connection is one on `data`, closed by the conversation's user, with none left on that path. No fd is
closed between another open's fd on its path and the count of it. When the `release` of `data` runs, `data` is not open by
another spelling of the path, nor at all when it runs for an open that failed. -/
def endsByUser (s : State) : Event → Bool
  | .close uid k => (s.fds[k]?).all fun fd =>
    let left := s.fds.eraseIdx k
    s.files.settled (path fd) &&
      (!(fd.file == .data && s.files.releases fd left) || left.all fun other =>
        !(other.id == fd.id && other.proto == fd.proto && other.file == .data) || other.zeros == fd.zeros) &&
      ((left.any fun other => other.id == fd.id && other.conn == fd.conn) || (s.fs.convs fd.id).torn fd.conn ||
        (fd.file == .data && s.fs.convOk uid fd.id fd.proto && left.all fun other => path other != path fd))
  | .failedOpen _ id p file =>
    !(file == .data) || s.fds.all fun fd => !(fd.id == id && fd.proto == p && fd.file == .data)
  | _ => true

structure Ends (s : State) : Prop extends EndsOnLast s where
  counted : s.files.Counted

theorem netRelease_cuts {uid id : Nat} {p : Proto} {held : List Fd}
    (missing : ∀ fd ∈ held, fd.id = id → fd.proto = p → fd.file ≠ .data) :
    s.cuts (s.fs.netRelease uid id p) id held = false := by
  rw [Bool.eq_false_iff]
  intro cut
  simp only [cuts, Bool.and_eq_true, List.any_eq_true, beq_iff_eq, Bool.not_eq_true'] at cut
  obtain ⟨⟨⟨fd, mem, ⟨⟨isId, data⟩, proto⟩, _⟩, whole⟩, torn⟩ := cut
  by_cases ok : s.fs.convOk uid id p = true
  · exact missing fd mem isId (proto.trans (Net.State.convOk_proto ok)) data
  · rw [Net.State.netRelease, if_neg ok, whole] at torn
    cases torn

theorem cuts_same (id : Nat) (held : List Fd) : s.cuts s.fs id held = false := by
  simp [cuts]

section Close

variable {fd : Fd} {uid k : Nat}

theorem closed_torn (left : List Fd) (torn : (s.fs.convs fd.id).torn fd.conn) :
    ((s.closed uid fd left).convs fd.id).torn fd.conn := by
  unfold closed
  split
  · exact Net.State.netRelease_torn torn
  · exact torn

variable (ends : Ends s) (found : s.fds[k]? = some fd) (settled : s.files.settled (Fs.Described.path fd) = true)
include ends found settled

theorem Ends.closed_last (data : fd.file = .data) (ok : s.fs.convOk uid fd.id fd.proto)
    (alone : ∀ other ∈ s.fds.eraseIdx k, Fs.Described.path other ≠ Fs.Described.path fd) :
    ((s.closed uid fd (s.fds.eraseIdx k)).convs fd.id).torn fd.conn := by
  have released := ends.counted.last_releases found settled alone
  simp only [closed, data, released, Net.State.netRelease, ok]
  exact s.fs.teardownConv_torn fd.id fd.conn

theorem Ends.closed_cuts (spelled : fd.file = .data → s.files.releases fd (s.fds.eraseIdx k) = true →
      ∀ other ∈ s.fds.eraseIdx k, other.id = fd.id → other.proto = fd.proto → other.file = .data →
        other.zeros = fd.zeros) :
    s.cuts (s.closed uid fd (s.fds.eraseIdx k)) fd.id (s.fds.eraseIdx k) = false := by
  unfold closed
  split
  next released =>
    rw [Bool.and_eq_true, beq_iff_eq] at released
    refine netRelease_cuts fun other left isId proto data => ?_
    apply ends.counted.releases_last found settled released.2 other left
    change (⟨other.proto, other.id, other.zeros, other.file⟩ : Path) = ⟨fd.proto, fd.id, fd.zeros, fd.file⟩
    rw [proto, isId, spelled released.1 released.2 other left isId proto data, data, released.1]
  · exact cuts_same _ _

end Close

theorem Ends.close {uid k : Nat} (ends : Ends s) (met : s.endsByUser (.close uid k)) (stepped : s.close uid k = some s') :
    Ends s' := by
  refine Lib.mapped stepped fun fd found => ?_
  simp only [endsByUser, found, Option.all_some, Bool.and_eq_true] at met
  obtain ⟨⟨settled, spelled⟩, last⟩ := met
  refine ⟨⟨?_, ?_⟩, ends.counted.closeRef found settled⟩
  · simp only [ends.missed, Bool.false_or, Bool.and_eq_false_imp, Bool.not_eq_true', Bool.not_eq_false']
    intro alone
    simp only [alone, Bool.false_or, Bool.or_eq_true, Bool.and_eq_true, beq_iff_eq, List.all_eq_true, bne_iff_ne] at last
    rcases last with torn | ⟨⟨data, ok⟩, others⟩
    · exact closed_torn _ torn
    · exact ends.closed_last found settled data ok others
  · simp only [ends.cutShort, Bool.false_or]
    refine ends.closed_cuts found settled fun data released other left isId proto isData => ?_
    simp only [data, released, beq_self_eq_true, Bool.and_self, Bool.not_true, Bool.false_or, List.all_eq_true] at spelled
    have zeros := spelled other left
    simpa [isId, proto, isData] using zeros

theorem Ends.failedOpen {uid id : Nat} {p : Proto} {file : File} (ends : Ends s)
    (met : s.endsByUser (.failedOpen uid id p file)) (stepped : s.failedOpen uid id p file = some s') : Ends s' := by
  refine Lib.guarded stepped fun _ => ⟨⟨ends.missed, ?_⟩, ends.counted⟩
  simp only [ends.cutShort, Bool.false_or]
  split
  next data =>
    simp only [endsByUser, data, Bool.not_true, Bool.false_or, List.all_eq_true] at met
    refine netRelease_cuts fun fd mem isId proto isData => ?_
    have shut := met fd mem
    simp [isId, proto, isData] at shut
  · exact cuts_same _ _

theorem Ends.step {e : Event} (ends : Ends s) (met : s.endsByUser e) (stepped : s.step e = some s') : Ends s' := by
  have kept {t : State} (missed : t.faults.missed = s.faults.missed) (cutShort : t.faults.cutShort = s.faults.cutShort)
      (counted : t.files.Counted) : Ends t := ⟨⟨missed.trans ends.missed, cutShort.trans ends.cutShort⟩, counted⟩
  cases e with
  | clone uid p =>
    cases stepped
    exact kept rfl rfl ends.counted
  | openFile uid id zeros p file =>
    refine Lib.guarded stepped fun _ => kept rfl rfl ?_
    dsimp only
    exact ends.counted.add fun _ => rfl
  | openRef j => exact Lib.mapped stepped fun files called => kept rfl rfl (ends.counted.openRef called)
  | failedOpen uid id p file => exact ends.failedOpen met stepped
  | share k => exact Lib.mapped stepped fun files called => kept rfl rfl (ends.counted.share called)
  | close uid k => exact ends.close met stepped
  | read k room =>
    obtain ⟨fd, _, made⟩ := Option.bind_eq_some_iff.mp stepped
    dsimp only at made
    split at made
    · cases made
    · cases made
      exact kept rfl rfl ends.counted
  | write uid k src =>
    obtain ⟨fd, _, made⟩ := Option.bind_eq_some_iff.mp stepped
    exact Lib.guarded made fun _ => kept rfl rfl ends.counted
  | readCtl | writeCtl | look =>
    refine Lib.mapped stepped fun fd _ => ?_
    split <;> exact kept rfl rfl ends.counted
  | apply =>
    simp only [State.step, State.apply] at stepped
    split at stepped
    · cases stepped
    · cases stepped
      refine kept ?_ ?_ ends.counted <;> (dsimp only; split <;> rfl)
  | serve answer =>
    simp only [State.step, State.serve] at stepped
    split at stepped
    · cases stepped
    · have faults := congrArg State.faults (Option.some.inj stepped)
      have files := congrArg State.files (Option.some.inj stepped)
      refine kept ?_ ?_ (files ▸ ends.counted) <;> (rw [← faults]; split <;> rfl)
  | handOff l received =>
    exact Lib.guarded stepped fun _ => kept rfl rfl ends.counted
  | pass p =>
    exact Lib.mapped stepped fun netd _ => kept rfl rfl ends.counted

theorem endsOnLast_of_reach (reachable : system.Reach (fun s e => s.endsByUser e) s) : s.EndsOnLast := by
  have ends : Ends s := by
    refine reachable.invariant ?_ fun _ _ _ ends met stepped => ends.step met stepped
    rintro _ ⟨ring, rfl⟩
    exact ⟨⟨rfl, rfl⟩, Fs.OpenRefs.counted_none⟩
  exact ends.toEndsOnLast

end Run.State
end Net

def pairRun : List Unix.Files.Event :=
  [.clone 0 true, .openFile 0 0 0 .data, .openRef 0, .call 0 (.pair 0 true), .call 0 (.accept 0), .openFile 0 1 0 .data,
    .openRef 0, .share 0, .openFile 0 0 0 .ctl, .openRef 0, .close 5 3, .close 0 0, .close 0 1]

def cloneRun : List Net.Run.Event :=
  [.clone 0 .tcp, .openFile 0 0 0 .tcp .data, .openRef 0, .openFile 0 0 0 .tcp .ctl, .openRef 0, .serve Net.Run.State.calm,
    .apply, .share 0, .close 0 1, .close 5 0, .close 0 0]

theorem pairRun_ends : (Unix.Files.system.runMeeting Unix.Files.State.endsByUser Unix.Files.blank pairRun).isSome := by
  decide +kernel

theorem cloneRun_ends : (Net.Run.system.runMeeting (fun s e => s.endsByUser e = true) (Net.Run.blank 4) cloneRun).isSome := by
  decide +kernel

end Myos.Modules.Netfs
