import Myos.Modules.Netfs.UnixFiles

namespace Myos.Modules.Netfs.Unix

namespace Table

variable {t : Table}

theorem finish_hangs (wf : t.Wf) {id p : Nat} (peer : (t.conv id).peer = some p) :
    ((t.finish id).1.conv p).phase = .hangup := by
  rw [finish_ne _ (wf.peers id p peer).1.symm, if_pos peer]
  rfl

theorem Kept.hung {a b : Conv} (kept : Kept a b) (isOver : a.phase = .hangup) : b.phase = .hangup := by
  rcases kept with rfl | rfl
  · exact isOver
  · rfl

theorem finishAll_peer (wf : t.Wf) {queue : List Nat} {id p : Nat} (peer : (t.conv id).peer = some p) (stays : p ∉ queue) :
    ((t.finishAll queue).1.conv id).peer = some p ∨ ((t.finishAll queue).1.conv p).phase = .hangup := by
  induction queue generalizing t with
  | nil => exact .inl peer
  | cons q rest ih =>
    rw [List.mem_cons, not_or] at stays
    change ((((t.finish q).1.finishAll rest).1.conv id).peer = some p) ∨
      (((t.finish q).1.finishAll rest).1.conv p).phase = .hangup
    by_cases same : id = q
    · subst same
      exact .inr (((t.finish id).1.finishAll_kept stays.2).hung (finish_hangs wf peer))
    refine ih (wf.finish q) ?_ stays.2
    -- Only `p` has `id` for a peer, and `p` stays.
    have other : (t.conv q).peer ≠ some id := by
      intro linked
      have back := (wf.peers q id linked).2.1
      exact stays.1 (Option.some.inj (peer.symm.trans back))
    rw [finish_ne _ same, if_neg other]
    exact peer

theorem release_hangs (wf : t.Wf) {uid id p : Nat} (own : t.own uid id = true) (peer : (t.conv id).peer = some p)
    (stays : p ∉ (t.conv id).queue) : ((t.release uid id).1.conv p).phase = .hangup := by
  rw [t.release_own own]
  have apart := (wf.peers id p peer).1
  rcases finishAll_peer wf peer stays with still | isOver
  · exact finish_hangs (wf.finishAll _) still
  · exact (finish_kept _ apart.symm).hung isOver

theorem release_free {uid id : Nat} (own : t.own uid id = true) : ((t.release uid id).1.conv id).phase = .free := by
  rw [t.release_own own, finish_same]
  rfl

end Table

namespace Files.State

variable {s s' : State}

/-- No close left its conversation behind or its peer unaware, or ended a conversation with an open `data` fd. -/
structure EndsOnLast (s : State) : Prop where
  missed : s.missed = false
  silent : s.silent = false
  cutShort : s.cutShort = false

open Fs.Described in
/-- The last fd on a conversation is one on its `data`, closed by its user, with none of an earlier conversation of its
number left on that path. No fd is closed between another open's fd on its path and the count of it. When the `release` of
`data` runs for the conversation's user, `data` is not open by another spelling of the path, an open that failed being one
more reason for it to run, nor that of a conversation in the queue. -/
def endsByUser (s : State) : Event → Prop
  | .close uid k => ∀ fd ∈ s.fds[k]?, s.files.settled (path fd) = true ∧
      (fd.file = .data → s.files.releases fd (s.fds.eraseIdx k) = true → s.table.own uid fd.id = true →
        (∀ other ∈ s.fds.eraseIdx k, other.id = fd.id → other.file = .data → other.zeros = fd.zeros) ∧
        ∀ q ∈ (s.table.conv fd.id).queue, q ≠ fd.id → s.dataHeld q = false) ∧
      (fd.birth = s.birth fd.id → s.held (s.fds.eraseIdx k) fd.id = false → (s.table.conv fd.id).phase = .free ∨
        fd.file = .data ∧ s.table.own uid fd.id = true ∧ ∀ other ∈ s.fds.eraseIdx k, path other ≠ path fd)
  | .failedOpen uid id file => file = .data → s.table.own uid id = true →
      s.dataHeld id = false ∧ ∀ q ∈ (s.table.conv id).queue, s.dataHeld q = false
  | _ => True

instance (s : State) : (e : Event) → Decidable (s.endsByUser e)
  | .close _ k => inferInstanceAs (Decidable (∀ fd ∈ s.fds[k]?, _))
  | .failedOpen .. => inferInstanceAs (Decidable (_ → _ → _))
  | .clone .. | .openFile .. | .openRef .. | .share .. | .call .. => isTrue trivial

structure Ends (s : State) : Prop extends EndsOnLast s where
  wf : s.table.Wf
  counted : s.files.Counted

theorem Ends.release (ends : Ends s) {uid id : Nat}
    (unopened : s.table.own uid id = true → ∀ q, q = id ∨ q ∈ (s.table.conv id).queue → s.dataHeld q = false) :
    Ends (s.release uid id) := by
  refine ⟨⟨ends.missed, ?_, ?_⟩, ends.wf.release uid id, ends.counted⟩
  · simp only [State.release, ends.silent, Bool.false_or, decide_eq_false_iff_not]
    rintro ⟨isOver, p, peer, stays, unheard⟩
    by_cases own : s.table.own uid id = true
    · exact unheard (Table.release_hangs ends.wf own peer stays)
    · rw [s.table.release_other own] at isOver
      rw [ends.wf.blank id isOver] at peer
      cases peer
  simp only [State.release, ends.cutShort, Bool.false_or, List.any_eq_false, Bool.and_eq_true, decide_eq_true_eq]
  rintro q _ ⟨held, used, isOver⟩
  by_cases own : s.table.own uid id = true
  · by_cases ended : q = id ∨ q ∈ (s.table.conv id).queue
    · rw [unopened own q ended] at held
      cases held
    · rw [not_or] at ended
      exact (Table.release_kept _ ended.1 ended.2).used used isOver
  · rw [s.table.release_other own] at isOver
    exact used isOver

section Close

variable {fd : Fd} {uid k : Nat} (ends : Ends s) (found : s.fds[k]? = some fd)
  (settled : s.files.settled (Fs.Described.path fd) = true)
include ends found settled

theorem Ends.closed (unopened : fd.file = .data → s.files.releases fd (s.fds.eraseIdx k) = true →
      s.table.own uid fd.id = true →
        (∀ other ∈ s.fds.eraseIdx k, other.id = fd.id → other.file = .data → other.zeros = fd.zeros) ∧
        ∀ q ∈ (s.table.conv fd.id).queue, q ≠ fd.id → s.dataHeld q = false) :
    Ends (s.closed uid fd (s.fds.eraseIdx k)) := by
  have gone : Ends { s with files := s.files.closeRef fd (s.fds.eraseIdx k) } :=
    ⟨⟨ends.missed, ends.silent, ends.cutShort⟩, ends.wf, ends.counted.closeRef found settled⟩
  unfold State.closed
  dsimp only
  split
  next released =>
    rw [Bool.and_eq_true, beq_iff_eq] at released
    refine gone.release fun own q ended => ?_
    obtain ⟨spelled, queue⟩ := unopened released.1 released.2 own
    simp only [State.dataHeld, List.any_eq_false, Bool.and_eq_true, beq_iff_eq] at queue ⊢
    rintro other left ⟨⟨isId, birth⟩, data⟩
    by_cases same : q = fd.id
    · -- the count went by this spelling of the path, and there is no other
      subst same
      apply ends.counted.releases_last found settled released.2 other left
      change (⟨other.id, other.zeros, other.file⟩ : Path) = ⟨fd.id, fd.zeros, fd.file⟩
      rw [isId, spelled other left isId data, data, released.1]
    · exact queue q (ended.resolve_left same) same other (List.mem_of_mem_eraseIdx left) ⟨⟨isId, birth⟩, data⟩
  · exact gone

theorem Ends.closed_free (last : (s.table.conv fd.id).phase = .free ∨ fd.file = .data ∧ s.table.own uid fd.id = true ∧
      ∀ other ∈ s.fds.eraseIdx k, Fs.Described.path other ≠ Fs.Described.path fd) :
    ((s.closed uid fd (s.fds.eraseIdx k)).table.conv fd.id).phase = .free := by
  unfold State.closed
  dsimp only
  rcases last with isOver | ⟨data, own, alone⟩
  · split
    · change ((s.table.release uid fd.id).1.conv fd.id).phase = .free
      rw [s.table.release_other fun own => (Table.own_used own).1 isOver]
      exact isOver
    · exact isOver
  · rw [data, ends.counted.last_releases found settled alone]
    exact Table.release_free own

end Close

theorem Ends.close (ends : Ends s) {uid k : Nat} (met : s.endsByUser (.close uid k))
    (stepped : s.close uid k = some s') : Ends s' := by
  refine Lib.mapped stepped fun fd found => ?_
  obtain ⟨settled, unopened, last⟩ := met fd found
  have after := ends.closed found settled unopened
  refine ⟨⟨?_, after.silent, after.cutShort⟩, after.wf, after.counted⟩
  dsimp only
  rw [ends.missed, Bool.false_or, Bool.eq_false_iff]
  intro there
  simp only [Bool.and_eq_true, beq_iff_eq, Bool.not_eq_true', decide_eq_true_eq] at there
  exact there.2 (ends.closed_free found settled (last there.1.1 there.1.2))

theorem call_frame {uid : Nat} {op : Op} (stepped : s.call uid op = some s') :
    s'.table = (s.table.apply uid op).1 ∧ s'.files = s.files ∧ s'.missed = s.missed ∧ s'.silent = s.silent ∧
      s'.cutShort = s.cutShort := by
  cases op with
  | clone | release => cases stepped
  | seqpacket | announce | hangup | read | write | norights =>
    cases stepped
    exact ⟨rfl, rfl, rfl, rfl, rfl⟩
  | connect | pair | accept =>
    simp only [State.call] at stepped
    split at stepped <;> (rw [← Option.some.inj stepped]; exact ⟨rfl, rfl, rfl, rfl, rfl⟩)

theorem Ends.step (ends : Ends s) {e : Event} (met : s.endsByUser e) (stepped : s.step e = some s') : Ends s' := by
  have kept {files : Fs.OpenRefs Fd Path} (counted : files.Counted) : Ends { s with files } :=
    ⟨⟨ends.missed, ends.silent, ends.cutShort⟩, ends.wf, counted⟩
  cases e with
  | clone uid heap =>
    simp only [State.step] at stepped
    split at stepped
    next id table new =>
      cases stepped
      exact ⟨⟨ends.missed, ends.silent, ends.cutShort⟩, ends.wf.alloc new, ends.counted⟩
    · exact Option.some.inj stepped ▸ ends
  | openFile uid id zeros file =>
    simp only [State.step] at stepped
    split at stepped
    · cases stepped
      exact kept (ends.counted.add fun _ => rfl)
    · exact Option.some.inj stepped ▸ ends
  | openRef j => exact Lib.mapped stepped fun files called => kept (ends.counted.openRef called)
  | failedOpen uid id file =>
    cases stepped
    unfold State.failedOpen
    split
    next undone =>
      rw [Bool.and_eq_true, beq_iff_eq] at undone
      obtain ⟨here, queue⟩ := met undone.2 undone.1
      refine ends.release fun _ q ended => ?_
      rcases ended with rfl | waits
      · exact here
      · exact queue q waits
    · exact ends
  | share k => exact Lib.mapped stepped fun files called => kept (ends.counted.share called)
  | close uid k => exact ends.close met stepped
  | call uid op =>
    obtain ⟨table, files, missed, silent, cutShort⟩ := call_frame stepped
    refine ⟨⟨missed.trans ends.missed, silent.trans ends.silent, cutShort.trans ends.cutShort⟩, ?_, ?_⟩
    · rw [table]
      exact ends.wf.apply uid op
    · rw [files]
      exact ends.counted

theorem ends_blank : Ends blank := ⟨⟨rfl, rfl, rfl⟩, Table.wf_empty, Fs.OpenRefs.counted_none⟩

theorem endsOnLast_of_reach (reachable : system.Reach endsByUser s) : s.EndsOnLast := by
  have ends : Ends s := by
    refine reachable.invariant ?_ fun _ _ _ ends met stepped => ends.step met stepped
    rintro _ rfl
    exact ends_blank
  exact ends.toEndsOnLast

end Files.State
end Myos.Modules.Netfs.Unix
