import Myos.Modules.Netfs.NetTagged

namespace Myos.Modules.Netfs.Net

namespace State

theorem applyReply_lives (st : State) (reply : Reply) : Lives st (st.applyReply reply) := by
  cases reply with
  | tableStart | table listed => exact fun _ live => live
  | about id body =>
    rcases Run.State.applyReply_cases st id body with moved | ⟨c, made, live, _⟩
    · exact (moved fun _ _ => True).lives not_false
    · exact made ▸ .set live

theorem netRelease_lives {id other : Nat} (st : State) (uid : Nat) (p : Proto) (apart : other ≠ id)
    (live : (st.convs other).live) : ((st.netRelease uid id p).convs other).live := by
  unfold netRelease teardownConv
  dsimp only
  split
  · split
    · exact live
    split
    next asked =>
      rw [enqueue_some asked]
      simpa [State.set, Function.update_of_ne apart] using live
    · simpa [State.set, Function.update_of_ne apart] using live
  · exact live

theorem netRelease_keeps {id other uid : Nat} {p : Proto} (st : State)
    (unowned : other = id → st.convOk uid id p = true → False) (live : (st.convs other).live) :
    ((st.netRelease uid id p).convs other).live := by
  by_cases same : other = id
  · rw [netRelease, if_neg (unowned same)]
    exact live
  · exact st.netRelease_lives uid p same live

theorem cloneLocked_lives {st : State} {uid : Nat} {p : Proto} {conn : Nat}
    (unused : ∀ id, st.allocConv = some id → (st.convs id).used = false) : Lives st (st.cloneLocked uid p conn).1 := by
  unfold cloneLocked
  cases found : st.allocConv with
  | none => exact fun _ live => live
  | some i =>
    have dead {c : Conv} : (st.convs i).live → c.live := by
      simp [Conv.live, unused i found]
    dsimp only
    split
    next asked =>
      rw [enqueue_some asked]
      exact Lives.set dead
    · intro other live
      by_cases here : other = i
      · subst here
        exact absurd live (by simp [Conv.live, unused other found])
      · simpa [State.set, Function.update_of_ne here] using live

end State

namespace Run.State

open Relation Myos.Lib Myos.User

variable {s s' : State}

/-- No index was taken for a second connection while an fd on it was open or a clone of it under way, and no byte went to or
came from another connection than its fd's. -/
structure KeepsApart (s : State) : Prop where
  clash : s.faults.clash = false
  stray : s.faults.stray = false

/-- An index is taken only when unknown; `hangup` is not written to `ctl`; `data` is released for the conversation's user,
at the last close of a spelling of its path or after an open that failed, only with no other fd on the index open; and
files are opened only on a conversation nobody closed. -/
def endsLast (s : State) (e : Event) : Bool :=
  s.takesUnknown e &&
    match e with
    | .openFile _ id _ _ _ => (s.fs.convs id).live
    | .failedOpen uid id p file => !(file == .data && s.fs.convOk uid id p) || !s.fds.any (·.id == id)
    | .close uid k => (s.fds[k]?).all fun fd =>
      let left := s.fds.eraseIdx k
      !(fd.file == .data && s.files.releases fd left && s.fs.convOk uid fd.id fd.proto) || !left.any (·.id == fd.id)
    | .writeCtl _ _ cmd => decide (cmd ≠ .hangup)
    | _ => true

structure Whose (s : State) : Prop where
  whose : ∀ id, ∃ cur p, Known cur p (s.view id) ∧ Tagged cur (s.view id) ∧ ∀ fd ∈ s.fds, fd.id = id → fd.conn = cur
  live : ∀ fd ∈ s.fds, (s.fs.convs fd.id).live
  clash : s.faults.clash = false
  stray : s.faults.stray = false

def fdConns (s : State) (id conn : Nat) : Prop := ∃ fd ∈ s.fds, fd.id = id ∧ fd.conn = conn

variable {e : Event} {id uid : Nat} {p : Proto}

variable (whose : Whose s)
include whose

theorem Whose.unheld (unused : (s.fs.convs id).used = false) : ∀ fd ∈ s.fds, fd.id ≠ id := by
  rintro fd mem rfl
  have live := whose.live fd mem
  simp [Conv.live, unused] at live

omit whose in
theorem Whose.steps {v v' : View} {cur : Nat} (known : Known cur p v) (tagged : Tagged cur v)
    (mine : ∀ conn, s.fdConns id conn → conn = cur) (steps : Steps (s.fdConns id) (∀ conn, ¬s.fdConns id conn) v v') :
    ∃ cur p, Known cur p v' ∧ Tagged cur v' ∧ ∀ conn, s.fdConns id conn → conn = cur := by
  induction steps with
  | refl => exact ⟨cur, p, known, tagged, mine⟩
  | tail _ step ih =>
    obtain ⟨cur, p, known, tagged, mine⟩ := ih
    have bound {v v' : View} {conn : Nat} {q : Proto} (free : ∀ conn, ¬s.fdConns id conn) (bind : Bind conn q v v') :
        ∃ cur p, Known cur p v' ∧ Tagged cur v' ∧ ∀ conn, s.fdConns id conn → conn = cur :=
      ⟨conn, q, .bind bind, .bind bind, fun other held => absurd held (free other)⟩
    rcases tagged.step known mine step with still | ⟨free, _, _, bind⟩
    · rcases known.step step with same | ⟨free, _, _, bind⟩
      · exact ⟨cur, p, same, still, mine⟩
      · exact bound free bind
    · exact bound free bind

theorem Whose.conn_eq {fd : Fd} (mem : fd ∈ s.fds) : (s.fs.convs fd.id).conn = fd.conn := by
  obtain ⟨cur, p, known, _, mine⟩ := whose.whose fd.id
  have live := whose.live fd mem
  simp only [Conv.live, Bool.and_eq_true] at live
  exact (known.slot live.1.1).1.trans (mine fd mem rfl).symm

theorem Whose.unknown_free (unknown : s.unknown id) : ∀ conn, ¬s.fdConns id conn := by
  rintro conn ⟨fd, mem, same, _⟩
  exact whose.unheld (unknown_iff.mp unknown).1 fd mem same

theorem Whose.unknown_taken (unknown : s.unknown id) : s.taken id = false := by
  obtain ⟨unused, _, req, rep⟩ := unknown_iff.mp unknown
  have free : s.fds.any (·.id == id) = false := by
    rw [List.any_eq_false]
    intro fd mem same
    exact whose.unheld unused fd mem (eq_of_beq same)
  simp [taken, free, req, rep]

theorem Whose.led (unknown : s.takesUnknown e) (stepped : s.step e = some s') :
    ∀ id, ∃ cur p, Known cur p (s'.view id) ∧ Tagged cur (s'.view id) ∧ ∀ conn, s.fdConns id conn → conn = cur := by
  intro id
  have moved : Leads s.fdConns (fun id => ∀ conn, ¬s.fdConns id conn) s s' :=
    step_leads (fun _ unknown => whose.unknown_free unknown) unknown (fun fd mem => ⟨fd, mem, rfl, rfl⟩) stepped
  obtain ⟨cur, p, known, tagged, mine⟩ := whose.whose id
  refine Whose.steps known tagged ?_ (moved id)
  rintro conn ⟨fd, mem, same, rfl⟩
  exact mine fd mem same

omit whose in
theorem readLocked_bytes {st : Net.State} {hdr peek : Bool} {room : Nat} {out : List ConnByte}
    (done : (st.readLocked id p hdr peek room).2 = some out) : (st.convs id).used ∧ ∀ b ∈ out, b ∈ (st.convs id).bytes := by
  unfold Net.State.readLocked at done
  dsimp only at done
  split at done
  · cases done
  next ok =>
    simp only [Bool.or_eq_true, not_or, Bool.not_eq_true', Bool.not_eq_false] at ok
    refine ⟨ok.1.1, ?_⟩
    have taken := (take_bytes (st.convs id) hdr room).1
    split at done
    · cases done
      exact fun _ mem => nomatch mem
    split at done
    · cases done
      exact taken
    · cases done
      exact taken

theorem Whose.of_fds (unknown : s.takesUnknown e) (stepped : s.step e = some s')
    (fds : ∀ fd ∈ s'.fds, (s'.fs.convs fd.id).live ∧ (fd ∈ s.fds ∨ (s'.fs.convs fd.id).conn = fd.conn))
    (clash : s'.faults.clash = false) (stray : s'.faults.stray = false) : Whose s' where
  whose id := by
    obtain ⟨cur, p, known, tagged, mine⟩ := whose.led unknown stepped id
    refine ⟨cur, p, known, tagged, fun fd mem same => ?_⟩
    obtain ⟨live, old | conn⟩ := fds fd mem
    · exact mine fd.conn ⟨fd, old, same, rfl⟩
    simp only [Conv.live, Bool.and_eq_true] at live
    have slot := known.slot (same ▸ live.1.1)
    exact conn.symm.trans (same ▸ slot.1)
  live fd mem := (fds fd mem).1
  clash := clash
  stray := stray

theorem Whose.same (unknown : s.takesUnknown e) (stepped : s.step e = some s')
    (fds : s'.fds = s.fds) (lives : s.fs.Lives s'.fs) (clash : s'.faults.clash = false) (stray : s'.faults.stray = false) :
    Whose s' := by
  refine whose.of_fds unknown stepped (fun fd mem => ?_) clash stray
  rw [fds] at mem
  exact ⟨lives fd.id (whose.live fd mem), .inl mem⟩

theorem Whose.add {new : Fd} (unknown : s.takesUnknown e) (stepped : s.step e = some s')
    (fds : s'.fds = s.fds ++ [new]) (lives : s.fs.Lives s'.fs) (live : (s'.fs.convs new.id).live)
    (conn : (s'.fs.convs new.id).conn = new.conn) (clash : s'.faults.clash = false) (stray : s'.faults.stray = false) :
    Whose s' := by
  refine whose.of_fds unknown stepped (fun fd mem => ?_) clash stray
  rw [fds] at mem
  rcases List.mem_append.mp mem with old | added
  · exact ⟨lives fd.id (whose.live fd old), .inl old⟩
  · rw [List.mem_singleton.mp added]
    exact ⟨live, .inr conn⟩

theorem Whose.clone (unknown : s.takesUnknown (.clone uid p)) :
    Whose (s.clone uid p) := by
  have allocated : ∀ id, s.fs.allocConv = some id → s.unknown id := by
    intro id found
    simpa [takesUnknown, found] using unknown
  have lives : s.fs.Lives (s.clone uid p).fs :=
    Net.State.cloneLocked_lives fun id found => (unknown_iff.mp (allocated id found)).1
  have clash : (s.clone uid p).faults.clash = false := by
    simp only [State.clone, whose.clash, Bool.false_or]
    cases found : s.fs.allocConv with
    | none => rfl
    | some id => exact whose.unknown_taken (allocated id found)
  exact whose.same (e := .clone uid p) unknown rfl rfl lives clash whose.stray

theorem Whose.read {k room : Nat} (stepped : s.step (.read k room) = some s') : Whose s' := by
  obtain ⟨fd, found, made⟩ := Option.bind_eq_some_iff.mp stepped
  dsimp only at made
  split at made
  · cases made
  have same := Option.some.inj made
  have goes := s.fs.readLocked_goes s.fdConns False fd.id fd.proto (fd.file == .hdata) (fd.file == .peek) room
  apply whose.same (e := .read k room) rfl stepped
  · rw [← same]
  · rw [← same]
    exact goes.lives not_false
  · rw [← same]
    exact whose.clash
  rw [← same]
  simp only [whose.stray, Bool.false_or, List.any_eq_false, bne_iff_ne, ne_eq, not_not]
  cases out : (s.fs.readLocked fd.id fd.proto (fd.file == .hdata) (fd.file == .peek) room).2 with
  | none => exact fun _ mem => nomatch mem
  | some bytes =>
    intro b mem
    have held := List.mem_of_getElem? found
    obtain ⟨used, sub⟩ := readLocked_bytes out
    obtain ⟨cur, p, known, tagged, mine⟩ := whose.whose fd.id
    exact (tagged.slot used b (sub b mem)).trans (mine fd held rfl).symm

theorem Whose.serve {answer : Netd.Answer} (stepped : s.step (.serve answer) = some s') : Whose s' := by
  have made := stepped
  simp only [State.step, State.serve] at made
  split at made
  · cases made
  next r rest head =>
    have same := Option.some.inj made
    have lives : s.fs.Lives { s.fs with req := rest }.retryCloses :=
      (Net.State.retryCloses_goes s.fdConns False { s.fs with req := rest }).lives not_false
    have faults := congrArg State.faults same
    have kept : s'.faults.clash = false ∧ s'.faults.stray = false := by
      rw [← faults]
      cases body : r.body with
      | send bytes =>
        refine ⟨whose.clash, ?_⟩
        simp only [whose.stray, Bool.false_or, Bool.and_eq_false_imp, List.any_eq_false, owns]
        intro _ b mem
        obtain ⟨cur, p, known, tagged, _⟩ := whose.whose r.id
        have sent := tagged.sends r (by simp [view, head, reqsAbout]) bytes body b mem
        cases kind : (s.netd.convs r.id).kind with
        | none => simp
        | some k =>
          have same : (s.netd.convs r.id).conn = b.1 := (known.net k kind).1.trans sent.symm
          simp [same]
      | _ => exact ⟨whose.clash, whose.stray⟩
    have fds := congrArg State.fds same
    have fs := congrArg State.fs same
    dsimp only at fds fs
    apply whose.same (e := .serve answer) rfl stepped fds.symm
    · rw [← fs]
      exact lives
    · exact kept.1
    · exact kept.2

theorem Whose.close {k : Nat} (met : s.endsLast (.close uid k))
    (stepped : s.step (.close uid k) = some s') : Whose s' := by
  obtain ⟨fd, found, rfl⟩ := Option.map_eq_some_iff.mp stepped
  refine whose.of_fds rfl stepped (fun other mem => ⟨?_, .inl (List.mem_of_mem_eraseIdx mem)⟩) whose.clash whose.stray
  have live := whose.live other (List.mem_of_mem_eraseIdx mem)
  simp only [endsLast, takesUnknown, found, Option.all_some, Bool.true_and, Bool.or_eq_true, Bool.not_eq_true'] at met
  change ((s.closed uid fd (s.fds.eraseIdx k)).convs other.id).live
  unfold closed
  split
  next released =>
    refine s.fs.netRelease_keeps (fun same ok => ?_) live
    rw [released, ok, Bool.and_self] at met
    exact List.any_eq_false.mp (met.resolve_left Bool.noConfusion) other mem (beq_iff_eq.mpr same)
  · exact live

theorem Whose.failedOpen {file : File} (met : s.endsLast (.failedOpen uid id p file))
    (stepped : s.step (.failedOpen uid id p file) = some s') : Whose s' := by
  obtain ⟨_, made⟩ := Option.ite_none_right_eq_some.mp stepped
  obtain rfl := Option.some.inj made
  refine whose.of_fds rfl stepped (fun other mem => ⟨?_, .inl mem⟩) whose.clash whose.stray
  have live := whose.live other mem
  simp only [endsLast, takesUnknown, Bool.true_and, Bool.or_eq_true, Bool.not_eq_true'] at met
  dsimp only
  split
  next data =>
    refine s.fs.netRelease_keeps (fun same ok => ?_) live
    rw [data, ok, Bool.and_self] at met
    exact List.any_eq_false.mp (met.resolve_left Bool.noConfusion) other mem (beq_iff_eq.mpr same)
  · exact live

theorem Whose.handOff {l : Nat} {received : List (List (BitVec 8))}
    (unknown : s.takesUnknown (.handOff l received)) (stepped : s.step (.handOff l received) = some s') : Whose s' := by
  have made := stepped
  have same := Option.some.inj (Option.ite_none_right_eq_some.mp made).2
  apply whose.same unknown stepped
  · rw [← same]
  · rw [← same]
    exact fun _ live => live
  · rw [← same]
    simp only [whose.clash, Bool.false_or]
    cases slot : s.slotFor l with
    | none => rfl
    | some n => exact whose.unknown_taken (by simpa [takesUnknown, slot] using unknown)
  · rw [← same]
    exact whose.stray

theorem Whose.apply (stepped : s.step .apply = some s') : Whose s' := by
  have made := stepped
  simp only [State.step, State.apply] at made
  split at made
  · cases made
  next reply rest head =>
    have same := Option.some.inj made
    have kept : s'.faults.clash = false ∧ s'.faults.stray = false := by
      rw [← same]
      split <;> exact ⟨whose.clash, whose.stray⟩
    apply whose.same (e := .apply) rfl stepped
    · rw [← same]
    · rw [← same]
      exact s.fs.applyReply_lives reply
    · exact kept.1
    · exact kept.2

theorem Whose.step (met : s.endsLast e) (stepped : s.step e = some s') : Whose s' := by
  have unknown : s.takesUnknown e := (Bool.and_eq_true_iff.mp met).1
  have ends := (Bool.and_eq_true_iff.mp met).2
  cases e with
  | clone uid p =>
    cases stepped
    exact whose.clone unknown
  | openFile uid id zeros p file =>
    have made := stepped
    obtain rfl := Option.some.inj (Option.ite_none_right_eq_some.mp made).2
    exact whose.add unknown stepped rfl (fun _ live => live) ends rfl whose.clash whose.stray
  | openRef j =>
    obtain ⟨files, called, rfl⟩ := Option.map_eq_some_iff.mp stepped
    obtain ⟨_, _, rfl⟩ := Option.map_eq_some_iff.mp called
    exact whose.same unknown stepped rfl (fun _ live => live) whose.clash whose.stray
  | failedOpen uid id p file => exact whose.failedOpen met stepped
  | share k =>
    obtain ⟨files, called, rfl⟩ := Option.map_eq_some_iff.mp stepped
    obtain ⟨fd, found, rfl⟩ := Option.map_eq_some_iff.mp called
    have mem := List.mem_of_getElem? found
    exact whose.add unknown stepped rfl (fun _ live => live) (whose.live fd mem) (whose.conn_eq mem) whose.clash whose.stray
  | close uid k => exact whose.close met stepped
  | read k room => exact whose.read stepped
  | readCtl k =>
    obtain ⟨fd, found, made⟩ := Option.map_eq_some_iff.mp stepped
    split at made
    · subst made
      exact whose.same unknown stepped rfl ((s.fs.readCtl_goes s.fdConns False fd.id fd.proto).lives not_false) whose.clash
        whose.stray
    · exact made ▸ whose
  | write uid k src =>
    obtain ⟨fd, _, made⟩ := Option.bind_eq_some_iff.mp stepped
    obtain rfl := Option.some.inj (Option.ite_none_right_eq_some.mp made).2
    exact whose.same unknown stepped rfl ((s.fs.writeLocked_goes (fun _ _ => True) False uid fd.id fd.proto _ trivial
      fun _ _ => trivial).lives not_false) whose.clash whose.stray
  | writeCtl uid k cmd =>
    obtain ⟨fd, found, made⟩ := Option.map_eq_some_iff.mp stepped
    split at made
    · subst made
      exact whose.same unknown stepped rfl
        ((s.fs.writeCtl_goes s.fdConns uid fd.id fd.proto fd.conn cmd).lives (of_decide_eq_true ends)) whose.clash whose.stray
    · exact made ▸ whose
  | look uid k =>
    obtain ⟨fd, found, made⟩ := Option.map_eq_some_iff.mp stepped
    split at made
    · subst made
      exact whose.same unknown stepped rfl ((s.fs.returnCredit_goes s.fdConns False fd.id).lives not_false)
        whose.clash whose.stray
    · exact made ▸ whose
  | apply => exact whose.apply stepped
  | serve answer => exact whose.serve stepped
  | handOff l received => exact whose.handOff unknown stepped
  | pass p =>
    obtain ⟨netd, _, rfl⟩ := Option.map_eq_some_iff.mp stepped
    exact whose.same unknown stepped rfl (fun _ live => live) whose.clash whose.stray

omit whose

theorem blank_whose (ring : Nat) : Whose (blank ring) where
  whose id := by
    refine ⟨0, .udp, blank_known ring id, ?_, fun _ mem => nomatch mem⟩
    exact {
      slot on := nomatch on
      net kind := absurd rfl kind
      sends _ mem := nomatch mem
      datas _ mem := nomatch mem }
  live _ mem := nomatch mem
  clash := rfl
  stray := rfl

def acceptRun : List Event :=
  accepted ++ [.pass (.recv 1 [7]), .apply, .read 2 16, .write 0 2 [9], .serve calm, .serve calm, .close 0 2, .serve calm, .apply,
    .handOff 0 []]

theorem acceptRun_ends : (system.runMeeting (fun s e => s.endsLast e = true) (blank 4) acceptRun).isSome := by
  decide +kernel

/-- netfs gives index 1 to user 5's clone; before netd has read the request, it hands a connection off as index 1. -/
def crossedRun : List Event :=
  listening ++ [.clone 5 .tcp, .openFile 5 1 0 .tcp .data, .openRef 0, .handOff 0 []]

theorem crossedRun_ends : (system.run (blank 4) crossedRun).isSome := by decide +kernel

end Run.State
end Myos.Modules.Netfs.Net
