import Myos.Modules.Netfs.NetCredit

namespace Myos.Modules.Netfs.Net.Run

open Relation Myos.Lib Myos.User

def ofConn (conn : Nat) (bytes : List ConnByte) : Nat := bytes.countP (·.1 == conn)

def inFlight (conn : Nat) (rep : List Rep) : Nat :=
  (rep.map fun
    | .data bytes => ofConn conn bytes
    | _ => 0).sum

namespace State

variable {s s' : State}

/-- netd's connection at `id` has no more bytes buffered, in flight and still to come than netfs has room for; no window is
above its bound, and no tcp byte was dropped, no credit wrapped or was another occupant's. -/
structure LosesNothing (s : State) : Prop where
  fits : ∀ id, (s.netd.convs id).kind = some .tcp →
    ofConn (s.netd.convs id).conn (s.fs.convs id).bytes + inFlight (s.netd.convs id).conn (repsAbout id s.netd.rep) +
      (s.netd.convs id).rxRoom ≤ DATA_CAP
  windows : ∀ id, (s.fs.convs id).txRoom ≤ TX_CAP ∧ (s.netd.convs id).rxRoom ≤ Netd.NETFS_RX_CAP
  dropped : s.faults.dropped = false
  wrapped : s.faults.wrapped = false
  stale : s.faults.stale = false

def keepsRoom (s : State) (e : Event) : Bool :=
  s.takesUnknown e &&
    match e with
    | .read k room => (s.fds[k]?).all fun fd =>
      let c := s.fs.convs fd.id
      decide (c.proto = .tcp) || decide (c.credit + (c.take (fd.file == .hdata) room).2.1 < U16)
    | _ => true

def Even (v : View) : Prop := ∃ cur p, Known cur p v ∧ Balanced p v

theorem Even.steps {own : Nat → Prop} {may : Prop} {v v' : View} (even : Even v) (steps : Steps own may v v') : Even v' := by
  induction steps with
  | refl => exact even
  | tail _ step ih =>
    obtain ⟨cur, p, known, balanced⟩ := ih
    have bound {v v' : View} {conn : Nat} {q : Proto} (balanced : Balanced p v) (bind : Bind conn q v v') : Even v' :=
      ⟨conn, q, .bind bind, .bind balanced.unused balanced.window balanced.room bind⟩
    rcases balanced.step known step with same | ⟨_, _, _, bind⟩
    · rcases known.step step with still | ⟨_, _, _, bind⟩
      · exact ⟨cur, p, still, same⟩
      · exact bound balanced bind
    · exact bound balanced bind

structure Inv (s : State) : Prop where
  even : ∀ id, Even (s.view id)
  dropped : s.faults.dropped = false
  wrapped : s.faults.wrapped = false
  stale : s.faults.stale = false

theorem dataLen_bytes (c : Conv) : c.bytes.length ≤ c.dataLen := by
  unfold Conv.bytes Conv.dataLen
  rw [List.length_append, List.length_flatten]
  apply Nat.add_le_add_left
  induction c.datagrams with
  | nil => exact Nat.le_refl _
  | cons d rest ih =>
    simp only [List.map_cons, List.sum_cons]
    omega

theorem inFlight_le (conn : Nat) (rep : List Rep) : inFlight conn rep ≤ sent rep := by
  induction rep with
  | nil => exact Nat.le_refl _
  | cons body rest ih =>
    unfold inFlight sent at ih ⊢
    simp only [List.map_cons, List.sum_cons]
    refine Nat.add_le_add ?_ ih
    cases body with
    | data bytes => exact List.countP_le_length
    | _ => exact Nat.zero_le _

theorem Inv.losesNothing (inv : Inv s) : s.LosesNothing where
  fits id kind := by
    obtain ⟨cur, p, known, balanced⟩ := inv.even id
    have total := balanced.total kind
    have buffered : ofConn (s.netd.convs id).conn (s.fs.convs id).bytes ≤ (s.fs.convs id).dataLen :=
      Nat.le_trans List.countP_le_length (dataLen_bytes _)
    have flying := inFlight_le (s.netd.convs id).conn (repsAbout id s.netd.rep)
    simp only [View.load, view] at total
    omega
  windows id := by
    obtain ⟨cur, p, known, balanced⟩ := inv.even id
    exact ⟨balanced.window, balanced.room⟩
  dropped := inv.dropped
  wrapped := inv.wrapped
  stale := inv.stale

theorem Inv.read_fits (inv : Inv s) {id : Nat} (used : (s.fs.convs id).used) (tcp : (s.fs.convs id).proto = .tcp)
    (hdr : Bool) (room : Nat) : (s.fs.convs id).credit + ((s.fs.convs id).take hdr room).2.1 < U16 := by
  obtain ⟨cur, p, known, balanced⟩ := inv.even id
  have load := balanced.load ((known.slot used).2.symm.trans tcp)
  have split := take_dataLen (s.fs.convs id) hdr room
  simp only [View.load, view] at load
  have small : DATA_CAP < U16 := by decide
  omega

theorem readLocked_some {st : Net.State} {id : Nat} {p : Proto} {hdr peek : Bool} {room : Nat}
    (done : (st.readLocked id p hdr peek room).2.isSome) : (st.convs id).used := by
  unfold Net.State.readLocked at done
  dsimp only at done
  split at done
  · cases done
  next ok =>
    simp only [Bool.or_eq_true, not_or, Bool.not_eq_true', Bool.not_eq_false] at ok
    exact ok.1.1

theorem Inv.read {k room : Nat} (inv : Inv s) (met : s.keepsRoom (.read k room)) (stepped : s.read k room = some s') :
    s'.faults.dropped = false ∧ s'.faults.wrapped = false ∧ s'.faults.stale = false := by
  obtain ⟨fd, found, made⟩ := Option.bind_eq_some_iff.mp stepped
  dsimp only at made
  split at made
  · cases made
  cases made
  refine ⟨inv.dropped, ?_, inv.stale⟩
  simp only [inv.wrapped, Bool.false_or, Bool.and_eq_false_imp, Bool.and_eq_true, decide_eq_false_iff_not, Nat.not_le]
  rintro ⟨done, _⟩
  simp only [keepsRoom, found, Option.all_some, Bool.and_eq_true, Bool.or_eq_true, decide_eq_true_eq] at met
  rcases met.2 with tcp | small
  · exact inv.read_fits (readLocked_some done) tcp _ room
  · exact small

theorem Inv.apply (inv : Inv s) (stepped : s.apply = some s') :
    s'.faults.dropped = false ∧ s'.faults.wrapped = false ∧ s'.faults.stale = false := by
  unfold State.apply at stepped
  split at stepped
  · cases stepped
  next reply rest head =>
    cases stepped
    have kept := And.intro inv.dropped (And.intro inv.wrapped inv.stale)
    cases reply with
    | tableStart => exact kept
    | table listed => exact kept
    | about id body =>
      obtain ⟨cur, p, known, balanced⟩ := inv.even id
      have first : repsAbout id s.netd.rep = body :: repsAbout id rest := by simp [head, repsAbout]
      cases body with
      | data bytes =>
        refine ⟨?_, inv.wrapped, inv.stale⟩
        simp only [inv.dropped, Bool.false_or, Bool.and_eq_false_imp, Bool.and_eq_true, decide_eq_true_eq,
          decide_eq_false_iff_not, Nat.not_lt]
        rintro ⟨⟨used, _⟩, tcp⟩
        have load := balanced.load ((known.slot used).2.symm.trans tcp)
        simp only [View.load, view, first, sent_cons, Rep.size] at load
        omega
      | txCredit n conn =>
        refine ⟨inv.dropped, inv.wrapped, ?_⟩
        simp only [inv.stale, Bool.false_or, Bool.and_eq_false_imp, Bool.and_eq_true, bne_eq_false_iff_eq]
        rintro ⟨used, _⟩
        have mine := known.rooms n conn (by simp only [view, first]; exact List.mem_cons_self)
        exact (known.slot used).1.trans mine.symm
      | _ => exact kept

theorem Inv.serve {answer : Netd.Answer} (inv : Inv s) (stepped : s.serve answer = some s') :
    s'.faults.dropped = false ∧ s'.faults.wrapped = false ∧ s'.faults.stale = false := by
  unfold State.serve at stepped
  split at stepped
  · cases stepped
  next r rest head =>
    have faults := congrArg State.faults (Option.some.inj stepped)
    rw [← faults]
    obtain ⟨cur, p, known, balanced⟩ := inv.even r.id
    have kept := And.intro inv.dropped (And.intro inv.wrapped inv.stale)
    cases body : r.body with
    | credit n =>
      refine ⟨inv.dropped, inv.wrapped, ?_⟩
      simp only [inv.stale, Bool.false_or, Bool.not_eq_false', owns, Bool.or_eq_true, decide_eq_true_eq, beq_iff_eq]
      cases kind : (s.netd.convs r.id).kind with
      | none => exact .inl rfl
      | some k =>
        have mine := known.credits r (by simp [view, head, reqsAbout]) n body
        exact .inr ((known.net k kind).1.trans mine.symm)
    | _ => exact kept

theorem Inv.step {e : Event} (inv : Inv s) (met : s.keepsRoom e) (stepped : s.step e = some s') : Inv s' := by
  have unknown : s.takesUnknown e := (Bool.and_eq_true_iff.mp met).1
  have moved : Leads (fun _ _ => True) (fun _ => True) s s' :=
    step_leads (fun _ _ => trivial) unknown (fun _ _ => trivial) stepped
  have even : ∀ id, Even (s'.view id) := fun id => (inv.even id).steps (moved id)
  have kept := And.intro inv.dropped (And.intro inv.wrapped inv.stale)
  suffices faults : s'.faults.dropped = false ∧ s'.faults.wrapped = false ∧ s'.faults.stale = false from
    ⟨even, faults.1, faults.2.1, faults.2.2⟩
  cases e with
  | clone uid p =>
    cases stepped
    exact kept
  | openFile uid id zeros p file | failedOpen uid id p file =>
    exact guarded stepped fun _ => kept
  | openRef j | share k | close uid k =>
    exact mapped stepped fun _ _ => kept
  | read k room => exact inv.read met stepped
  | readCtl k | writeCtl uid k cmd | look uid k =>
    refine mapped stepped fun fd _ => ?_
    split <;> exact kept
  | write uid k src =>
    obtain ⟨fd, _, made⟩ := Option.bind_eq_some_iff.mp stepped
    exact guarded made fun _ => kept
  | apply => exact inv.apply stepped
  | serve answer => exact inv.serve stepped
  | handOff l received =>
    exact guarded stepped fun _ => kept
  | pass p =>
    exact mapped stepped fun netd _ => kept

theorem blank_inv (ring : Nat) : Inv (blank ring) where
  even id := by
    exact ⟨0, .udp, blank_known ring id,
      .other (by simp) (fun _ => rfl) (Nat.le_refl _) (Nat.le_refl _) (by simp [view, blank, Netd.Conv.EMPTY])⟩
  dropped := rfl
  wrapped := rfl
  stale := rfl

theorem reach_losesNothing (reachable : system.Reach (fun s e => s.keepsRoom e) s) : s.LosesNothing := by
  have inv : Inv s := by
    refine reachable.invariant ?_ fun _ _ _ inv met stepped => inv.step met stepped
    rintro _ ⟨ring, rfl⟩
    exact blank_inv ring
  exact inv.losesNothing

def creditRun : List Event :=
  accepted ++ [.pass (.recv 1 [7]), .apply, .read 2 16, .serve calm]

theorem creditRun_ends : (system.runMeeting (fun s e => s.keepsRoom e = true) (blank 4) creditRun).isSome := by
  decide +kernel

theorem reach_losesNothing_read :
    ((system.runMeeting (fun s e => s.keepsRoom e = true) (blank 4) creditRun).get creditRun_ends).LosesNothing :=
  reach_losesNothing ((blank_reached _ 4).runMeeting creditRun (Option.some_get _).symm)

/-- The connection on index 1 is hung up before its last byte is read: the room for that byte, asked back after the close,
goes to the connection that has index 1 next. -/
def staleRun : List Event :=
  accepted ++ [.openFile 0 1 0 .tcp .ctl, .openRef 0, .pass (.recv 1 [7]), .apply, .writeCtl 0 3 .hangup,
    .read 2 16, .serve calm, .handOff 0 [], .pass (.recv 1 [9]), .serve calm]

theorem staleRun_ends : (system.run (blank 4) staleRun).isSome := by decide +kernel

theorem staleRun_exceeds :
    let s := (system.run (blank 4) staleRun).get staleRun_ends
    (s.netd.convs 1).kind = some .tcp ∧ DATA_CAP <
      ofConn (s.netd.convs 1).conn (s.fs.convs 1).bytes + inFlight (s.netd.convs 1).conn (repsAbout 1 s.netd.rep) +
        (s.netd.convs 1).rxRoom := by
  decide +kernel

theorem stale_credit_exceeds : ¬∀ s, system.Reach System.Any s → s.LosesNothing := by
  intro all
  have reached := (blank_reached System.Any 4).run staleRun (Option.some_get staleRun_ends).symm
  have fits := (all _ reached).fits 1 staleRun_exceeds.1
  exact absurd fits (Nat.not_le.mpr staleRun_exceeds.2)

end State
end Myos.Modules.Netfs.Net.Run
