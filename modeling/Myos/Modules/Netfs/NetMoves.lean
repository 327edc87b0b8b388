import Myos.Modules.Netfs.NetRun

/-! What the module's functions can do to one index, its slot and the requests about it; and that a slot in use stays so
until somebody closes it. -/

namespace Myos.Modules.Netfs.Net

open Relation Run

structure Conv.Same (c c' : Conv) : Prop where
  used : c'.used = c.used
  cloning : c'.cloning = c.cloning
  proto : c'.proto = c.proto
  stream : c'.stream = c.stream
  datagrams : c'.datagrams = c.datagrams
  credit : c'.credit = c.credit
  txRoom : c'.txRoom = c.txRoom
  conn : c'.conn = c.conn

theorem Conv.Same.marks {c : Conv} {closing suppressStaleHangup closePending refused : Bool} {status : Status}
    {owner table : Nat} :
    c.Same { c with closing, suppressStaleHangup, closePending, status, owner, refused, table } :=
  ⟨rfl, rfl, rfl, rfl, rfl, rfl, rfl, rfl⟩

def Request.Plain (own : Nat → Prop) (r : Request) : Prop :=
  match r.body with
  | .ctl _ | .close => True
  | .send bytes => ∀ b ∈ bytes, own b.1
  | .clone | .credit _ => False

theorem Request.Plain.not_clone {own : Nat → Prop} {r : Request} (plain : r.Plain own) : r.body ≠ .clone := by
  intro same
  simp [Request.Plain, same] at plain

theorem Request.Plain.not_credit {own : Nat → Prop} {r : Request} (plain : r.Plain own) (n : Nat) : r.body ≠ .credit n := by
  intro same
  simp [Request.Plain, same] at plain

inductive Move (own : Nat → Prop) : Conv × List Request → Conv × List Request → Prop
  | mark {c c' : Conv} {req : List Request} : c.Same c' → Move own (c, req) (c', req)
  | free {c : Conv} {req : List Request} : (c.used → c.closing ∧ c.cloning = false) →
      Move own (c, req) (.EMPTY, req)
  | take {c : Conv} {req : List Request} (hdr : Bool) (room : Nat) : c.used → Move own (c, req)
      ({ (c.take hdr room).2.2 with credit := (c.credit + (c.take hdr room).2.1) % U16 }, req)
  | credit {c : Conv} {req : List Request} {r : Request} : c.used → r.body = .credit c.credit → r.conn = c.conn →
      Move own (c, req) ({ c with credit := 0 }, req ++ [r])
  | ask {c : Conv} {req : List Request} {r : Request} : r.Plain own → Move own (c, req) (c, req ++ [r])
  | spend {c : Conv} {req : List Request} {room : Nat} : room ≤ c.txRoom → Move own (c, req) ({ c with txRoom := room }, req)

def Conv.live (c : Conv) : Bool := c.used && !c.closing && !c.closePending

namespace State

variable {st st' : State} {own : Nat → Nat → Prop}

def side (st : State) (id : Nat) : Conv × List Request := (st.convs id, reqsAbout id st.req)

def Leads (own : Nat → Nat → Prop) (st st' : State) : Prop :=
  ∀ id, ReflTransGen (Move (own id)) (st.side id) (st'.side id)

def Lives (st st' : State) : Prop := ∀ id, (st.convs id).live → (st'.convs id).live

structure Goes (own : Nat → Nat → Prop) (closes : Prop) (st st' : State) : Prop where
  leads : Leads own st st'
  lives : ¬closes → Lives st st'

variable {closes : Prop}

theorem Goes.refl : Goes own closes st st := ⟨fun _ => .refl, fun _ _ live => live⟩

theorem Goes.trans {st'' : State} (first : Goes own closes st st') (then_ : Goes own closes st' st'') :
    Goes own closes st st'' :=
  ⟨fun id => (first.leads id).trans (then_.leads id), fun other id live => then_.lives other id (first.lives other id live)⟩

theorem side_set_self (id : Nat) (c : Conv) : (st.set id c).side id = (c, reqsAbout id st.req) := by
  simp [side, set]

variable {c : Conv} {id : Nat} {r : Request}

theorem side_set_ne {other : Nat} (c : Conv) (apart : other ≠ id) : (st.set id c).side other = st.side other := by
  simp [side, set, Function.update_of_ne apart]

theorem Lives.set (live : (st.convs id).live → c.live) : Lives st (st.set id c) := by
  intro other alive
  by_cases same : other = id
  · subst same
    simpa [State.set] using live alive
  · simpa [State.set, Function.update_of_ne same] using alive

theorem Goes.set
    (moves : ReflTransGen (Move (own id)) (st.side id) (c, reqsAbout id st.req))
    (live : ¬closes → (st.convs id).live → c.live) : Goes own closes st (st.set id c) := by
  refine ⟨fun other => ?_, fun open_ => .set (live open_)⟩
  by_cases same : other = id
  · subst same
    rw [side_set_self]
    exact moves
  · rw [side_set_ne c same]

theorem Goes.mark (same : (st.convs id).Same c) (live : ¬closes → (st.convs id).live → c.live) :
    Goes own closes st (st.set id c) :=
  .set (.single (.mark same)) live

theorem enqueue_some (asked : st.enqueue r = some st') : st' = { st with req := st.req ++ [r] } := by
  unfold enqueue at asked
  split at asked
  · exact (Option.some.inj asked).symm
  · cases asked

theorem reqsAbout_append (id : Nat) (req : List Request) (r : Request) :
    reqsAbout id (req ++ [r]) = reqsAbout id req ++ if r.id = id then [r] else [] := by
  unfold reqsAbout
  by_cases same : r.id = id <;> simp [List.filter_append, same]

theorem Goes.ask (asked : st.enqueue r = some st')
    (moves : ReflTransGen (Move (own r.id)) (st.side r.id) (c, reqsAbout r.id st.req ++ [r]))
    (live : ¬closes → (st.convs r.id).live → c.live) : Goes own closes st (st'.set r.id c) := by
  rw [enqueue_some asked]
  refine ⟨fun other => ?_, fun open_ => Lives.set (live open_)⟩
  by_cases same : other = r.id
  · subst same
    rw [side_set_self, reqsAbout_append, if_pos rfl]
    exact moves
  · rw [side_set_ne c same]
    unfold side
    rw [reqsAbout_append, if_neg (Ne.symm same), List.append_nil]

theorem Goes.askOnly (asked : st.enqueue r = some st') (plain : r.Plain (own r.id)) : Goes own closes st st' := by
  have moved : Goes own closes st (st'.set r.id (st.convs r.id)) := .ask asked (.single (.ask plain)) fun _ alive => alive
  have unchanged : st'.set r.id (st.convs r.id) = st' := by
    rw [enqueue_some asked]
    simp [State.set]
  rwa [unchanged] at moved

theorem Goes.askMark (asked : st.enqueue r = some st') (plain : r.Plain (own r.id))
    (same : (st.convs r.id).Same c) (live : ¬closes → (st.convs r.id).live → c.live) : Goes own closes st (st'.set r.id c) :=
  .ask asked (.tail (.single (.ask plain)) (.mark same)) live

variable (own closes)

theorem returnCredit_goes (st : State) (id : Nat) : Goes own closes st (st.returnCredit id) := by
  unfold returnCredit
  dsimp only
  split
  · exact .refl
  next owed =>
    simp only [Bool.or_eq_true, not_or, Bool.not_eq_true', Bool.not_eq_false] at owed
    split
    next asked => exact .ask asked (.single (.credit owed.1.1 rfl rfl)) fun _ alive => alive
    · exact .refl

theorem take_frame (c : Conv) (hdr : Bool) (room : Nat) :
    (c.take hdr room).2.2.credit = c.credit ∧ ∀ n, ({ (c.take hdr room).2.2 with credit := n } : Conv).live = c.live := by
  unfold Conv.take
  split <;> exact ⟨rfl, fun _ => rfl⟩

theorem readLocked_goes (st : State) (id : Nat) (p : Proto) (hdr peek : Bool) (room : Nat) :
    Goes own closes st (st.readLocked id p hdr peek room).1 := by
  unfold readLocked
  dsimp only
  split
  · exact .refl
  next ok =>
    simp only [Bool.or_eq_true, not_or, Bool.not_eq_true', Bool.not_eq_false] at ok
    split
    · exact .refl
    split
    · exact .refl
    refine .trans (.set (.single ?_) fun _ alive => ?_) (returnCredit_goes own closes _ id)
    · rw [(take_frame ..).1]
      exact .take hdr room ok.1.1
    · rw [(take_frame ..).2]
      exact alive

theorem writeLocked_goes (st : State) (uid id : Nat) (p : Proto) (hdr : Bool) {conn : Nat} {src : List ConnByte}
    (owned : own id conn) (tagged : ∀ b ∈ src, own id b.1) : Goes own closes st (st.writeLocked uid id p hdr conn src).1 := by
  unfold writeLocked
  split
  · exact .refl
  cases p with
  | tcp =>
    dsimp only
    split
    · exact .refl
    split
    next asked =>
      have plain : Request.Plain (own id) ⟨id, .tcp, conn, .send (src.take (min (min src.length (MSG_CAP - REQ_HDR))
          (st.convs id).txRoom))⟩ := fun b mem => tagged b (List.mem_of_mem_take mem)
      exact .ask asked (.tail (.single (.ask plain)) (.spend (Nat.sub_le _ _))) fun _ alive => alive
    · exact .refl
  | udp =>
    dsimp only
    generalize (if hdr = true then 0 else UDP_HDR) = room
    split
    · exact .refl
    split
    next asked =>
      refine .askOnly asked fun b mem => ?_
      rcases List.mem_append.mp mem with header | body
      · rw [List.eq_of_mem_replicate header]
        exact owned
      · exact tagged b body
    · exact .refl
  | icmp =>
    dsimp only
    split
    · exact .refl
    · split
      next asked => exact .askOnly asked tagged
      · exact .refl

theorem writeCtl_goes (st : State) (uid id : Nat) (p : Proto) (conn : Nat) (cmd : Ctl) :
    Goes own (cmd = .hangup) st (st.writeCtl uid id p conn cmd) := by
  have forward : Goes own (cmd = .hangup) st ((st.enqueue ⟨id, p, conn, .ctl cmd⟩).getD st) := by
    cases asked : st.enqueue ⟨id, p, conn, .ctl cmd⟩ with
    | none => exact .refl
    | some st' => exact .askOnly asked trivial
  unfold writeCtl
  dsimp only
  split
  · exact .refl
  split
  · split
    · exact .refl
    · split
      next asked => exact .askMark asked trivial .marks fun open_ => absurd rfl open_
      · exact .mark .marks fun _ alive => alive
  · exact forward

theorem readCtl_goes (st : State) (id : Nat) (p : Proto) : Goes own closes st (st.readCtl id p) := by
  unfold readCtl
  dsimp only
  split
  · exact .mark .marks fun _ alive => alive
  · exact .refl

theorem teardownConv_goes (st : State) (id : Nat) : Goes own True st (st.teardownConv id) := by
  unfold teardownConv
  dsimp only
  split
  · exact .refl
  · split
    next asked => exact .askMark asked trivial .marks fun open_ => absurd trivial open_
    · exact .mark .marks fun open_ => absurd trivial open_

theorem netRelease_goes (st : State) (uid id : Nat) (p : Proto) : Goes own True st (st.netRelease uid id p) := by
  unfold netRelease
  split
  · exact teardownConv_goes own st id
  · exact .refl

theorem retryCloses_goes (st : State) : Goes own closes st st.retryCloses := by
  unfold retryCloses
  generalize List.range MAX_CONV = ids
  induction ids generalizing st with
  | nil => exact .refl
  | cons id rest ih =>
    refine .trans ?_ (ih (st.retryClose id))
    unfold retryClose
    dsimp only
    split
    · exact .refl
    next waits =>
      split
      next asked =>
        refine .askMark asked trivial .marks fun _ alive => ?_
        simp only [Conv.live, Bool.and_eq_true, Bool.not_eq_true', Bool.or_eq_true, not_or] at alive waits
        simp [alive.2] at waits
      · exact .refl

theorem live_not_closing (live : c.live) : c.closing = false := by
  simp only [Conv.live, Bool.and_eq_true, Bool.not_eq_true'] at live
  exact live.1.2

theorem showStatus_goes (s : Status) (answered : (st.convs id).cloning = false) : Goes own closes st (st.showStatus id s) := by
  unfold showStatus
  dsimp only
  generalize (if s = .none then .connected else s) = line
  split
  next isOver =>
    simp only [Bool.and_eq_true] at isOver
    refine .set (.single (.free fun _ => ⟨isOver.1.1, answered⟩)) fun _ alive => ?_
    cases (live_not_closing alive).symm.trans isOver.1.1
  · exact .mark .marks fun _ alive => alive

theorem passOwner_goes (st : State) (id accepted : Nat) : Goes own closes st (st.passOwner id accepted) := by
  unfold passOwner
  dsimp only
  split
  · exact .mark .marks fun _ alive => alive
  · exact .refl

theorem statusReply_goes (s : Status) (answered : (st.convs id).cloning = false) :
    Goes own closes st (st.statusReply id s) := by
  unfold statusReply
  dsimp only
  split
  · exact .mark .marks fun _ alive => alive
  · split
    · exact (showStatus_goes own closes _ answered).trans (passOwner_goes own closes _ id _)
    · exact showStatus_goes own closes _ answered

end State
end Myos.Modules.Netfs.Net
