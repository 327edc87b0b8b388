import Myos.Modules.Netfs.NetMoves
import Myos.User.NetdMoves

namespace Myos.Modules.Netfs.Net.Run

open Relation Myos.User

structure View where
  slot : Conv
  req : List Request
  net : Netd.Conv
  rep : List Rep

structure Fresh (c : Conv) (conn : Nat) : Prop where
  used : c.used = true
  stream : c.stream = []
  datagrams : c.datagrams = []
  credit : c.credit = 0
  txRoom : c.txRoom = TX_CAP
  conn : c.conn = conn

inductive Bind (conn : Nat) (p : Proto) : View → View → Prop
  | alloc {slot slot' : Conv} {r : Request} {net : Netd.Conv} : slot.used = false → net.kind = none → r.body = .clone →
      r.conn = conn → r.proto = p → Fresh slot' conn → slot'.proto = p → slot'.cloning = true →
      Bind conn p ⟨slot, [], net, []⟩ ⟨slot', [r], net, []⟩
  | accept {slot : Conv} {net net' : Netd.Conv} : p = .tcp → slot.used = false → net.kind = none →
      net'.kind = some .tcp → net'.rxRoom = Netd.NETFS_RX_CAP → net'.pending = [] → net'.conn = conn →
      Bind conn p ⟨slot, [], net, []⟩ ⟨slot, [], net', [.cloneOk true conn]⟩

inductive Step (own : Nat → Prop) (may : Prop) : View → View → Prop
  | fs {a b : Conv × List Request} {net : Netd.Conv} {rep : List Rep} : Move own a b →
      Step own may ⟨a.1, a.2, net, rep⟩ ⟨b.1, b.2, net, rep⟩
  | netd {slot : Conv} {req : List Request} {a b : Netd.Conv × List Rep} : Netd.Move a b →
      Step own may ⟨slot, req, a.1, a.2⟩ ⟨slot, req, b.1, b.2⟩
  | drop {slot : Conv} {req : List Request} {net : Netd.Conv} {rep : List Rep} {body : Rep} :
      Step own may ⟨slot, req, net, body :: rep⟩ ⟨slot, req, net, rep⟩
  | data {slot : Conv} {req : List Request} {net : Netd.Conv} {rep : List Rep} {bytes : List ConnByte} : slot.used →
      Step own may ⟨slot, req, net, .data bytes :: rep⟩ ⟨slot.append bytes, req, net, rep⟩
  | cloned {slot slot' : Conv} {req : List Request} {net : Netd.Conv} {rep : List Rep} {accepted : Bool} {conn : Nat} :
      Fresh slot' conn → (accepted = true → slot'.proto = .tcp) → (accepted = false → slot.used = false) →
      Step own may ⟨slot, req, net, .cloneOk accepted conn :: rep⟩ ⟨slot', req, net, rep⟩
  | acked {slot : Conv} {req : List Request} {net : Netd.Conv} {rep : List Rep} {conn : Nat} (line : Status) :
      Step own may ⟨slot, req, net, .cloneOk false conn :: rep⟩ ⟨{ slot with cloning := false, status := line }, req, net, rep⟩
  | txCredit {slot : Conv} {req : List Request} {net : Netd.Conv} {rep : List Rep} {n conn : Nat} : slot.used →
      Step own may ⟨slot, req, net, .txCredit n conn :: rep⟩ ⟨{ slot with txRoom := min (slot.txRoom + n) TX_CAP }, req, net, rep⟩
  | peer {slot : Conv} {req : List Request} {net : Netd.Conv} {rep : List Rep} (keep : List ConnByte → Bool) :
      Step own may ⟨slot, req, net, .peer keep :: rep⟩ ⟨{ slot with datagrams := slot.datagrams.filter keep }, req, net, rep⟩
  | pop {slot : Conv} {r : Request} {req : List Request} {net : Netd.Conv} {rep : List Rep} : r.body ≠ .clone →
      Step own may ⟨slot, r :: req, net, rep⟩ ⟨slot, req, net, rep⟩
  | send {slot : Conv} {r : Request} {req : List Request} {net : Netd.Conv} {rep : List Rep} {bytes waits : List ConnByte} :
      r.body = .send bytes → (∀ b ∈ waits, b ∈ net.pending ∨ b ∈ bytes) →
      Step own may ⟨slot, r :: req, net, rep⟩ ⟨slot, req, { net with pending := waits }, rep⟩
  | raise {slot : Conv} {r : Request} {req : List Request} {net : Netd.Conv} {rep : List Rep} {n : Nat} :
      r.body = .credit n → Step own may ⟨slot, r :: req, net, rep⟩
        ⟨slot, req, { net with rxRoom := min (net.rxRoom + n) Netd.NETFS_RX_CAP }, rep⟩
  | bind {slot : Conv} {r : Request} {req : List Request} {net : Netd.Conv} {rep : List Rep} : r.body = .clone →
      Step own may ⟨slot, r :: req, net, rep⟩
        ⟨slot, req, { Netd.Conv.EMPTY with kind := some r.proto, handle := true, held := true, conn := r.conn },
          rep ++ [.cloneOk false r.conn]⟩
  | take {conn : Nat} {p : Proto} {v v' : View} : may → Bind conn p v v' → Step own may v v'

abbrev Steps (own : Nat → Prop) (may : Prop) : View → View → Prop := ReflTransGen (Step own may)

theorem Steps.ofFs {own : Nat → Prop} {may : Prop} {a b : Conv × List Request} (net : Netd.Conv) (rep : List Rep)
    (moves : ReflTransGen (Move own) a b) : Steps own may ⟨a.1, a.2, net, rep⟩ ⟨b.1, b.2, net, rep⟩ := by
  induction moves with
  | refl => exact .refl
  | tail _ move ih => exact ih.tail (.fs move)

theorem Steps.ofNetd {own : Nat → Prop} {may : Prop} (slot : Conv) (req : List Request) {a b : Netd.Conv × List Rep}
    (moves : ReflTransGen Netd.Move a b) : Steps own may ⟨slot, req, a.1, a.2⟩ ⟨slot, req, b.1, b.2⟩ := by
  induction moves with
  | refl => exact .refl
  | tail _ move ih => exact ih.tail (.netd move)

namespace State

variable {s s' : State} {own : Nat → Nat → Prop} {may : Nat → Prop}

def view (s : State) (id : Nat) : View := ⟨s.fs.convs id, reqsAbout id s.fs.req, s.netd.convs id, repsAbout id s.netd.rep⟩

def Leads (own : Nat → Nat → Prop) (may : Nat → Prop) (s s' : State) : Prop :=
  ∀ id, Steps (own id) (may id) (s.view id) (s'.view id)

theorem Leads.trans {s'' : State} (first : Leads own may s s') (then_ : Leads own may s' s'') : Leads own may s s'' :=
  fun id => (first id).trans (then_ id)

theorem Leads.same (fs : s'.fs = s.fs) (netd : s'.netd = s.netd) : Leads own may s s' := by
  intro id
  unfold view
  rw [fs, netd]

variable {fs : Net.State} {netd : Netd.State}

theorem Leads.ofFs (moved : s.fs.Leads own fs) (same : s'.fs = fs) (netd : s'.netd = s.netd) :
    Leads own may s s' := by
  intro id
  unfold view
  rw [same, netd]
  exact Steps.ofFs _ _ (moved id)

theorem Leads.ofNetd (moved : s.netd.Leads netd) (same : s'.netd = netd) (fs : s'.fs = s.fs) :
    Leads own may s s' := by
  intro id
  unfold view
  rw [same, fs]
  exact Steps.ofNetd _ _ (moved id)

def unknown (s : State) (id : Nat) : Bool :=
  !(s.fs.convs id).used && decide ((s.netd.convs id).kind = none) && (reqsAbout id s.fs.req).isEmpty &&
    (repsAbout id s.netd.rep).isEmpty

def takesUnknown (s : State) : Event → Bool
  | .clone _ _ => s.fs.allocConv.all s.unknown
  | .handOff l _ => (s.slotFor l).all s.unknown
  | _ => true

theorem unknown_iff {id : Nat} : s.unknown id ↔ (s.fs.convs id).used = false ∧ (s.netd.convs id).kind = none ∧
    reqsAbout id s.fs.req = [] ∧ repsAbout id s.netd.rep = [] := by
  simp [unknown, and_assoc]

theorem clone_leads {uid : Nat} {p : Proto} (allowed : ∀ id, s.unknown id → may id)
    (unknown : s.takesUnknown (.clone uid p)) : Leads own may s (s.clone uid p) := by
  intro id
  change Steps (own id) (may id) (s.view id) ⟨(s.fs.cloneLocked uid p s.next).1.convs id,
    reqsAbout id (s.fs.cloneLocked uid p s.next).1.req, s.netd.convs id, repsAbout id s.netd.rep⟩
  unfold takesUnknown at unknown
  unfold Net.State.cloneLocked
  cases found : s.fs.allocConv with
  | none => exact .refl
  | some i =>
    rw [found] at unknown
    have free := allowed i unknown
    obtain ⟨unused, empty, req, rep⟩ := unknown_iff.mp unknown
    dsimp only
    generalize made : ({ Conv.EMPTY with
      used := true, cloning := true, proto := p, owner := uid, table := s.fs.tableGen, conn := s.next } : Conv) = c
    by_cases same : id = i
    · subst same
      split
      next asked =>
        rw [Net.State.enqueue_some asked]
        rw [Net.State.reqsAbout_append, if_pos rfl]
        simp only [view, Net.State.set, Function.update_self, req, rep, List.nil_append]
        subst made
        exact .single (.take free (.alloc unused empty rfl rfl rfl ⟨rfl, rfl, rfl, rfl, rfl, rfl⟩ rfl rfl))
      · simp only [view, Net.State.set, Function.update_self]
        exact Steps.ofFs (a := (s.fs.convs id, _)) _ _ (.single (.free fun used => by simp [unused] at used))
    · split
      next asked =>
        rw [Net.State.enqueue_some asked]
        rw [Net.State.reqsAbout_append, if_neg (Ne.symm same), List.append_nil]
        simp only [Net.State.set, Function.update_of_ne same]
        exact .refl
      · simp only [Net.State.set, Function.update_of_ne same]
        exact .refl

theorem firstEmpty_none {st : Netd.State} (missing : st.firstEmpty = none) {n : Nat} (below : n < MAX_CONV) :
    (st.convs n).kind ≠ none := by
  have all := List.find?_eq_none.mp missing n (List.mem_range.mpr below)
  simpa using all

theorem install_leads {st : Netd.State} (files : Fs.OpenRefs Fd Path) (next : Nat) (faults : Faults) (l : Nat) {n : Nat}
    (conn : Nat) (free : may n) (unknown : State.unknown ⟨fs, st, files, next, faults⟩ n) (s' : State) (sameFs : s'.fs = fs)
    (sameNetd : s'.netd = st.install l n conn) : Leads own may ⟨fs, st, files, next, faults⟩ s' := by
  obtain ⟨unused, empty, req, rep⟩ := unknown_iff.mp unknown
  generalize made : ({ Netd.Conv.EMPTY with
    kind := some .tcp, handle := true, haveRemote := true, fromAccept := true, conn } : Netd.Conv) = c
  have placed : Leads own may ⟨fs, st, files, next, faults⟩
    ⟨fs, (st.set n c).reply n (.cloneOk true conn), files, next, faults⟩ := by
    intro id
    by_cases same : id = n
    · subst same
      simp only [view, Netd.State.reply, Netd.State.set, Function.update_self, Netd.State.repsAbout_append, req, rep,
        if_true, List.nil_append]
      subst made
      exact .single (.take free (.accept rfl unused empty rfl rfl rfl rfl))
    · simp only [view, Netd.State.reply, Netd.State.set, Function.update_of_ne same, Netd.State.repsAbout_append,
        if_neg (Ne.symm same), List.append_nil]
      exact .refl
  have queued : Netd.State.Leads ((st.set n c).reply n (.cloneOk true conn)) (st.install l n conn) := by
    unfold Netd.State.install
    dsimp only
    rw [made]
    split
    · exact Netd.State.publishHead_leads _ l _
    · exact .mark .marks
  exact placed.trans (.ofNetd queued sameNetd sameFs)

theorem handOff_leads {l : Nat} {received : List (List (BitVec 8))} (allowed : ∀ id, s.unknown id → may id)
    (unknown : s.takesUnknown (.handOff l received))
    (stepped : s.handOff l received = some s') : Leads own may s s' := by
  refine Lib.guarded stepped fun _ => ?_
  change (s.slotFor l).all s.unknown = true at unknown
  unfold slotFor at unknown
  unfold Netd.State.handOff
  split
  · exact .same rfl rfl
  next room =>
    rw [if_neg room] at unknown
    cases found : s.netd.firstEmpty with
    | some n =>
      rw [found] at unknown
      exact install_leads s.files s.next s.faults l s.next (allowed n unknown) unknown _ rfl rfl
    | none =>
      rw [found] at unknown
      cases taken : s.netd.victim with
      | none => exact .same rfl rfl
      | some v =>
        rw [taken] at unknown
        have below : v < MAX_CONV := List.mem_range.mp (List.mem_of_find?_eq_some taken)
        exact absurd (unknown_iff.mp unknown).2.1 (firstEmpty_none found below)

theorem heard_leads {i : Nat} {body : Rep} {rest : List Reply} (netd : s'.netd = { s.netd with rep := rest }) (c : Conv)
    (fs : s'.fs = s.fs.set i c) (head : s.netd.rep = .about i body :: rest)
    (moves : Steps (own i) (may i) ⟨s.fs.convs i, reqsAbout i s.fs.req, s.netd.convs i, body :: repsAbout i rest⟩
      ⟨c, reqsAbout i s.fs.req, s.netd.convs i, repsAbout i rest⟩) : Leads own may s s' := by
  intro id
  by_cases same : id = i
  · subst same
    simpa [view, netd, fs, head, repsAbout, Net.State.set] using moves
  have unchanged : repsAbout id s.netd.rep = repsAbout id rest := by
    simp [head, repsAbout, Ne.symm same]
  simp only [view, netd, fs, Net.State.set, Function.update_of_ne same, unchanged]
  exact .refl

theorem taken_leads {reply : Reply} {rest : List Reply} (netd : s'.netd = { s.netd with rep := rest })
    (head : s.netd.rep = reply :: rest) (moved : s.fs.Leads own s'.fs) : Leads own may s s' := by
  intro id
  have popped : Steps (own id) (may id) (s.view id)
    ⟨s.fs.convs id, reqsAbout id s.fs.req, s.netd.convs id, repsAbout id rest⟩ := by
    cases reply with
    | about i body =>
      by_cases same : i = id
      · simp only [view, head, repsAbout, List.filterMap_cons, if_pos same]
        exact .single .drop
      · simp only [view, head, repsAbout, List.filterMap_cons, if_neg same]
        exact .refl
    | tableStart | table listed =>
      simp only [view, head, repsAbout, List.filterMap_cons]
      exact .refl
  refine popped.trans ?_
  unfold view
  rw [netd]
  exact Steps.ofFs _ _ (moved id)

theorem append_mark (c : Conv) (bytes : List ConnByte) :
    (c.append bytes).Same ({ c with suppressStaleHangup := false }.append bytes) ∧
      ({ c with suppressStaleHangup := false }.append bytes).live = c.live := by
  have length : ({ c with suppressStaleHangup := false } : Conv).dataLen = c.dataLen := rfl
  unfold Conv.append
  rw [length]
  dsimp only
  split
  · split <;> exact ⟨.marks, rfl⟩
  · exact ⟨.marks, rfl⟩

theorem applyReply_cases (st : Net.State) (i : Nat) (body : Rep) :
    (∀ own, st.Goes own False (st.applyReply (.about i body))) ∨
      ∃ c, st.applyReply (.about i body) = st.set i c ∧ ((st.convs i).live → c.live) ∧ ∀ own may req net rep,
        Steps own may ⟨st.convs i, req, net, body :: rep⟩ ⟨c, req, net, rep⟩ := by
  cases body with
  | cloneOk accepted conn =>
    change (∀ own, st.Goes own False (st.cloneOk i accepted conn)) ∨ ∃ c, st.cloneOk i accepted conn = st.set i c ∧ _
    unfold Net.State.cloneOk
    dsimp only
    split
    · exact .inl fun _ => .refl
    right
    split
    next waits =>
      simp only [Bool.and_eq_true, Bool.not_eq_true'] at waits
      refine ⟨_, rfl, fun alive => alive, fun own may req net rep => ?_⟩
      rw [waits.1.1]
      exact .single (.acked _)
    next other =>
      split
      next installed =>
        refine ⟨_, rfl, fun _ => rfl, fun own may req net rep => .single (.cloned ⟨rfl, rfl, rfl, rfl, rfl, rfl⟩ ?_ ?_)⟩
        · rintro rfl
          rfl
        rintro rfl
        simp only [Bool.not_false, Bool.true_and, Bool.and_eq_true, not_and, Bool.not_eq_true] at other
        simp only [Bool.or_false, Bool.or_eq_true, Bool.not_eq_true'] at installed
        rcases installed with unused | closing
        · exact unused
        · refine Bool.eq_false_iff.mpr fun used => ?_
          rw [other used] at closing
          cases closing
      next kept =>
        simp only [Bool.or_eq_true, not_or, Bool.not_eq_true] at kept
        refine ⟨_, rfl, fun alive => alive, fun own may req net rep => ?_⟩
        rw [kept.2]
        exact .single (.acked _)
  | data bytes =>
    simp only [Net.State.applyReply]
    split
    · exact .inl fun _ => .refl
    next heard =>
      simp only [not_or, Bool.not_eq_true', Bool.not_eq_false] at heard
      have marked := append_mark (st.convs i) bytes
      exact .inr ⟨_, rfl, fun alive => marked.2.trans alive, fun own may req net rep =>
        (ReflTransGen.single (.data heard.2.1)).trans (Steps.ofFs (a := (_, req)) _ _ (.single (.mark marked.1)))⟩
  | status line =>
    simp only [Net.State.applyReply]
    split
    · exact .inl fun _ => .refl
    next heard =>
      simp only [not_or, Bool.not_eq_true] at heard
      exact .inl fun own => Net.State.statusReply_goes own False line heard.2.2
  | err line =>
    simp only [Net.State.applyReply]
    split
    · exact .inl fun _ => .refl
    next heard =>
      simp only [not_or, Bool.not_eq_true] at heard
      split
      next closing =>
        refine .inl fun _ => .set (.single (.free fun _ => ⟨closing, heard.2.2⟩)) fun _ alive => ?_
        cases (Net.State.live_not_closing alive).symm.trans closing
      · exact .inl fun _ => .mark .marks fun _ alive => alive
  | txCredit n conn =>
    simp only [Net.State.applyReply]
    split
    · exact .inl fun _ => .refl
    next heard =>
      simp only [not_or, Bool.not_eq_true', Bool.not_eq_false] at heard
      exact .inr ⟨_, rfl, fun alive => alive, fun own may req net rep => .single (.txCredit heard.2.1)⟩
  | refused =>
    simp only [Net.State.applyReply]
    split
    · exact .inl fun _ => .refl
    · exact .inl fun _ => .mark .marks fun _ alive => alive
  | peer keep =>
    simp only [Net.State.applyReply]
    split
    · exact .inl fun _ => .refl
    · exact .inr ⟨_, rfl, fun alive => alive, fun own may req net rep => .single (.peer keep)⟩

theorem apply_leads (stepped : s.apply = some s') : Leads own may s s' := by
  unfold apply at stepped
  split at stepped
  · cases stepped
  next reply rest head =>
    cases stepped
    cases reply with
    | tableStart | table listed => exact taken_leads rfl head fun _ => .refl
    | about i body =>
      rcases applyReply_cases s.fs i body with moved | ⟨c, made, _, heard⟩
      · exact taken_leads rfl head (moved own).leads
      · exact heard_leads rfl c made head (heard _ _ _ _ _)

theorem read_leads (answered : Netd.State) {r : Request} {rest : List Request}
    (head : s.fs.req = r :: rest)
    (here : Steps (own r.id) (may r.id) ⟨s.fs.convs r.id, r :: reqsAbout r.id rest, s.netd.convs r.id, repsAbout r.id s.netd.rep⟩
      ⟨s.fs.convs r.id, reqsAbout r.id rest, answered.convs r.id, repsAbout r.id answered.rep⟩)
    (there : ∀ id, id ≠ r.id → ReflTransGen Netd.Move (s.netd.side id) (answered.side id)) (moved : answered.Leads netd)
    (retried : ({ s.fs with req := rest } : Net.State).Leads own fs) (sameFs : s'.fs = fs) (sameNetd : s'.netd = netd) :
    Leads own may s s' := by
  intro id
  have read : Steps (own id) (may id) (s.view id)
      ⟨s.fs.convs id, reqsAbout id rest, answered.convs id, repsAbout id answered.rep⟩ := by
    by_cases same : id = r.id
    · subst same
      have first : reqsAbout r.id s.fs.req = r :: reqsAbout r.id rest := by simp [head, reqsAbout]
      unfold view
      rw [first]
      exact here
    · have first : reqsAbout id s.fs.req = reqsAbout id rest := by simp [head, reqsAbout, Ne.symm same]
      unfold view
      rw [first]
      exact Steps.ofNetd _ _ (there id same)
  unfold view
  rw [sameFs, sameNetd]
  exact (read.trans (Steps.ofNetd _ _ (moved id))).trans (Steps.ofFs _ _ (retried id))

theorem popped_leads {r : Request} {rest : List Request} (head : s.fs.req = r :: rest)
    (other : r.body ≠ .clone) (moved : s.netd.Leads netd) (sameFs : s'.fs = ({ s.fs with req := rest } : Net.State).retryCloses)
    (sameNetd : s'.netd = netd) : Leads own may s s' :=
  read_leads s.netd head (.single (.pop other)) (fun _ _ => .refl) moved
    (Net.State.retryCloses_goes own True _).leads sameFs sameNetd

theorem serve_leads {answer : Netd.Answer} (stepped : s.serve answer = some s') : Leads own may s s' := by
  unfold serve at stepped
  split at stepped
  · cases stepped
  next r rest head =>
    have sameFs : s'.fs = ({ s.fs with req := rest } : Net.State).retryCloses := by rw [← Option.some.inj stepped]
    have sameNetd : s'.netd = s.netd.handleReq r answer := by rw [← Option.some.inj stepped]
    have retried := (Net.State.retryCloses_goes own True { s.fs with req := rest }).leads
    cases body : r.body with
    | clone =>
      have dropped := Netd.State.releaseConv_leads s.netd r.id answer.live answer.moved
      refine read_leads (s.netd.handleReq r answer) head ?_ ?_ .refl retried sameFs sameNetd
      · refine .trans (Steps.ofNetd _ _ (dropped r.id)) ?_
        simp only [Netd.State.handleReq, body, Netd.State.handleClone, Netd.State.reply, Netd.State.set,
          Function.update_self, Netd.State.repsAbout_append, if_true]
        exact .single (.bind body)
      · intro id apart
        simp only [Netd.State.handleReq, body, Netd.State.handleClone]
        rw [Netd.State.side_reply_ne _ apart, Netd.State.side_set_ne _ apart]
        exact dropped id
    | ctl cmd =>
      refine popped_leads head (by simp [body]) (Netd.State.handleCtl_leads s.netd r.id cmd answer) sameFs ?_
      rw [sameNetd]
      simp only [Netd.State.handleReq, body]
    | close =>
      refine popped_leads head (by simp [body]) (.trans ?_ (Netd.State.closed_leads
        (s.netd.set r.id { s.netd.convs r.id with released := true }) r.id answer)) sameFs ?_
      · exact .mark .marks
      · rw [sameNetd]
        simp only [Netd.State.handleReq, body]
    | credit n =>
      refine read_leads (s.netd.handleReq r answer) head ?_ ?_ .refl retried sameFs sameNetd
      · simp only [Netd.State.handleReq, body, Netd.State.set, Function.update_self]
        exact .single (.raise body)
      · intro id apart
        simp only [Netd.State.handleReq, body]
        rw [Netd.State.side_set_ne _ apart]
    | send bytes =>
      have handled : s.netd.handleReq r answer = s.netd.handleSend r.id bytes answer.moved := by
        simp only [Netd.State.handleReq, body]
      rw [handled] at sameNetd
      unfold Netd.State.handleSend at sameNetd
      dsimp only at sameNetd
      have plain : r.body ≠ .clone := by simp [body]
      have refusal : Netd.Quiet (.err (.text false)) := trivial
      split at sameNetd
      · split at sameNetd
        · exact popped_leads head plain .refl sameFs sameNetd
        · exact popped_leads head plain (.tell r.id refusal) sameFs sameNetd
      · exact popped_leads head plain .refl sameFs sameNetd
      next tcp =>
        split at sameNetd
        · exact popped_leads head plain .refl sameFs sameNetd
        refine read_leads _ head ?_ ?_ (Netd.State.txCredit_leads _ _ ?_) retried sameFs sameNetd
        · simp only [Netd.State.set, Function.update_self]
          exact .single (.send body fun b mem => List.mem_append.mp (List.mem_of_mem_drop mem))
        · intro id apart
          rw [Netd.State.side_set_ne _ apart]
        · simp [Netd.State.set, tcp]
      · exact popped_leads head plain (.tell r.id refusal) sameFs sameNetd

theorem step_leads {e : Event} (allowed : ∀ id, s.unknown id → may id) (unknown : s.takesUnknown e)
    (owned : ∀ fd ∈ s.fds, own fd.id fd.conn)
    (stepped : s.step e = some s') : Leads own may s s' := by
  cases e with
  | clone uid p =>
    cases stepped
    exact clone_leads allowed unknown
  | openFile uid id zeros p file =>
    exact Lib.guarded stepped fun _ => .same rfl rfl
  | openRef j | share k =>
    exact Lib.mapped stepped fun files _ => .same rfl rfl
  | failedOpen uid id p file =>
    refine Lib.guarded stepped fun _ => ?_
    have released : s.fs.Goes own True (if file == .data then s.fs.netRelease uid id p else s.fs) := by
      split
      · exact Net.State.netRelease_goes own _ uid _ _
      · exact .refl
    exact .ofFs released.leads rfl rfl
  | close uid k =>
    refine Lib.mapped stepped fun fd _ => ?_
    have released : s.fs.Goes own True (s.closed uid fd (s.fds.eraseIdx k)) := by
      unfold closed
      split
      · exact Net.State.netRelease_goes own _ uid _ _
      · exact .refl
    exact .ofFs released.leads rfl rfl
  | read k room =>
    obtain ⟨fd, _, made⟩ := Option.bind_eq_some_iff.mp stepped
    dsimp only at made
    split at made
    · cases made
    · cases made
      exact .ofFs (Net.State.readLocked_goes own True s.fs fd.id fd.proto _ _ room).leads rfl rfl
  | readCtl k =>
    refine Lib.mapped stepped fun fd _ => ?_
    split
    · exact .ofFs (Net.State.readCtl_goes own True s.fs fd.id fd.proto).leads rfl rfl
    · exact .same rfl rfl
  | write uid k src =>
    obtain ⟨fd, found, made⟩ := Option.bind_eq_some_iff.mp stepped
    have mine := owned fd (List.mem_of_getElem? found)
    refine Lib.guarded made fun _ => ?_
    refine .ofFs (Net.State.writeLocked_goes own True s.fs uid fd.id fd.proto _ mine ?_).leads rfl rfl
    intro b mem
    obtain ⟨_, _, rfl⟩ := List.mem_map.mp mem
    exact mine
  | writeCtl uid k cmd =>
    refine Lib.mapped stepped fun fd _ => ?_
    split
    · exact .ofFs (Net.State.writeCtl_goes own s.fs uid fd.id fd.proto fd.conn cmd).leads rfl rfl
    · exact .same rfl rfl
  | look uid k =>
    refine Lib.mapped stepped fun fd _ => ?_
    split
    · exact .ofFs (Net.State.returnCredit_goes own True s.fs fd.id).leads rfl rfl
    · exact .same rfl rfl
  | apply => exact apply_leads stepped
  | serve answer => exact serve_leads stepped
  | handOff l received => exact handOff_leads allowed unknown stepped
  | pass p =>
    exact Lib.mapped stepped fun netd passed => .ofNetd (Netd.State.pass_leads passed) rfl rfl

end State
end Myos.Modules.Netfs.Net.Run
