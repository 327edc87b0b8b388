import Myos.Modules.Netfs.NetRun

namespace Myos.User.Netd

open Relation Myos.Modules.Netfs.Net
open Myos.Modules.Netfs.Net.Run (repsAbout)

structure Conv.Same (c c' : Conv) : Prop where
  kind : c'.kind = c.kind
  rxRoom : c'.rxRoom = c.rxRoom
  conn : c'.conn = c.conn
  pending : ∀ b ∈ c'.pending, b ∈ c.pending

theorem Conv.Same.marks {c : Conv} {handle haveRemote connected hungup listening acceptWait closing closingAfterFlush fromAccept
    held released : Bool} {accepted acceptedPending : Option Nat} {acceptSeq : Nat} :
    c.Same ⟨c.kind, handle, haveRemote, connected, hungup, c.pending, listening, acceptWait, accepted, acceptedPending, c.rxRoom,
      acceptSeq, closing, closingAfterFlush, fromAccept, held, released, c.conn⟩ :=
  ⟨rfl, rfl, rfl, fun _ mem => mem⟩

def Quiet : Rep → Prop
  | .status _ | .err _ | .refused | .peer _ => True
  | _ => False

inductive Move : Conv × List Rep → Conv × List Rep → Prop
  | mark {c c' : Conv} {rep : List Rep} : c.Same c' → Move (c, rep) (c', rep)
  | free {c : Conv} {rep : List Rep} : Move (c, rep) (.EMPTY, rep)
  | tell {c : Conv} {rep : List Rep} {body : Rep} : Quiet body → Move (c, rep) (c, rep ++ [body])
  | txCredit {c : Conv} {rep : List Rep} (n : Nat) : c.kind ≠ none → Move (c, rep) (c, rep ++ [.txCredit n c.conn])
  | recv {c : Conv} {rep : List Rep} {bytes : List ConnByte} : c.kind = some .tcp → bytes.length ≤ c.rxRoom →
      (∀ b ∈ bytes, b.1 = c.conn) →
      Move (c, rep) ({ c with rxRoom := c.rxRoom - bytes.length }, rep ++ [.data bytes])
  | datagram {c : Conv} {rep : List Rep} {bytes : List ConnByte} : c.kind ≠ none → c.kind ≠ some .tcp →
      (∀ b ∈ bytes, b.1 = c.conn) → Move (c, rep) (c, rep ++ [.data bytes])

namespace State

variable {st st' : State}

def side (st : State) (i : Nat) : Conv × List Rep := (st.convs i, repsAbout i st.rep)

def Leads (st st' : State) : Prop := ∀ i, ReflTransGen Move (st.side i) (st'.side i)

theorem Leads.refl : Leads st st := fun _ => .refl

theorem Leads.trans {st'' : State} (first : Leads st st') (then_ : Leads st' st'') : Leads st st'' :=
  fun i => (first i).trans (then_ i)

theorem side_set_self (i : Nat) (c : Conv) : (st.set i c).side i = (c, repsAbout i st.rep) := by
  simp [side, set]

variable {c : Conv} {i : Nat} {body : Rep}

theorem side_set_ne {other : Nat} (c : Conv) (apart : other ≠ i) : (st.set i c).side other = st.side other := by
  simp [side, set, Function.update_of_ne apart]

theorem repsAbout_append (i : Nat) (rep : List Reply) (other : Nat) (body : Rep) :
    repsAbout i (rep ++ [.about other body]) = repsAbout i rep ++ if other = i then [body] else [] := by
  unfold repsAbout
  by_cases same : other = i <;> simp [List.filterMap_append, same]

theorem side_reply_self (i : Nat) (body : Rep) : (st.reply i body).side i = (st.convs i, repsAbout i st.rep ++ [body]) := by
  simp [side, reply, repsAbout_append]

theorem side_reply_ne {other : Nat} (body : Rep) (apart : other ≠ i) : (st.reply i body).side other = st.side other := by
  simp [side, reply, repsAbout_append, Ne.symm apart]

theorem Leads.set (moves : ReflTransGen Move (st.side i) (c, repsAbout i st.rep)) :
    Leads st (st.set i c) := by
  intro other
  by_cases same : other = i
  · subst same
    rw [side_set_self]
    exact moves
  · rw [side_set_ne c same]

theorem Leads.mark (same : (st.convs i).Same c) : Leads st (st.set i c) :=
  .set (.single (.mark same))

theorem Leads.free (i : Nat) : Leads st (st.set i .EMPTY) := .set (.single .free)

theorem Leads.reply
    (moves : ReflTransGen Move (st.side i) (st.convs i, repsAbout i st.rep ++ [body])) : Leads st (st.reply i body) := by
  intro other
  by_cases same : other = i
  · subst same
    rw [side_reply_self]
    exact moves
  · rw [side_reply_ne body same]

theorem Leads.tell (i : Nat) (quiet : Quiet body) : Leads st (st.reply i body) :=
  .reply (.single (.tell quiet))

theorem Leads.andMark (moved : Leads st st') (same : (st'.convs i).Same c) : Leads st (st'.set i c) :=
  moved.trans (.mark same)

theorem Leads.andTell (moved : Leads st st') (quiet : Quiet body) : Leads st (st'.reply i body) :=
  moved.trans (.tell i quiet)

theorem Leads.markTell (same : (st.convs i).Same c) (quiet : Quiet body) :
    Leads st ((st.set i c).reply i body) := (Leads.mark same).andTell quiet

theorem publishHead_leads (st : State) (l : Nat) (head : Option Nat) : Leads st (st.publishHead l head) := by
  cases head with
  | none => exact .markTell .marks trivial
  | some n => exact .markTell .marks trivial

theorem Leads.andPublish (moved : Leads st st') {l : Nat} {head : Option Nat} : Leads st (st'.publishHead l head) :=
  moved.trans (publishHead_leads st' l head)

variable (st)

theorem txCredit_leads (n : Nat) (used : (st.convs i).kind ≠ none) : Leads st (st.txCredit i n) := by
  unfold txCredit
  generalize (List.replicate _ _ ++ _ : List Nat) = parts
  induction parts generalizing st with
  | nil => exact .refl
  | cons m rest ih => exact .trans (.reply (.single (.txCredit m used))) (ih _ used)

theorem retire_leads (i : Nat) : Leads st (st.retire i) := by
  unfold retire
  dsimp only
  split
  · exact .mark ⟨rfl, rfl, rfl, fun _ mem => nomatch mem⟩
  · exact .free i

theorem dropConv_leads (i : Nat) (live : Bool) (moved : Nat) : Leads st (st.dropConv i live moved) := by
  have less : ∀ b ∈ (st.convs i).pending.drop moved, b ∈ (st.convs i).pending := fun _ mem => List.mem_of_mem_drop mem
  unfold dropConv
  dsimp only
  split
  · exact .refl
  split
  · exact .refl
  split
  · split
    · exact .mark ⟨rfl, rfl, rfl, less⟩
    · exact .mark ⟨rfl, rfl, rfl, less⟩
  · exact retire_leads st i

theorem releaseConv_leads (i : Nat) (live : Bool) (moved : Nat) : Leads st (st.releaseConv i live moved) := by
  unfold releaseConv
  dsimp only
  split
  · exact (dropConv_leads st i live moved).trans (.free i)
  · exact dropConv_leads st i live moved

theorem recv_leads (i : Nat) (received : List (BitVec 8)) : Leads st (st.recv i received) := by
  unfold recv
  dsimp only
  split
  · exact .refl
  next ok =>
    have tcp : (st.convs i).kind = some .tcp := by
      by_contra other
      exact ok (.inl other)
    generalize given : received.take (min (st.convs i).rxRoom (REP_CAP - REP_HDR)) = out
    have fits : (out.map fun b => ((st.convs i).conn, b)).length ≤ (st.convs i).rxRoom := by
      rw [List.length_map, ← given, List.length_take]
      exact Nat.le_trans (Nat.min_le_left _ _) (Nat.min_le_left _ _)
    have tagged : ∀ b ∈ out.map fun b => ((st.convs i).conn, b), b.1 = (st.convs i).conn := by
      intro b mem
      obtain ⟨_, _, rfl⟩ := List.mem_map.mp mem
      rfl
    have moved := @Move.recv _ (repsAbout i st.rep) _ tcp fits tagged
    rw [List.length_map] at moved
    -- the room taken and the message are one move
    intro other
    by_cases same : other = i
    · subst same
      rw [side_reply_self]
      simp only [State.set, Function.update_self]
      exact .single moved
    · rw [side_reply_ne _ same, side_set_ne _ same]

theorem drainTcpRxIntoRep_leads (i : Nat) (received : List (List (BitVec 8))) :
    Leads st (st.drainTcpRxIntoRep i received) := by
  unfold drainTcpRxIntoRep
  generalize received.take 8 = chunks
  induction chunks generalizing st with
  | nil => exact .refl
  | cons chunk rest ih => exact (recv_leads st i chunk).trans (ih _)

theorem unpark_leads (i : Nat) (st : State) (l : Nat) : Leads st (unpark i st l) := by
  unfold unpark
  dsimp only
  split
  · apply Leads.andPublish
    exact .mark .marks
  · exact .mark .marks

theorem forceFreeOrphan_leads (i : Nat) (received : List (List (BitVec 8))) :
    Leads st (st.forceFreeOrphan i received) := by
  have unparked : ∀ ls : List Nat, Leads st (ls.foldl (unpark i) st) := by
    intro ls
    induction ls generalizing st with
    | nil => exact .refl
    | cons l rest ih => exact (unpark_leads i st l).trans (ih _)
  have drained := (unparked (List.range MAX_CONV)).trans (drainTcpRxIntoRep_leads _ i received)
  unfold forceFreeOrphan
  dsimp only
  split
  · refine .trans ?_ (.free i)
    exact drained.andTell trivial
  · exact drained.trans (.free i)

theorem freeParked_leads (parked : Option Nat) (received : List (List (BitVec 8))) :
    Leads st (st.freeParked parked received) := by
  unfold freeParked
  split
  · split
    · exact forceFreeOrphan_leads st _ received
    · exact .refl
  · exact .refl

theorem closeListener_leads (i : Nat) (first second : List (List (BitVec 8))) :
    Leads st (st.closeListener i first second) :=
  ((Leads.free i).trans (freeParked_leads _ _ first)).trans (freeParked_leads _ _ second)

theorem republish_leads (i : Nat) : Leads st (st.republish i) := by
  unfold republish
  split
  · exact .tell i trivial
  · exact .tell i trivial

theorem handleUdpCtl_leads (i : Nat) (cmd : Ctl) (answer : Answer) :
    Leads st (st.handleUdpCtl i cmd answer) := by
  have answered : ∀ named, Leads st named →
      Leads st (if answer.ok then named.reply i (.status answer.line) else named.reply i (.err .error)) := by
    intro named moved
    split
    · exact moved.andTell trivial
    · exact moved.andTell trivial
  apply answered
  split
  · exact .markTell .marks trivial
  · exact .refl

theorem taken_leads (i : Nat) (seq : Option Nat) : Leads st (st.taken i seq) := by
  unfold taken
  dsimp only
  split
  · exact republish_leads st i
  next n _ =>
    split
    · exact republish_leads st i
    apply Leads.andPublish
    refine .andMark ?_ .marks
    split
    · exact .mark .marks
    · exact .refl

theorem handleCtl_leads (i : Nat) (cmd : Ctl) (answer : Answer) : Leads st (st.handleCtl i cmd answer) := by
  unfold handleCtl
  dsimp only
  split
  · refine .andTell (.trans ?_ (dropConv_leads _ i _ _)) trivial
    split
    · exact .tell i trivial
    · exact .refl
  split
  · exact handleUdpCtl_leads st i cmd answer
  split
  · split
    · exact .markTell .marks trivial
    · exact .tell i trivial
  · split
    · exact taken_leads st i _
    · exact .tell i trivial
  · split
    · exact .tell i trivial
    split
    · refine .andMark ?_ .marks
      exact .tell i trivial
    · exact republish_leads st i
  · split
    · exact .markTell .marks trivial
    · split
      · exact .mark .marks
      · split
        · exact .markTell .marks trivial
        · exact .markTell .marks trivial
    · exact .tell i trivial
  · exact .tell i trivial

theorem closed_leads (i : Nat) (answer : Answer) :
    Leads st ((if st.isListener i then st.closeListener i answer.first answer.second
      else st.releaseConv i answer.live answer.moved).reply i (.status .hangup)) := by
  split
  · exact (closeListener_leads st i _ _).andTell trivial
  · exact (releaseConv_leads st i _ _).andTell trivial

theorem flush_leads (i moved : Nat) (used : (st.convs i).kind ≠ none) : Leads st (st.flush i moved) := by
  have less : ∀ b ∈ (st.convs i).pending.drop moved, b ∈ (st.convs i).pending := fun _ mem => List.mem_of_mem_drop mem
  have told : Leads st ((st.set i { st.convs i with pending := (st.convs i).pending.drop moved }).txCredit i
      (min moved (st.convs i).pending.length)) := by
    refine .trans ?_ (txCredit_leads _ _ ?_)
    · exact .mark ⟨rfl, rfl, rfl, less⟩
    · simpa [State.set] using used
  unfold flush
  dsimp only
  split
  · exact told.andMark .marks
  · exact told

theorem unparkStale_leads (i : Nat) : Leads st (st.unparkStale i) := by
  unfold unparkStale
  dsimp only
  split
  · apply Leads.andPublish
    exact .mark .marks
  · exact .mark .marks

variable {st}

theorem pass_leads {p : Pass} (passed : st.pass p = some st') : Leads st st' := by
  have tableLeads : ∀ reply : Reply, (∀ i body, reply ≠ .about i body) →
      Leads st { st with rep := st.rep ++ [reply] } := by
    intro reply other i
    have unchanged : repsAbout i (st.rep ++ [reply]) = repsAbout i st.rep := by
      cases reply with
      | about j body => exact absurd rfl (other j body)
      | tableStart => simp [repsAbout]
      | table listed => simp [repsAbout]
    change ReflTransGen Move (st.convs i, repsAbout i st.rep) (st.convs i, repsAbout i (st.rep ++ [reply]))
    rw [unchanged]
  cases p with
  | flush i moved =>
    refine Lib.guarded passed fun ⟨_, looked⟩ => ?_
    simp only [pumped, Bool.and_eq_true, decide_eq_true_eq] at looked
    exact flush_leads st i moved (by simp [looked.1.1])
  | connected i | hangup i =>
    exact Lib.guarded passed fun _ => .markTell .marks trivial
  | recv i received =>
    exact Lib.guarded passed fun _ => recv_leads st i received
  | datagram i received =>
    refine Lib.guarded passed fun ⟨_, kind, _⟩ => ?_
    refine .reply (.single (.datagram ?_ ?_ ?_))
    · rcases kind with kind | kind <;> simp [kind]
    · rcases kind with kind | kind <;> simp [kind]
    · intro b mem
      obtain ⟨_, _, rfl⟩ := List.mem_map.mp mem
      rfl
  | refused i =>
    exact Lib.guarded passed fun _ => .tell i trivial
  | finish i =>
    exact Lib.guarded passed fun _ => retire_leads st i
  | drop i received live moved =>
    exact Lib.guarded passed fun _ => (drainTcpRxIntoRep_leads st i received).trans (dropConv_leads _ i live moved)
  | orphan i received =>
    exact Lib.guarded passed fun _ => forceFreeOrphan_leads st i received
  | unparkStale i =>
    exact Lib.guarded passed fun _ => unparkStale_leads st i
  | rearm i =>
    exact Lib.guarded passed fun _ => .mark .marks
  | tableStart | table =>
    cases passed
    exact tableLeads _ fun _ _ same => nomatch same

end State
end Myos.User.Netd
