import Myos.Modules.Netfs.NetViews

namespace Myos.Modules.Netfs.Net.Run

open Relation Myos.User

structure Known (cur : Nat) (p : Proto) (v : View) : Prop where
  slot : v.slot.used → v.slot.conn = cur ∧ v.slot.proto = p
  net : ∀ k, v.net.kind = some k → v.net.conn = cur ∧ k = p
  clones : ∀ r ∈ v.req, r.body = .clone → r.conn = cur ∧ r.proto = p ∧ v.net.kind = none
  credits : ∀ r ∈ v.req, ∀ n, r.body = .credit n → r.conn = cur
  answers : ∀ accepted conn, .cloneOk accepted conn ∈ v.rep → conn = cur ∧ (accepted = true → p = .tcp)
  rooms : ∀ n conn, .txCredit n conn ∈ v.rep → conn = cur
  once : v.req.countP (Req.isClone ·.body) + v.rep.countP Rep.isCloneOk ≤ 1
  waits : (∃ r ∈ v.req, r.body = .clone) ∨ (∃ conn, .cloneOk false conn ∈ v.rep) → v.slot.used ∧ v.slot.cloning

variable {own : Nat → Prop} {may : Prop} {cur : Nat} {p : Proto} {v v' : View}

theorem isClone_iff {body : Req} : body.isClone ↔ body = .clone := by
  cases body <;> simp [Req.isClone]

theorem take_same (c : Conv) (hdr : Bool) (room : Nat) :
    (c.take hdr room).2.2.used = c.used ∧ (c.take hdr room).2.2.conn = c.conn ∧ (c.take hdr room).2.2.proto = c.proto ∧
      (c.take hdr room).2.2.cloning = c.cloning := by
  unfold Conv.take
  split <;> exact ⟨rfl, rfl, rfl, rfl⟩

theorem append_same (c : Conv) (bytes : List ConnByte) :
    (c.append bytes).used = c.used ∧ (c.append bytes).conn = c.conn ∧ (c.append bytes).proto = c.proto ∧
      (c.append bytes).cloning = c.cloning := by
  unfold Conv.append
  split
  · split <;> exact ⟨rfl, rfl, rfl, rfl⟩
  · exact ⟨rfl, rfl, rfl, rfl⟩

variable {slot : Conv} {rep : List Rep} {req : List Request} {net : Netd.Conv} {r : Request}

variable (known : Known cur p ⟨slot, req, net, rep⟩)
include known

theorem Known.keepSlot {slot' : Conv}
    (used : slot'.used = slot.used) (conn : slot'.conn = slot.conn)
    (proto : slot'.proto = slot.proto) (cloning : slot'.cloning = slot.cloning) : Known cur p ⟨slot', req, net, rep⟩ where
  slot on := by
    have mine := known.slot (used ▸ on)
    exact ⟨conn.trans mine.1, proto.trans mine.2⟩
  net := known.net
  clones := known.clones
  credits := known.credits
  answers := known.answers
  rooms := known.rooms
  once := known.once
  waits under := by
    have mine := known.waits under
    exact ⟨used.trans mine.1, cloning.trans mine.2⟩

theorem Known.ask
    (other : r.body ≠ .clone) (credit : ∀ n, r.body = .credit n → r.conn = cur) :
    Known cur p ⟨slot, req ++ [r], net, rep⟩ where
  slot := known.slot
  net := known.net
  clones q mem clone := by
    rcases List.mem_append.mp mem with old | new
    · exact known.clones q old clone
    · rw [List.mem_singleton.mp new] at clone
      exact absurd clone other
  credits q mem n body := by
    rcases List.mem_append.mp mem with old | new
    · exact known.credits q old n body
    · rw [List.mem_singleton.mp new] at body ⊢
      exact credit n body
  answers := known.answers
  rooms := known.rooms
  once := by
    have single : [r].countP (Req.isClone ·.body) = 0 := by
      simpa [isClone_iff] using other
    have once := known.once
    rw [List.countP_append, single]
    exact once
  waits under := by
    refine known.waits (under.imp_left fun ⟨q, mem, clone⟩ => ⟨q, ?_, clone⟩)
    rcases List.mem_append.mp mem with old | new
    · exact old
    · rw [List.mem_singleton.mp new] at clone
      exact absurd clone other

omit known in
theorem Known.move {a b : Conv × List Request} (known : Known cur p ⟨a.1, a.2, net, rep⟩)
    (move : Move own a b) : Known cur p ⟨b.1, b.2, net, rep⟩ := by
  cases move with
  | mark same => exact known.keepSlot same.used same.conn same.proto same.cloning
  | free isOver =>
    exact {
      slot on := nomatch on
      net := known.net
      clones := known.clones
      credits := known.credits
      answers := known.answers
      rooms := known.rooms
      once := known.once
      waits under := by
        -- a slot that waits for its clone is never the one freed
        have mine := known.waits under
        have answered := (isOver mine.1).2
        rw [mine.2] at answered
        cases answered }
  | @take c req hdr room used =>
    obtain ⟨used, conn, proto, cloning⟩ := take_same c hdr room
    exact known.keepSlot used conn proto cloning
  | @credit c req r used body conn =>
    have slot : Known cur p ⟨{ c with credit := 0 }, req, net, rep⟩ := known.keepSlot rfl rfl rfl rfl
    exact slot.ask (by simp [body]) fun _ _ => conn.trans (known.slot used).1
  | @ask c req r plain =>
    have plain : r.Plain own := plain
    exact known.ask plain.not_clone fun n body => absurd body (plain.not_credit n)
  | spend => exact known.keepSlot rfl rfl rfl rfl

theorem Known.keepNet {net' : Netd.Conv}
    (kind : net'.kind = net.kind ∨ net'.kind = none)
    (conn : net'.kind ≠ none → net'.conn = net.conn) : Known cur p ⟨slot, req, net', rep⟩ where
  slot := known.slot
  net k is := by
    rcases kind with kind | kind
    · have mine := known.net k (kind ▸ is)
      have is : net'.kind = some k := is
      exact ⟨(conn (by simp [is])).trans mine.1, mine.2⟩
    · rw [kind] at is
      cases is
  clones r mem clone := by
    have mine := known.clones r mem clone
    refine ⟨mine.1, mine.2.1, ?_⟩
    rcases kind with kind | kind
    · exact kind.trans mine.2.2
    · exact kind
  credits := known.credits
  answers := known.answers
  rooms := known.rooms
  once := known.once
  waits := known.waits

theorem Known.tell {body : Rep}
    (other : body.isCloneOk = false)
    (room : ∀ n conn, body = .txCredit n conn → conn = cur) : Known cur p ⟨slot, req, net, rep ++ [body]⟩ where
  slot := known.slot
  net := known.net
  clones := known.clones
  credits := known.credits
  answers accepted conn mem := by
    rcases List.mem_append.mp mem with old | new
    · exact known.answers accepted conn old
    · rw [← List.mem_singleton.mp new] at other
      cases other
  rooms n conn mem := by
    rcases List.mem_append.mp mem with old | new
    · exact known.rooms n conn old
    · exact room n conn (List.mem_singleton.mp new).symm
  once := by
    have once := known.once
    rw [List.countP_append, List.countP_singleton, other]
    exact once
  waits under := by
    refine known.waits (under.imp_right fun ⟨conn, mem⟩ => ⟨conn, ?_⟩)
    rcases List.mem_append.mp mem with old | new
    · exact old
    · rw [← List.mem_singleton.mp new] at other
      cases other

omit known

theorem Known.netdMove {a b : Netd.Conv × List Rep}
    (known : Known cur p ⟨slot, req, a.1, a.2⟩) (move : Netd.Move a b) : Known cur p ⟨slot, req, b.1, b.2⟩ := by
  cases move with
  | mark same => exact known.keepNet (.inl same.kind) fun _ => same.conn
  | free => exact known.keepNet (.inr rfl) fun used => absurd rfl used
  | @tell c rep body quiet =>
    refine known.tell ?_ ?_
    · cases body with
      | cloneOk => exact quiet.elim
      | _ => rfl
    · rintro n conn rfl
      exact quiet.elim
  | @txCredit c rep n used =>
    refine known.tell rfl ?_
    intro m conn same
    obtain ⟨k, is⟩ := Option.ne_none_iff_exists'.mp used
    cases same
    exact (known.net k is).1
  | @recv c rep bytes tcp fits tagged =>
    have told : Known cur p ⟨slot, req, c, rep ++ [.data bytes]⟩ := known.tell rfl (fun _ _ same => nomatch same)
    exact told.keepNet (.inl rfl) fun _ => rfl
  | datagram => exact known.tell rfl (fun _ _ same => nomatch same)

theorem Known.drop {body : Rep}
    (known : Known cur p ⟨slot, req, net, body :: rep⟩) : Known cur p ⟨slot, req, net, rep⟩ where
  slot := known.slot
  net := known.net
  clones := known.clones
  credits := known.credits
  answers accepted conn mem := known.answers accepted conn (.tail _ mem)
  rooms n conn mem := known.rooms n conn (.tail _ mem)
  once := by
    have once := known.once
    dsimp only at once ⊢
    rw [List.countP_cons] at once
    omega
  waits under := known.waits (under.imp_right fun ⟨conn, mem⟩ => ⟨conn, List.mem_cons_of_mem _ mem⟩)

theorem Known.pop
    (known : Known cur p ⟨slot, r :: req, net, rep⟩) : Known cur p ⟨slot, req, net, rep⟩ where
  slot := known.slot
  net := known.net
  clones q mem := known.clones q (.tail _ mem)
  credits q mem := known.credits q (.tail _ mem)
  answers := known.answers
  rooms := known.rooms
  once := by
    have once := known.once
    dsimp only at once ⊢
    rw [List.countP_cons] at once
    omega
  waits under := known.waits (under.imp_left fun ⟨q, mem, clone⟩ => ⟨q, List.mem_cons_of_mem _ mem, clone⟩)

theorem Known.bind (bind : Bind cur p v v') : Known cur p v' := by
  cases bind with
  | @alloc slot slot' r net unused empty clone conn proto fresh same cloning =>
    exact {
      slot _ := ⟨fresh.conn, same⟩
      net k is := by
        rw [empty] at is
        cases is
      clones q mem _ := by
        rw [List.mem_singleton.mp mem]
        exact ⟨conn, proto, empty⟩
      credits q mem n body := by
        rw [List.mem_singleton.mp mem, clone] at body
        cases body
      answers _ _ mem := nomatch mem
      rooms _ _ mem := nomatch mem
      once := List.countP_le_length
      waits _ := ⟨fresh.used, cloning⟩ }
  | @accept slot net net' tcp unused empty kind room pending conn =>
    exact {
      slot on := by
        rw [unused] at on
        cases on
      net k is := by
        rw [kind] at is
        cases is
        exact ⟨conn, tcp.symm⟩
      clones _ mem := nomatch mem
      credits _ mem := nomatch mem
      answers accepted other mem := by
        cases List.mem_singleton.mp mem
        exact ⟨rfl, fun _ => tcp⟩
      rooms n other mem := by cases List.mem_singleton.mp mem
      once := by simp [Rep.isCloneOk]
      waits under := by
        rcases under with ⟨_, mem, _⟩ | ⟨_, mem⟩
        · cases mem
        · cases List.mem_singleton.mp mem }

theorem Known.answer {net' : Netd.Conv}
    (known : Known cur p ⟨slot, r :: req, net, rep⟩) (clone : r.body = .clone) (kind : net'.kind = some r.proto)
    (conn : net'.conn = r.conn) : Known cur p ⟨slot, req, net', rep ++ [.cloneOk false r.conn]⟩ := by
  have mine := known.clones r (.head _) clone
  have once := known.once
  dsimp only at once
  rw [List.countP_cons, if_pos (isClone_iff.mpr clone)] at once
  -- it was the only clone under way
  have alone : req.countP (Req.isClone ·.body) = 0 := by omega
  have missing : ∀ q ∈ req, q.body ≠ .clone := fun q mem same =>
    List.countP_eq_zero.mp alone q mem (isClone_iff.mpr same)
  exact {
    slot := known.slot
    net k is := by
      have is : net'.kind = some k := is
      rw [kind] at is
      cases is
      exact ⟨conn.trans mine.1, mine.2.1⟩
    clones q mem same := absurd same (missing q mem)
    credits q mem := known.credits q (.tail _ mem)
    answers accepted other mem := by
      rcases List.mem_append.mp mem with old | new
      · exact known.answers accepted other old
      · cases List.mem_singleton.mp new
        exact ⟨mine.1, fun same => nomatch same⟩
    rooms n other mem := by
      rcases List.mem_append.mp mem with old | new
      · exact known.rooms n other old
      · cases List.mem_singleton.mp new
    once := by
      rw [List.countP_append, List.countP_singleton, alone]
      simp only [Rep.isCloneOk, if_true]
      omega
    waits _ := known.waits (.inl ⟨r, List.mem_cons_self, clone⟩) }

theorem Known.settled {accepted : Bool} {conn : Nat}
    (known : Known cur p ⟨slot, req, net, .cloneOk accepted conn :: rep⟩) :
    ¬((∃ r ∈ req, r.body = .clone) ∨ ∃ conn, .cloneOk false conn ∈ rep) := by
  have once := known.once
  dsimp only at once
  have counted : (Rep.cloneOk accepted conn).isCloneOk = true := rfl
  rw [List.countP_cons, if_pos counted] at once
  have noClone : req.countP (Req.isClone ·.body) = 0 := by omega
  have noAnswer : rep.countP Rep.isCloneOk = 0 := by omega
  rintro (⟨r, mem, clone⟩ | ⟨other, mem⟩)
  · exact List.countP_eq_zero.mp noClone r mem (isClone_iff.mpr clone)
  · exact List.countP_eq_zero.mp noAnswer _ mem rfl

theorem Known.answered {slot' : Conv} {accepted : Bool}
    {conn : Nat} (known : Known cur p ⟨slot, req, net, .cloneOk accepted conn :: rep⟩)
    (mine : slot'.used → slot'.conn = cur ∧ slot'.proto = p) : Known cur p ⟨slot', req, net, rep⟩ :=
  { known.drop with slot := mine, waits := fun under => absurd under known.settled }

theorem Known.step (known : Known cur p v) (step : Step own may v v') :
    Known cur p v' ∨ may ∧ ∃ conn q, Bind conn q v v' := by
  cases step with
  | fs move => exact .inl (known.move move)
  | netd move => exact .inl (known.netdMove move)
  | drop => exact .inl known.drop
  | @data slot req net rep bytes used =>
    obtain ⟨used, conn, proto, cloning⟩ := append_same slot bytes
    exact .inl (known.drop.keepSlot used conn proto cloning)
  | @cloned slot slot' req net rep accepted conn fresh tcp lost =>
    have mine := known.answers accepted conn (.head _)
    cases accepted with
    | true => exact .inl (known.answered fun _ => ⟨fresh.conn.trans mine.1, (tcp rfl).trans (mine.2 rfl).symm⟩)
    | false =>
      -- a slot never loses its own clone
      have waits := known.waits (.inr ⟨conn, List.mem_cons_self⟩)
      rw [lost rfl] at waits
      cases waits.1
  | acked line => exact .inl (known.answered known.slot)
  | txCredit | peer keep => exact .inl (known.drop.keepSlot rfl rfl rfl rfl)
  | pop => exact .inl known.pop
  | send body | raise => exact .inl (known.pop.keepNet (.inl rfl) fun _ => rfl)
  | bind clone => exact .inl (known.answer clone rfl rfl)
  | take free bind => exact .inr ⟨free, _, _, bind⟩

theorem blank_known (ring id : Nat) : Known 0 .udp ((blank ring).view id) where
  slot on := nomatch on
  net _ is := nomatch is
  clones _ mem := nomatch mem
  credits _ mem := nomatch mem
  answers _ _ mem := nomatch mem
  rooms _ _ mem := nomatch mem
  once := Nat.zero_le _
  waits under := by
    rcases under with ⟨_, mem, _⟩ | ⟨_, mem⟩ <;> cases mem

end Myos.Modules.Netfs.Net.Run
