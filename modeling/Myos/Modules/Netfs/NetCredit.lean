import Myos.Modules.Netfs.NetKnown

namespace Myos.Modules.Netfs.Net

open Relation Myos.User

def Rep.size : Rep → Nat
  | .data bytes => bytes.length
  | _ => 0

def Req.owed : Req → Nat
  | .credit n => n
  | _ => 0

namespace Run

def sent (rep : List Rep) : Nat := (rep.map Rep.size).sum

def owed (req : List Request) : Nat := (req.map (Req.owed ·.body)).sum

namespace View

def load (v : View) : Nat := v.slot.dataLen + v.slot.credit + sent v.rep + owed v.req

end View

structure Balanced (p : Proto) (v : View) : Prop where
  unused : v.slot.used = false → v.slot.dataLen + v.slot.credit = 0
  window : v.slot.txRoom ≤ TX_CAP
  room : v.net.rxRoom ≤ Netd.NETFS_RX_CAP
  fresh : p = .tcp → (∃ r ∈ v.req, r.body = .clone) → v.load = 0
  load : p = .tcp → v.load ≤ DATA_CAP
  total : v.net.kind = some .tcp → v.load + v.net.rxRoom ≤ DATA_CAP

variable {own : Nat → Prop} {may : Prop} {cur : Nat} {p : Proto} {v v' : View}

@[simp] theorem sent_append (rep : List Rep) (body : Rep) : sent (rep ++ [body]) = sent rep + body.size := by
  simp [sent]

@[simp] theorem sent_cons (body : Rep) (rep : List Rep) : sent (body :: rep) = body.size + sent rep := by
  simp [sent]

@[simp] theorem owed_append (req : List Request) (r : Request) : owed (req ++ [r]) = owed req + r.body.owed := by
  simp [owed]

@[simp] theorem owed_cons (r : Request) (req : List Request) : owed (r :: req) = r.body.owed + owed req := by
  simp [owed]

theorem take_dataLen (c : Conv) (hdr : Bool) (room : Nat) :
    (c.take hdr room).2.2.dataLen + (c.take hdr room).2.1 = c.dataLen := by
  unfold Conv.take
  split
  next d rest _ same =>
    simp only [Conv.dataLen, same, List.map_cons, List.sum_cons]
    omega
  · rfl
  · simp only [Conv.dataLen, List.length_drop]
    omega

theorem append_dataLen {c : Conv} (tcp : c.proto = .tcp) (bytes : List ConnByte) :
    (c.append bytes).dataLen ≤ c.dataLen + bytes.length := by
  simp only [Conv.append, tcp, Conv.dataLen, List.length_append, List.length_take]
  omega

variable {slot : Conv} {rep : List Rep} {req : List Request} {net : Netd.Conv}

theorem Balanced.lessSlot {slot' : Conv} {req' : List Request} {rep' : List Rep}
    (balanced : Balanced p ⟨slot, req, net, rep⟩) (unused : slot'.used = false → slot'.dataLen + slot'.credit = 0)
    (window : slot'.txRoom ≤ TX_CAP) (clones : (∃ r ∈ req', r.body = .clone) → ∃ r ∈ req, r.body = .clone)
    (load : View.load ⟨slot', req', net, rep'⟩ ≤ View.load ⟨slot, req, net, rep⟩) : Balanced p ⟨slot', req', net, rep'⟩ where
  unused := unused
  window := window
  room := balanced.room
  fresh tcp clone := Nat.le_zero.mp (Nat.le_trans load (Nat.le_of_eq (balanced.fresh tcp (clones clone))))
  load tcp := Nat.le_trans load (balanced.load tcp)
  total kind := Nat.le_trans (Nat.add_le_add_right load _) (balanced.total kind)

theorem clone_of_append {r : Request} (other : r.body ≠ .clone)
    (clone : ∃ q ∈ req ++ [r], q.body = .clone) : ∃ q ∈ req, q.body = .clone := by
  obtain ⟨q, mem, same⟩ := clone
  rcases List.mem_append.mp mem with old | new
  · exact ⟨q, old, same⟩
  · rw [List.mem_singleton.mp new] at same
    exact absurd same other

theorem load_mark {c c' : Conv} (same : c.Same c') : c'.dataLen + c'.credit = c.dataLen + c.credit := by
  unfold Conv.dataLen
  rw [same.stream, same.datagrams, same.credit]

theorem Balanced.move {a b : Conv × List Request}
    (balanced : Balanced p ⟨a.1, a.2, net, rep⟩) (move : Move own a b) : Balanced p ⟨b.1, b.2, net, rep⟩ := by
  cases move with
  | @mark c c' req same =>
    have held := load_mark same
    refine balanced.lessSlot ?_ ?_ id ?_
    · intro off
      rw [held]
      exact balanced.unused (same.used.symm.trans off)
    · rw [same.txRoom]
      exact balanced.window
    · unfold View.load
      dsimp only
      omega
  | @free c req isOver =>
    refine balanced.lessSlot (fun _ => rfl) (Nat.le_refl _) id ?_
    have missing : Conv.EMPTY.dataLen + Conv.EMPTY.credit = 0 := rfl
    unfold View.load
    dsimp only
    omega
  | @take c req hdr room used =>
    have split := take_dataLen c hdr room
    have small := Nat.mod_le (c.credit + (c.take hdr room).2.1) U16
    have window : (c.take hdr room).2.2.txRoom = c.txRoom := by
      unfold Conv.take
      split <;> rfl
    refine balanced.lessSlot ?_ ?_ id ?_
    · intro off
      have on := (take_same c hdr room).1.trans used
      rw [show (c.take hdr room).2.2.used = false from off] at on
      cases on
    · exact Nat.le_trans (Nat.le_of_eq window) balanced.window
    · change (c.take hdr room).2.2.dataLen + (c.credit + (c.take hdr room).2.1) % U16 + sent rep + owed req ≤
        c.dataLen + c.credit + sent rep + owed req
      omega
  | @credit c req r used body conn =>
    refine balanced.lessSlot ?_ balanced.window (clone_of_append (by simp [body])) ?_
    · intro off
      rw [show c.used = false from off] at used
      cases used
    change c.dataLen + 0 + sent rep + owed (req ++ [r]) ≤ c.dataLen + c.credit + sent rep + owed req
    rw [owed_append, body]
    simp only [Req.owed]
    omega
  | @ask c req r plain =>
    have plain : r.Plain own := plain
    have noneLeft : r.body.owed = 0 := by
      cases body : r.body with
      | credit n => exact absurd body (plain.not_credit n)
      | _ => rfl
    refine balanced.lessSlot balanced.unused balanced.window (clone_of_append plain.not_clone) ?_
    simp only [View.load, owed_append, noneLeft, Nat.add_zero, Nat.le_refl]
  | @spend c req room fits =>
    exact balanced.lessSlot balanced.unused (Nat.le_trans fits balanced.window) id (Nat.le_refl _)

theorem Balanced.other (notTcp : p ≠ .tcp) (unused : v.slot.used = false → v.slot.dataLen + v.slot.credit = 0)
    (window : v.slot.txRoom ≤ TX_CAP) (room : v.net.rxRoom ≤ Netd.NETFS_RX_CAP) (kind : v.net.kind ≠ some .tcp) :
    Balanced p v where
  unused := unused
  window := window
  room := room
  fresh tcp := absurd tcp notTcp
  load tcp := absurd tcp notTcp
  total tcp := absurd tcp kind

theorem Known.kind_tcp (known : Known cur p v) (kind : v.net.kind = some .tcp) : p = .tcp := (known.net _ kind).2.symm

theorem Known.kind_other (known : Known cur p v) (notTcp : p ≠ .tcp) : v.net.kind ≠ some .tcp :=
  fun kind => notTcp (known.kind_tcp kind)

theorem Balanced.netdMove {a b : Netd.Conv × List Rep}
    (known : Known cur p ⟨slot, req, a.1, a.2⟩) (balanced : Balanced p ⟨slot, req, a.1, a.2⟩) (move : Netd.Move a b) :
    Balanced p ⟨slot, req, b.1, b.2⟩ := by
  cases move with
  | @mark c c' rep same =>
    refine ⟨balanced.unused, balanced.window, ?_, balanced.fresh, balanced.load, ?_⟩
    · exact Nat.le_trans (Nat.le_of_eq same.rxRoom) balanced.room
    intro kind
    have total := balanced.total (same.kind.symm.trans kind)
    rw [← same.rxRoom] at total
    exact total
  | free => exact ⟨balanced.unused, balanced.window, Nat.le_refl _, balanced.fresh, balanced.load, fun kind => nomatch kind⟩
  | @tell c rep body quiet =>
    have missing : body.size = 0 := by
      cases body with
      | data => exact quiet.elim
      | _ => rfl
    refine balanced.lessSlot balanced.unused balanced.window id ?_
    simp only [View.load, sent_append, missing, Nat.add_zero, Nat.le_refl]
  | @txCredit c rep n used =>
    refine balanced.lessSlot balanced.unused balanced.window id ?_
    simp only [View.load, sent_append, Rep.size, Nat.add_zero, Nat.le_refl]
  | @recv c rep bytes tcp fits tagged =>
    have total := balanced.total tcp
    have load : View.load ⟨slot, req, { c with rxRoom := c.rxRoom - bytes.length }, rep ++ [.data bytes]⟩ =
        View.load ⟨slot, req, c, rep⟩ + bytes.length := by
      simp only [View.load, sent_append, Rep.size]
      omega
    dsimp only at total
    refine ⟨balanced.unused, balanced.window, Nat.le_trans (Nat.sub_le _ _) balanced.room, ?_, ?_, ?_⟩
    · rintro _ ⟨r, mem, clone⟩
      rw [show c.kind = none from (known.clones r mem clone).2.2] at tcp
      cases tcp
    · intro _
      rw [load]
      omega
    intro _
    rw [load]
    dsimp only
    omega
  | @datagram c rep bytes used notTcp tagged =>
    obtain ⟨k, kind⟩ := Option.ne_none_iff_exists'.mp used
    refine .other ?_ balanced.unused balanced.window balanced.room notTcp
    intro tcp
    rw [kind, (known.net k kind).2, tcp] at notTcp
    exact notTcp rfl

theorem filter_dataLen (c : Conv) (keep : List ConnByte → Bool) :
    ({ c with datagrams := c.datagrams.filter keep } : Conv).dataLen ≤ c.dataLen := by
  unfold Conv.dataLen
  dsimp only
  apply Nat.add_le_add_left
  induction c.datagrams with
  | nil => exact Nat.le_refl _
  | cons d rest ih =>
    rw [List.filter_cons]
    split
    · simp only [List.map_cons, List.sum_cons]
      omega
    · simp only [List.map_cons, List.sum_cons]
      omega

theorem Balanced.bind (unused : v.slot.used = false → v.slot.dataLen + v.slot.credit = 0) (window : v.slot.txRoom ≤ TX_CAP)
    (room : v.net.rxRoom ≤ Netd.NETFS_RX_CAP) (bind : Bind cur p v v') : Balanced p v' := by
  cases bind with
  | @alloc slot slot' r net off empty clone conn proto fresh same cloning =>
    have nothing : slot'.dataLen + slot'.credit = 0 := by
      simp [Conv.dataLen, fresh.stream, fresh.datagrams, fresh.credit]
    have load : View.load ⟨slot', [r], net, []⟩ = 0 := by
      simp only [View.load, sent, owed, List.map_nil, List.sum_nil, List.map_cons, List.sum_cons, clone, Req.owed]
      omega
    refine ⟨fun _ => nothing, Nat.le_of_eq fresh.txRoom, room, fun _ _ => load, fun _ => ?_, fun kind => ?_⟩
    · rw [load]
      exact Nat.zero_le _
    · rw [empty] at kind
      cases kind
  | @accept slot net net' tcp off empty kind rxRoom pending conn =>
    have load : View.load ⟨slot, [], net', [.cloneOk true cur]⟩ = 0 := by
      have nothing := unused off
      simp only [View.load, sent, owed, List.map_nil, List.sum_nil, List.map_cons, List.sum_cons, Rep.size]
      omega
    refine ⟨unused, window, Nat.le_of_eq rxRoom, fun _ _ => load, fun _ => ?_, fun _ => ?_⟩
    · rw [load]
      exact Nat.zero_le _
    · rw [load, Nat.zero_add]
      exact Nat.le_of_eq rxRoom

theorem Balanced.pop {r : Request} {net' : Netd.Conv}
    (balanced : Balanced p ⟨slot, r :: req, net, rep⟩) (kind : net'.kind = net.kind)
    (room : net'.rxRoom ≤ Netd.NETFS_RX_CAP) (raised : net'.rxRoom ≤ net.rxRoom + r.body.owed) :
    Balanced p ⟨slot, req, net', rep⟩ := by
  have load : View.load ⟨slot, req, net', rep⟩ + r.body.owed = View.load ⟨slot, r :: req, net, rep⟩ := by
    simp only [View.load, owed_cons]
    omega
  refine ⟨balanced.unused, balanced.window, room, ?_, ?_, ?_⟩
  · rintro tcp ⟨q, mem, clone⟩
    have missing := balanced.fresh tcp ⟨q, List.mem_cons_of_mem _ mem, clone⟩
    omega
  · intro tcp
    have within := balanced.load tcp
    omega
  intro tcp
  have within := balanced.total (kind.symm.trans tcp)
  dsimp only at within ⊢
  omega

theorem Balanced.step (known : Known cur p v) (balanced : Balanced p v) (step : Step own may v v') :
    Balanced p v' ∨ may ∧ ∃ conn q, Bind conn q v v' := by
  cases step with
  | fs move => exact .inl (balanced.move move)
  | netd move => exact .inl (balanced.netdMove known move)
  | @drop slot req net rep body =>
    refine .inl (balanced.lessSlot balanced.unused balanced.window id ?_)
    simp only [View.load, sent_cons]
    omega
  | @data slot req net rep bytes used =>
    have still := append_same slot bytes
    have unused : (slot.append bytes).used = false → (slot.append bytes).dataLen + (slot.append bytes).credit = 0 := by
      rw [still.1, used]
      exact fun off => nomatch off
    have window : (slot.append bytes).txRoom = slot.txRoom := by
      unfold Conv.append
      split
      · split <;> rfl
      · rfl
    have window : (slot.append bytes).txRoom ≤ TX_CAP := Nat.le_trans (Nat.le_of_eq window) balanced.window
    by_cases tcp : p = .tcp
    · refine .inl (balanced.lessSlot unused window id ?_)
      have credit : (slot.append bytes).credit = slot.credit := by
        unfold Conv.append
        split
        · split <;> rfl
        · rfl
      have grown : (slot.append bytes).dataLen ≤ slot.dataLen + bytes.length :=
        append_dataLen ((known.slot used).2.trans tcp) bytes
      simp only [View.load, sent_cons, Rep.size, credit]
      omega
    · exact .inl (.other tcp unused window balanced.room (known.kind_other tcp))
  | @cloned slot slot' req net rep accepted conn fresh tcp lost =>
    refine .inl (balanced.lessSlot ?_ (Nat.le_of_eq fresh.txRoom) id ?_)
    · rw [fresh.used]
      exact fun off => nomatch off
    · simp only [View.load, sent_cons, Conv.dataLen, fresh.stream, fresh.datagrams, fresh.credit, List.length_nil,
        List.map_nil, List.sum_nil]
      omega
  | @acked slot req net rep conn line =>
    refine .inl (balanced.lessSlot balanced.unused balanced.window id ?_)
    simp only [View.load, sent_cons, Conv.dataLen]
    omega
  | @txCredit slot req net rep n conn used =>
    refine .inl (balanced.lessSlot balanced.unused (Nat.min_le_right _ _) id ?_)
    simp only [View.load, sent_cons, Conv.dataLen]
    omega
  | @peer slot req net rep keep =>
    have fewer := filter_dataLen slot keep
    refine .inl (balanced.lessSlot ?_ balanced.window id ?_)
    · intro off
      have nothing := balanced.unused off
      dsimp only at nothing ⊢
      omega
    · simp only [View.load, sent_cons]
      omega
  | pop | send body => exact .inl (balanced.pop rfl balanced.room (Nat.le_add_right _ _))
  | @raise slot r req net rep n body =>
    refine .inl (balanced.pop rfl (Nat.min_le_right _ _) ?_)
    rw [body]
    exact Nat.min_le_left _ _
  | @bind slot r req net rep clone =>
    left
    have mine := known.clones r (.head _) clone
    have load : p = .tcp → View.load ⟨slot, r :: req, net, rep⟩ = 0 :=
      fun tcp => balanced.fresh tcp ⟨r, List.mem_cons_self, clone⟩
    have after : ∀ net', p = .tcp → View.load ⟨slot, req, net', rep ++ [.cloneOk false r.conn]⟩ = 0 := by
      intro net' tcp
      have nothing := load tcp
      simp only [View.load, sent_append, owed_cons, Rep.size] at nothing ⊢
      omega
    refine ⟨balanced.unused, balanced.window, Nat.le_refl _, fun tcp _ => after _ tcp, fun tcp => ?_, fun kind => ?_⟩
    · rw [after _ tcp]
      exact Nat.zero_le _
    · have tcp : p = .tcp := mine.2.1.symm.trans (Option.some.inj kind)
      rw [after _ tcp, Nat.zero_add]
      exact Nat.le_refl _
  | take free bind => exact .inr ⟨free, _, _, bind⟩

end Run
end Myos.Modules.Netfs.Net
