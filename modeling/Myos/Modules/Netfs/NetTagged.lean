import Myos.Modules.Netfs.NetKnown

namespace Myos.Modules.Netfs.Net.Run

open Relation Myos.User

structure Tagged (cur : Nat) (v : View) : Prop where
  slot : v.slot.used → ∀ b ∈ v.slot.bytes, b.1 = cur
  net : v.net.kind ≠ none → ∀ b ∈ v.net.pending, b.1 = cur
  sends : ∀ r ∈ v.req, ∀ bytes, r.body = .send bytes → ∀ b ∈ bytes, b.1 = cur
  datas : ∀ bytes, .data bytes ∈ v.rep → ∀ b ∈ bytes, b.1 = cur

variable {own : Nat → Prop} {may : Prop} {cur : Nat} {p : Proto} {v v' : View}

theorem take_bytes (c : Conv) (hdr : Bool) (room : Nat) :
    (∀ b ∈ (c.take hdr room).1, b ∈ c.bytes) ∧ ∀ b ∈ (c.take hdr room).2.2.bytes, b ∈ c.bytes := by
  unfold Conv.take Conv.bytes
  split
  next d rest _ same =>
    constructor
    · intro b mem
      have inside := List.mem_of_mem_drop (List.mem_of_mem_take mem)
      simp [same, inside]
    · intro b mem
      simp only [List.mem_append, same, List.flatten_cons] at mem ⊢
      exact mem.imp_right .inr
  · exact ⟨fun _ mem => (nomatch mem), fun _ mem => mem⟩
  constructor
  · intro b mem
    exact List.mem_append.mpr (.inl (List.mem_of_mem_take mem))
  intro b mem
  rcases List.mem_append.mp mem with stream | datagrams
  · exact List.mem_append.mpr (.inl (List.mem_of_mem_drop stream))
  · exact List.mem_append.mpr (.inr datagrams)

theorem append_bytes (c : Conv) (src : List ConnByte) : ∀ b ∈ (c.append src).bytes, b ∈ c.bytes ∨ b ∈ src := by
  intro b mem
  unfold Conv.append at mem
  split at mem
  · split at mem
    · simp only [Conv.bytes, List.flatten_append, List.mem_append, List.flatten_cons, List.flatten_nil, List.append_nil] at mem ⊢
      exact or_assoc.mpr mem
    · exact .inl mem
  simp only [Conv.bytes, List.mem_append] at mem ⊢
  rcases mem with (stream | new) | datagrams
  · exact .inl (.inl stream)
  · exact .inr (List.mem_of_mem_take new)
  · exact .inl (.inr datagrams)

theorem filter_bytes (c : Conv) (keep : List ConnByte → Bool) :
    ∀ b ∈ ({ c with datagrams := c.datagrams.filter keep } : Conv).bytes, b ∈ c.bytes := by
  intro b mem
  simp only [Conv.bytes, List.mem_append, List.mem_flatten, List.mem_filter] at mem ⊢
  rcases mem with stream | ⟨d, ⟨inside, _⟩, here⟩
  · exact .inl stream
  · exact .inr ⟨d, inside, here⟩

theorem Fresh.bytes {c : Conv} {conn : Nat} (fresh : Fresh c conn) : c.bytes = [] := by
  simp [Conv.bytes, fresh.stream, fresh.datagrams]

variable {slot : Conv} {rep : List Rep} {req : List Request} {net : Netd.Conv}

theorem Tagged.ask {r : Request}
    (tagged : Tagged cur ⟨slot, req, net, rep⟩) (mine : ∀ bytes, r.body = .send bytes → ∀ b ∈ bytes, b.1 = cur) :
    Tagged cur ⟨slot, req ++ [r], net, rep⟩ := by
  refine { tagged with sends := fun q mem bytes body => ?_ }
  rcases List.mem_append.mp mem with old | new
  · exact tagged.sends q old bytes body
  · rw [List.mem_singleton.mp new] at body
    exact mine bytes body

theorem Tagged.move {a b : Conv × List Request} (tagged : Tagged cur ⟨a.1, a.2, net, rep⟩)
    (owned : ∀ conn, own conn → conn = cur) (move : Move own a b) : Tagged cur ⟨b.1, b.2, net, rep⟩ := by
  cases move with
  | @mark c c' req same =>
    refine { tagged with slot := fun on => ?_ }
    have bytes : c'.bytes = c.bytes := by
      unfold Conv.bytes
      rw [same.stream, same.datagrams]
    rw [bytes]
    exact tagged.slot (same.used.symm.trans on)
  | free => exact { tagged with slot := fun on => nomatch on }
  | @take c req hdr room used =>
    exact { tagged with slot := fun _ b mem => tagged.slot used b ((take_bytes c hdr room).2 b mem) }
  | @credit c req r used body conn =>
    refine Tagged.ask { tagged with slot := tagged.slot } fun bytes same => ?_
    rw [body] at same
    cases same
  | @ask c req r plain =>
    refine tagged.ask fun bytes same b mem => owned b.1 ?_
    simp only [Request.Plain, same] at plain
    exact plain b mem
  | spend => exact { tagged with slot := tagged.slot }

theorem Tagged.tell {body : Rep}
    (tagged : Tagged cur ⟨slot, req, net, rep⟩) (mine : ∀ bytes, body = .data bytes → ∀ b ∈ bytes, b.1 = cur) :
    Tagged cur ⟨slot, req, net, rep ++ [body]⟩ := by
  refine { tagged with datas := fun bytes mem => ?_ }
  rcases List.mem_append.mp mem with old | new
  · exact tagged.datas bytes old
  · exact mine bytes (List.mem_singleton.mp new).symm

theorem Tagged.netdMove {a b : Netd.Conv × List Rep}
    (known : Known cur p ⟨slot, req, a.1, a.2⟩) (tagged : Tagged cur ⟨slot, req, a.1, a.2⟩) (move : Netd.Move a b) :
    Tagged cur ⟨slot, req, b.1, b.2⟩ := by
  have ofConn {c : Netd.Conv} {bytes : List ConnByte} (conn : ∀ k, c.kind = some k → c.conn = cur) (used : c.kind ≠ none)
      (same : ∀ b ∈ bytes, b.1 = c.conn) : ∀ b ∈ bytes, b.1 = cur := by
    obtain ⟨k, kind⟩ := Option.ne_none_iff_exists'.mp used
    exact fun b mem => (same b mem).trans (conn k kind)
  cases move with
  | @mark c c' rep same =>
    refine { tagged with net := fun used b mem => tagged.net ?_ b (same.pending b mem) }
    exact fun missing => used (same.kind.trans missing)
  | free => exact { tagged with net := fun used => absurd rfl used }
  | @tell c rep body quiet =>
    refine tagged.tell fun bytes same => ?_
    rw [same] at quiet
    exact quiet.elim
  | txCredit => exact tagged.tell fun bytes same => nomatch same
  | @recv c rep bytes tcp fits same =>
    have told : Tagged cur ⟨slot, req, c, rep ++ [.data bytes]⟩ := by
      refine tagged.tell fun other body => ?_
      cases body
      exact ofConn (fun k kind => (known.net k kind).1) (by simp [tcp]) same
    exact { told with net := told.net }
  | @datagram c rep bytes used notTcp same =>
    refine tagged.tell fun other body => ?_
    cases body
    exact ofConn (fun k kind => (known.net k kind).1) used same

theorem Tagged.drop {body : Rep}
    (tagged : Tagged cur ⟨slot, req, net, body :: rep⟩) : Tagged cur ⟨slot, req, net, rep⟩ :=
  { tagged with datas := fun bytes mem => tagged.datas bytes (.tail _ mem) }

theorem Tagged.pop {r : Request}
    (tagged : Tagged cur ⟨slot, r :: req, net, rep⟩) : Tagged cur ⟨slot, req, net, rep⟩ :=
  { tagged with sends := fun q mem => tagged.sends q (.tail _ mem) }

theorem Tagged.bind (bind : Bind cur p v v') : Tagged cur v' := by
  cases bind with
  | @alloc slot slot' r net off empty clone conn proto fresh same cloning =>
    refine ⟨fun _ b mem => ?_, fun used => absurd empty used, fun q mem bytes body => ?_, fun _ mem => nomatch mem⟩
    · rw [fresh.bytes] at mem
      cases mem
    · rw [List.mem_singleton.mp mem, clone] at body
      cases body
  | @accept slot net net' tcp off empty kind rxRoom pending conn =>
    refine ⟨fun on => ?_, fun _ b mem => ?_, fun _ mem => (nomatch mem), fun bytes mem => ?_⟩
    · rw [off] at on
      cases on
    · rw [pending] at mem
      cases mem
    · cases List.mem_singleton.mp mem

theorem Tagged.step (known : Known cur p v) (tagged : Tagged cur v) (owned : ∀ conn, own conn → conn = cur)
    (step : Step own may v v') : Tagged cur v' ∨ may ∧ ∃ conn q, Bind conn q v v' := by
  cases step with
  | fs move => exact .inl (tagged.move owned move)
  | netd move => exact .inl (tagged.netdMove known move)
  | drop => exact .inl tagged.drop
  | @data slot req net rep bytes used =>
    have mine := tagged.datas bytes (.head _)
    refine .inl { tagged.drop with slot := fun _ b mem => ?_ }
    rcases append_bytes slot bytes b mem with old | new
    · exact tagged.slot used b old
    · exact mine b new
  | @cloned slot slot' req net rep accepted conn fresh tcp lost =>
    refine .inl { tagged.drop with slot := fun _ b mem => ?_ }
    rw [fresh.bytes] at mem
    cases mem
  | acked line | txCredit used => exact .inl { tagged.drop with slot := tagged.slot }
  | @peer slot req net rep keep =>
    exact .inl { tagged.drop with slot := fun on b mem => tagged.slot on b (filter_bytes slot keep b mem) }
  | pop => exact .inl tagged.pop
  | @send slot r req net rep bytes waits body from_ =>
    refine .inl { tagged.pop with net := fun used b mem => ?_ }
    rcases from_ b mem with old | new
    · exact tagged.net used b old
    · exact tagged.sends r (.head _) bytes body b new
  | raise => exact .inl { tagged.pop with net := tagged.net }
  | @bind slot r req net rep clone =>
    have told : Tagged cur ⟨slot, req, net, rep ++ [.cloneOk false r.conn]⟩ := tagged.pop.tell fun _ same => nomatch same
    exact .inl { told with net := fun _ _ mem => nomatch mem }
  | take free bind => exact .inr ⟨free, _, _, bind⟩

end Myos.Modules.Netfs.Net.Run
