import Myos.Modules.Netfs.UnixRights

namespace Myos.Modules.Netfs.Unix.Rights

open State (carried)

section Kernel

variable {k : Kernel}

def Kernel.Once (k : Kernel) : Prop :=
  ∀ reference, k.held.count (some reference) + k.installed.count reference + k.released.count reference =
    if reference < k.next then 1 else 0

variable {token : Nat}

theorem at_clear (k : Kernel) (held : (k.at_ token).isSome) (other : Nat) :
    (k.clear token).at_ other = if other = token then none else k.at_ other := by
  cases token with
  | zero => cases held
  | succ i =>
    cases other with
    | zero => rfl
    | succ j =>
      simp only [Kernel.at_, Kernel.clear, Nat.add_sub_cancel, Nat.add_right_cancel_iff]
      by_cases same : j = i
      · subst same
        rw [if_pos rfl, List.getElem?_set_self']
        cases k.held[j]? <;> rfl
      · rw [if_neg same, List.getElem?_set_ne (Ne.symm same)]

theorem count_clear (k : Kernel) {reference : Nat} (held : k.at_ token = some reference) (other : Nat) :
    (k.clear token).held.count (some other) + (if other = reference then 1 else 0) = k.held.count (some other) := by
  cases token with
  | zero => cases held
  | succ i =>
    have found : k.held[i]? = some (some reference) := Option.join_eq_some_iff.mp held
    obtain ⟨below, value⟩ := List.getElem?_eq_some_iff.mp found
    have positive : other = reference → 0 < k.held.count (some other) := by
      rintro rfl
      exact List.count_pos_iff.mpr (value ▸ List.getElem_mem below)
    simp only [Kernel.clear, Nat.add_sub_cancel]
    rw [List.count_set below, value]
    by_cases same : other = reference
    · have nonzero := positive same
      simp only [same, if_true, BEq.rfl]
      simp only [same] at nonzero
      simp
      omega
    · have apart : ¬reference = other := fun h => same h.symm
      simp [same, apart]

theorem count_snoc (refs : List Nat) (reference other : Nat) :
    (refs ++ [reference]).count other = refs.count other + if other = reference then 1 else 0 := by
  rw [List.count_append, List.count_singleton]
  by_cases same : other = reference
  · simp [same]
  · simp [same, Ne.symm same]

theorem Kernel.Once.spend (once : k.Once) {reference : Nat} (held : k.at_ token = some reference) {next : Kernel}
    (rest : next.held = (k.clear token).held) (same : next.next = k.next)
    (spent : ∀ other, next.installed.count other + next.released.count other =
      k.installed.count other + k.released.count other + if other = reference then 1 else 0) : next.Once := by
  intro other
  have counted := count_clear k held other
  have before := once other
  have moved := spent other
  rw [rest, same]
  omega

theorem Kernel.Once.release (once : k.Once) (token : Nat) : (k.release token).Once := by
  unfold Kernel.release
  split
  next reference held =>
    refine once.spend held rfl rfl fun other => ?_
    rw [count_snoc, Nat.add_assoc]
    rfl
  · exact once

theorem Kernel.Once.releaseAll (once : k.Once) (tokens : List Nat) : (k.releaseAll tokens).Once := by
  induction tokens generalizing k with
  | nil => exact once
  | cons token rest ih => exact ih (once.release token)

theorem at_release (k : Kernel) (token other : Nat) :
    (k.release token).at_ other = if other = token then none else k.at_ other := by
  unfold Kernel.release
  split
  next reference held => exact at_clear k (by rw [held]; rfl) other
  next empty =>
    split
    next same => rw [same, empty]
    · rfl

theorem at_releaseAll (k : Kernel) (tokens : List Nat) (other : Nat) :
    (k.releaseAll tokens).at_ other = if other ∈ tokens then none else k.at_ other := by
  induction tokens generalizing k with
  | nil => simp [Kernel.releaseAll]
  | cons token rest ih =>
    simp only [Kernel.releaseAll]
    rw [ih, at_release]
    by_cases later : other ∈ rest
    · simp [later]
    · simp [later]

theorem hold_spec (k : Kernel) : k.at_ k.hold.1 = none ∧ ∀ other,
    k.hold.2.at_ other = if other = k.hold.1 then some k.next else k.at_ other := by
  unfold Kernel.hold
  split
  next i found =>
    obtain ⟨below, free, _⟩ := List.findIdx?_eq_some_iff_getElem.mp found
    have missing : k.held[i]? = some none := by
      rw [List.getElem?_eq_getElem below, Option.isNone_iff_eq_none.mp free]
    refine ⟨by simp [Kernel.at_, missing], ?_⟩
    intro other
    cases other with
    | zero => rfl
    | succ j =>
      simp only [Kernel.at_, Nat.add_right_cancel_iff]
      by_cases same : j = i
      · subst same
        simp [below]
      · simp [same, List.getElem?_set_ne (Ne.symm same)]
  next full =>
    refine ⟨by simp [Kernel.at_], ?_⟩
    intro other
    cases other with
    | zero => rfl
    | succ j =>
      simp only [Kernel.at_, Nat.add_right_cancel_iff]
      by_cases same : j = k.held.length
      · subst same
        simp
      rw [if_neg same, List.getElem?_append]
      split
      · rfl
      · have far : k.held.length ≤ j := by omega
        rw [List.getElem?_eq_none (by simp; omega), List.getElem?_eq_none far]

theorem count_hold (k : Kernel) (other : Nat) :
    k.hold.2.held.count (some other) = k.held.count (some other) + if k.next = other then 1 else 0 := by
  unfold Kernel.hold
  split
  next i found =>
    obtain ⟨below, free, _⟩ := List.findIdx?_eq_some_iff_getElem.mp found
    have missing : k.held[i] = none := Option.isNone_iff_eq_none.mp free
    rw [List.count_set below, missing]
    simp
  next full =>
    rw [List.count_append, List.count_singleton]
    simp

theorem Kernel.Once.hold (once : k.Once) : k.hold.2.Once := by
  intro other
  have before := once other
  have same : k.hold.2.next = k.next + 1 ∧ k.hold.2.installed = k.installed ∧ k.hold.2.released = k.released := by
    unfold Kernel.hold
    split <;> exact ⟨rfl, rfl, rfl⟩
  rw [count_hold, same.1, same.2.1, same.2.2]
  split at before <;> split <;> split <;> omega

theorem holdWords_spec (pending : Nat) (words : List Bool) (k : Kernel) (held : List Nat) (once : k.Once) :
    (k.holdWords pending held words).1.Once ∧ ∃ new : List Nat, new.Nodup ∧ (∀ token ∈ new, k.at_ token = none) ∧
      (∀ token, ((k.holdWords pending held words).1.at_ token).isSome = (decide (token ∈ new) || (k.at_ token).isSome)) ∧
      (k.holdWords pending held words).2.2.Perm (held ++ new) := by
  induction words generalizing k held with
  | nil => exact ⟨once, [], List.nodup_nil, by simp, by simp [Kernel.holdWords], by simp [Kernel.holdWords]⟩
  | cons word rest ih =>
    cases word with
    | false => exact ⟨once, [], List.nodup_nil, by simp, by simp [Kernel.holdWords], by simp [Kernel.holdWords]⟩
    | true =>
      obtain ⟨free, after⟩ := hold_spec k
      simp only [Kernel.holdWords]
      split
      · obtain ⟨kept, new, nodup, fresh, holding, perm⟩ := ih k.hold.2 (held ++ [k.hold.1]) once.hold
        have apart : ∀ token ∈ new, token ≠ k.hold.1 ∧ k.at_ token = none := by
          intro token mem
          have missing := fresh token mem
          rw [after token] at missing
          split at missing
          · cases missing
          next other => exact ⟨other, missing⟩
        refine ⟨kept, k.hold.1 :: new, ?_, ?_, ?_, ?_⟩
        · rw [List.nodup_cons]
          exact ⟨fun mem => (apart _ mem).1 rfl, nodup⟩
        · intro token mem
          rcases List.mem_cons.mp mem with rfl | mem
          · exact free
          · exact (apart token mem).2
        · intro token
          rw [holding, after]
          by_cases same : token = k.hold.1
          · simp [same]
          · simp [same]
        · rw [List.append_assoc] at perm
          exact perm
      · refine ⟨once.hold, [k.hold.1], by simp, by simpa using free, ?_, ?_⟩
        · intro token
          rw [after]
          by_cases same : token = k.hold.1
          · simp [same]
          · simp [same]
        · exact (List.perm_append_singleton _ _).symm

theorem install_some {k next : Kernel} {fd : Nat} {free : Option Nat} (done : k.install token free = some (fd, next))
    (once : k.Once) : next.Once ∧ ∀ other, next.at_ other = if other = token then none else k.at_ other := by
  unfold Kernel.install at done
  split at done
  next reference _ held =>
    cases done
    refine ⟨once.spend held rfl rfl fun other => ?_, fun other => at_clear k (by rw [held]; rfl) other⟩
    rw [count_snoc, Nat.add_right_comm]
    rfl
  · cases done

theorem installAll_spec {room : Nat} {fds : Nat → Option Nat} {tokens : List Nat} {k after : Kernel} {text last : Bytes}
    {made drops : List Nat} (once : k.Once) (done : k.installAll room fds text tokens = some (after, last, made, drops)) :
    after.Once ∧ (∀ token ∈ drops, token ∈ tokens) ∧
      ∀ other, other ∉ drops → after.at_ other = if other ∈ tokens then none else k.at_ other := by
  induction tokens generalizing k text made drops with
  | nil =>
    cases done
    exact ⟨once, by simp, by simp⟩
  | cons token rest ih =>
    simp only [Kernel.installAll] at done
    split at done
    · obtain ⟨⟨after', last', made', drops'⟩, ran, same⟩ := Option.map_eq_some_iff.mp done
      cases same
      obtain ⟨kept, within, others⟩ := ih once ran
      refine ⟨kept, ?_, ?_⟩
      · intro x mem
        rcases List.mem_cons.mp mem with rfl | mem
        · exact .head _
        · exact List.mem_cons_of_mem _ (within x mem)
      · intro other absent
        rw [List.mem_cons, not_or] at absent
        rw [others other absent.2]
        simp [absent.1]
    next fd next installed =>
      split at done
      · cases done
      next written _ =>
        obtain ⟨⟨after', last', made', drops'⟩, ran, same⟩ := Option.map_eq_some_iff.mp done
        cases same
        obtain ⟨here, cleared⟩ := install_some installed once
        obtain ⟨kept, within, others⟩ := ih here ran
        refine ⟨kept, fun x mem => List.mem_cons_of_mem _ (within x mem), ?_⟩
        intro other absent
        rw [others other absent, cleared]
        by_cases first : other = token
        · simp [first]
        · simp [first]

end Kernel

section Carried

variable {t : Table}

variable {heap : Bool} {id uid : Nat} {after made : Table}

theorem carried_set (below : id < t.len) (c : Conv) (token : Nat) :
    carried (t.set id c) token + (t.conv id).rights.count token = carried t token + c.rights.count token := by
  have mem : id ∈ Finset.range t.len := Finset.mem_range.mpr below
  unfold carried
  change ∑ i ∈ Finset.range t.len, _ + _ = _
  rw [← Finset.add_sum_erase _ _ mem, ← Finset.add_sum_erase (Finset.range t.len) (fun i => (t.conv i).rights.count token) mem]
  have others : ∑ i ∈ (Finset.range t.len).erase id, ((t.set id c).conv i).rights.count token =
      ∑ i ∈ (Finset.range t.len).erase id, (t.conv i).rights.count token := by
    apply Finset.sum_congr rfl
    intro i within
    rw [Table.set_ne _ (Finset.ne_of_mem_erase within)]
  rw [others, Table.set_same]
  omega

variable (wf : t.Wf)
include wf

theorem carried_drop (own : t.own uid id = true) {c : Conv} {drops : List Nat} {token : Nat}
    (counted : c.rights.count token + drops.count token = (t.conv id).rights.count token) :
    carried (t.set id c) token + drops.count token = carried t token := by
  have set := carried_set (wf.below (Table.own_used own).1) c token
  omega

theorem carried_congr (len : t.len ≤ after.len)
    (same : ∀ i, (after.conv i).rights = (t.conv i).rights) (token : Nat) : carried after token = carried t token := by
  unfold carried
  have within : Finset.range t.len ⊆ Finset.range after.len := Finset.range_subset_range.mpr len
  simp only [same]
  symm
  apply Finset.sum_subset within
  intro i _ beyond
  rw [wf.beyond i (by simpa using beyond)]
  rfl

theorem carried_disconnect (id token : Nat) : carried (t.disconnect id) token = carried t token := by
  apply carried_congr wf (Nat.le_of_eq (t.disconnect_len id).symm)
  intro i
  by_cases same : i = id
  · obtain ⟨phase, peer, at_id⟩ := t.disconnect_same id
    rw [same, at_id]
    rfl
  · rw [t.disconnect_ne same]
    split <;> rfl

theorem carried_finish (below : id < t.len) (token : Nat) :
    carried (t.finish id).1 token + (t.finish id).2.count token = carried t token := by
  have inside : id < (t.disconnect id).len := by
    rw [t.disconnect_len]
    exact below
  have set := carried_set inside .FREE token
  rw [carried_disconnect wf] at set
  exact set

theorem carried_finishAll {queue : List Nat} (below : ∀ q ∈ queue, q < t.len) (token : Nat) :
    carried (t.finishAll queue).1 token + (t.finishAll queue).2.count token = carried t token := by
  induction queue generalizing t with
  | nil => rfl
  | cons q rest ih =>
    have first := carried_finish wf (below q (.head _)) token
    have later := ih (wf.finish q) (fun x mem => by
      rw [t.finish_len]
      exact below x (.tail _ mem))
    change carried ((t.finish q).1.finishAll rest).1 token + ((t.finish q).2 ++ ((t.finish q).1.finishAll rest).2).count token = _
    rw [List.count_append]
    omega

theorem carried_release (uid id token : Nat) :
    carried (t.release uid id).1 token + (t.release uid id).2.count token = carried t token := by
  unfold Table.release
  split
  next own =>
    have first := carried_finishAll wf (wf.bounded id) token
    have inside : id < (t.finishAll (t.conv id).queue).1.len := by
      rw [t.finishAll_len]
      exact wf.below (Table.own_used own).1
    have later := carried_finish (wf.finishAll (t.conv id).queue) inside token
    dsimp only
    rw [List.count_append]
    omega
  · rfl

omit wf in
theorem count_readData (c : Conv) (cap token : Nat) :
    (c.readData cap).1.rights.count token + (c.readData cap).2.2.count token = c.rights.count token := by
  have rights : (c.readData cap).1.rights = (c.readBytes cap).rights := by
    unfold Conv.readData
    dsimp only
    split <;> rfl
  change (c.readData cap).1.rights.count token + c.delivered.count token = _
  rw [rights]
  unfold Conv.readBytes Conv.rights
  split
  next takes =>
    obtain ⟨_, mark, rest, marks⟩ : 0 < c.markCount cap ∧ ∃ mark rest, c.marks = mark :: rest := by
      unfold Conv.takesMark Conv.startsMark at takes
      rw [Bool.and_eq_true, decide_eq_true_eq] at takes
      refine ⟨takes.1, ?_⟩
      cases marks : c.marks with
      | nil => simp [marks] at takes
      | cons mark rest => exact ⟨mark, rest, rfl⟩
    rw [marks]
    simp only [List.count_append, List.head?_cons, Option.map_some, Option.getD_some, List.tail_cons, List.flatMap_cons]
    omega
  · simp only [List.count_append, List.count_nil]
    omega

omit wf in
theorem count_writeData (c p : Conv) (pid : Nat) (src : Bytes) (heap : Bool) (token : Nat) :
    (c.writeData p pid src heap).1.rights.count token + (c.writeData p pid src heap).2.1.rights.count token =
      c.rights.count token + p.rights.count token := by
  unfold Conv.writeData
  dsimp only
  split
  · rfl
  split
  · rfl
  split
  · rfl
  split
  · rfl
  unfold Conv.rights
  split
  next missing => simp [missing]
  · simp only [List.count_append, List.flatMap_append, List.flatMap_cons, List.flatMap_nil, List.count_nil]
    omega

theorem carried_read (uid id cap token : Nat) :
    carried (t.read uid id cap).1 token + (t.read uid id cap).2.2.count token = carried t token := by
  unfold Table.read
  split
  next own => exact carried_drop wf own (count_readData (t.conv id) cap token)
  · rfl

theorem carried_write (uid id pid : Nat) (src : Bytes) (heap : Bool) (token : Nat) :
    carried (t.write uid id pid src heap).1 token = carried t token := by
  unfold Table.write
  split
  next own =>
    split
    · rfl
    next p peer =>
      obtain ⟨apart, back, _⟩ := wf.peers id p peer
      have phase_p := (wf.peers p id back).2.2
      have below_p : p < t.len := wf.below (by rw [phase_p]; decide)
      have first := carried_set below_p ((t.conv id).writeData (t.conv p) pid src heap).2.1 token
      have second := carried_set (t := t.set p ((t.conv id).writeData (t.conv p) pid src heap).2.1)
        (wf.below (Table.own_used own).1) ((t.conv id).writeData (t.conv p) pid src heap).1 token
      have counted := count_writeData (t.conv id) (t.conv p) pid src heap token
      rw [Table.set_ne _ apart] at second
      change carried ((t.set p ((t.conv id).writeData (t.conv p) pid src heap).2.1).set id
        ((t.conv id).writeData (t.conv p) pid src heap).1) token = _
      omega
  · rfl

theorem carried_alloc (new : t.alloc uid heap = some (id, made))
    (token : Nat) : carried made token = carried t token := by
  have blank := wf.alloc_blank new
  obtain ⟨_, _, _, len, _, conv⟩ := t.alloc_spec new
  apply carried_congr wf len
  intro i
  rw [conv]
  by_cases same : i = id
  · rw [same, Function.update_self, blank]
    rfl
  · rw [Function.update_of_ne same]

theorem carried_connect {server last : Nat} {name : Bytes}
    (own : t.own uid id = true) (done : t.connect uid id name heap = some (server, last, made)) (token : Nat) :
    carried made token = carried t token := by
  have connects := t.connect_spec (wf.below (Table.own_used own).1) done
  have blank : t.conv last = .FREE := by
    by_cases far : last < t.len
    · exact wf.blank last (connects.free far)
    · exact wf.beyond last (Nat.le_of_not_lt far)
  apply carried_congr wf connects.lenLe.1
  intro i
  by_cases at_id : i = id
  · rw [at_id, connects.clientEnd]
    rfl
  by_cases at_last : i = last
  · rw [at_last, connects.serverEnd, blank]
    rfl
  by_cases at_server : i = server
  · rw [at_server, connects.queue]
    rfl
  · rw [connects.others i at_id at_last at_server]

theorem carried_pair (own : t.own uid id = true)
    (done : t.pair uid id heap = some made) (token : Nat) : carried made token = carried t token := by
  obtain ⟨other, first, new, _, _, at_id, at_other, elsewhere, len⟩ := t.pair_spec (wf.below (Table.own_used own).1) done
  obtain ⟨_, _, _, longer, _, _⟩ := t.alloc_spec new
  apply carried_congr wf (by rw [len]; exact longer)
  intro i
  by_cases is_id : i = id
  · rw [is_id, at_id]
    rfl
  by_cases is_other : i = other
  · rw [is_other, at_other, wf.alloc_blank new]
    rfl
  · rw [elsewhere i is_id is_other]

theorem carried_set_same {c : Conv} (same : c.rights = (t.conv id).rights) (token : Nat) :
    carried (t.set id c) token = carried t token := by
  apply carried_congr wf (Nat.le_of_eq (t.set_len id c).symm)
  intro i
  by_cases here : i = id
  · rw [here, Table.set_same, same]
  · rw [Table.set_ne _ here]

theorem carried_seqpacket (done : t.seqpacket id = some after) (token : Nat) :
    carried after token = carried t token := by
  unfold Table.seqpacket at done
  split at done
  · cases done
    refine carried_set_same wf ?_ token
    rfl
  · cases done

theorem carried_announce {name : Bytes} (done : t.announce id name = some after)
    (token : Nat) : carried after token = carried t token := by
  unfold Table.announce at done
  split at done
  · cases done
  · cases done
    refine carried_set_same wf ?_ token
    rfl

theorem carried_accept {next : Nat} (done : t.accept uid id = some (next, after))
    (token : Nat) : carried after token = carried t token := by
  unfold Table.accept at done
  split at done
  · split at done
    · cases done
    · cases done
      refine carried_set_same wf ?_ token
      rfl
  · cases done

theorem carried_norights (own : t.own uid id = true) (token : Nat) :
    carried (t.norights id).1 token + (t.norights id).2.count token = carried t token := by
  refine carried_drop wf own (c := { t.conv id with pending := [] }) ?_
  change _ + (t.conv id).pending.count token = _
  simp only [Conv.rights, List.count_append, List.count_nil]
  omega

theorem carried_drain (own : t.own uid id = true) (token : Nat) :
    carried (t.drainDelivered id).1 token + (t.conv id).delivered.count token = carried t token := by
  refine carried_drop wf own (c := { t.conv id with delivered := [] }) ?_
  simp only [Conv.rights, List.count_append, List.count_nil]
  omega

omit wf in
theorem carried_getD {after : Option Table} {token : Nat}
    (each : ∀ made, after = some made → carried made token = carried t token) :
    carried (after.getD t) token + ([] : List Nat).count token = carried t token := by
  cases made : after with
  | none => rfl
  | some table => exact each table made

theorem carried_apply (uid : Nat) (op : Op) (token : Nat) :
    carried (t.apply uid op).1 token + (t.apply uid op).2.count token = carried t token := by
  cases op with
  | clone heap =>
    apply carried_getD
    intro made done
    exact Lib.mapped done fun _ new => carried_alloc wf new token
  | seqpacket id =>
    simp only [Table.apply]
    split
    · exact carried_getD fun made done => carried_seqpacket wf done token
    · rfl
  | announce id name =>
    simp only [Table.apply]
    split
    · exact carried_getD fun made done => carried_announce wf done token
    · rfl
  | connect id name heap =>
    simp only [Table.apply]
    split
    next own =>
      apply carried_getD
      intro made done
      exact Lib.mapped done fun _ connected => carried_connect wf own connected token
    · rfl
  | pair id heap =>
    simp only [Table.apply]
    split
    next own => exact carried_getD fun made done => carried_pair wf own done token
    · rfl
  | hangup id =>
    simp only [Table.apply]
    split
    · exact carried_disconnect wf id token
    · rfl
  | accept id =>
    apply carried_getD
    intro made done
    exact Lib.mapped done fun _ accepted => carried_accept wf accepted token
  | read id cap => exact carried_read wf uid id cap token
  | write id pid src heap => exact carried_write wf uid id pid src heap token
  | norights id =>
    simp only [Table.apply]
    split
    next own => exact carried_norights wf own token
    · rfl
  | release id => exact carried_release wf uid id token

end Carried

structure Inv (s : State) : Prop extends Conserved s where
  wf : s.table.Wf

variable {s : State}

theorem Inv.drop (inv : Inv s) {table : Table} {drops : List Nat} (wf : table.Wf)
    (counted : ∀ token, carried table token + drops.count token = carried s.table token) :
    Inv ⟨table, s.kernel.releaseAll drops⟩ := by
  refine ⟨⟨Kernel.Once.releaseAll inv.once drops, ?_⟩, wf⟩
  intro token
  have before := inv.carried token
  have balance := counted token
  rw [at_releaseAll]
  by_cases mem : token ∈ drops
  · have positive := List.count_pos_iff.mpr mem
    rw [if_pos mem]
    simp only [Option.isSome_none, Bool.false_eq_true, if_false]
    split at before <;> omega
  · rw [List.count_eq_zero_of_not_mem mem, Nat.add_zero] at balance
    rw [if_neg mem, balance, before]

theorem Inv.rights (inv : Inv s) (uid id : Nat) (words : List Bool) : Inv (s.rights uid id words) := by
  unfold State.rights
  split
  next own =>
    obtain ⟨kept, new, nodup, fresh, holding, perm⟩ :=
      holdWords_spec (s.table.conv id).pending.length words s.kernel [] inv.once
    rw [List.nil_append] at perm
    have counts : ∀ token, new.count token = if token ∈ new then 1 else 0 := by
      intro token
      split
      next mem => exact List.count_eq_one_of_mem nodup mem
      next absent => exact List.count_eq_zero_of_not_mem absent
    split
    next kernel held done =>
      rw [done] at kept holding perm
      have used := (Table.own_used own.1).1
      have below := inv.wf.below used
      have set := carried_set below { s.table.conv id with pending := (s.table.conv id).pending ++ held }
      have table : s.table.rights id held = s.table.set id
        { s.table.conv id with pending := (s.table.conv id).pending ++ held } := by
        simp [Table.rights, own.2]
      rw [table]
      refine ⟨⟨kept, ?_⟩, inv.wf.set_same_links used rfl rfl rfl⟩
      intro token
      have balance := set token
      have before := inv.carried token
      have more : (Conv.rights { s.table.conv id with pending := (s.table.conv id).pending ++ held }).count token =
          (s.table.conv id).rights.count token + held.count token := by
        simp only [Conv.rights, List.count_append]
        omega
      rw [more, perm.count_eq, counts] at balance
      rw [holding]
      by_cases mem : token ∈ new
      · simp only [mem, fresh token mem, Option.isSome_none, decide_true, Bool.true_or, if_true, Bool.false_eq_true,
          if_false] at before balance ⊢
        omega
      · simp only [mem, decide_false, Bool.false_or, if_false] at balance ⊢
        omega
    next kernel drops done =>
      rw [done] at kept holding perm
      refine ⟨⟨Kernel.Once.releaseAll kept drops, ?_⟩, inv.wf⟩
      intro token
      have before := inv.carried token
      rw [at_releaseAll]
      by_cases mem : token ∈ drops
      · have taken := fresh token (perm.mem_iff.mp mem)
        rw [before, taken, if_pos mem]
      · have absent : token ∉ new := fun new => mem (perm.mem_iff.mpr new)
        rw [if_neg mem, holding, before]
        simp only [absent, decide_false, Bool.false_or]
  · exact inv

theorem readRights_cases (s : State) (uid id room : Nat) (fds : Nat → Option Nat) :
    ((s.table.own uid id = false ∨ room < 4 * (s.table.conv id).delivered.length + 1) ∧
      s.readRights uid id room fds = (.refused, s)) ∨
    (s.table.own uid id = true ∧ 4 * (s.table.conv id).delivered.length + 1 ≤ room ∧
      (s.readRights uid id room fds = (.outside, s) ∨
        ∃ kernel text last made drops,
          s.kernel.installAll room fds [] (s.table.conv id).delivered = some (kernel, text, made, drops) ∧
          putEnd room text = some last ∧
          s.readRights uid id room fds = (.text last made drops,
            ⟨(s.table.drainDelivered id).1, kernel.releaseAll drops⟩))) := by
  unfold State.readRights
  by_cases refused : s.table.own uid id = false ∨ room < 4 * (s.table.conv id).delivered.length + 1
  · exact .inl ⟨refused, by rw [if_pos refused]⟩
  rw [if_neg refused]
  rw [not_or] at refused
  refine .inr ⟨by simpa using refused.1, Nat.le_of_not_lt refused.2, ?_⟩
  cases installed : s.kernel.installAll room fds [] (s.table.conv id).delivered with
  | none => exact .inl rfl
  | some result =>
    obtain ⟨kernel, text, made, drops⟩ := result
    dsimp only
    cases ended : putEnd room text with
    | none => exact .inl rfl
    | some last => exact .inr ⟨kernel, text, last, made, drops, rfl, ended, rfl⟩

theorem Inv.readRights (inv : Inv s) (uid id room : Nat) (fds : Nat → Option Nat) : Inv (s.readRights uid id room fds).2 := by
  obtain ⟨_, same⟩ | ⟨own, _, same | ⟨kernel, text, last, made, drops, done, _, same⟩⟩ := readRights_cases s uid id room fds
  · rw [same]
    exact inv
  · rw [same]
    exact inv
  rw [same]
  obtain ⟨kept, within, others⟩ := installAll_spec inv.once done
  refine ⟨⟨Kernel.Once.releaseAll kept drops, ?_⟩, inv.wf.set_same_links (Table.own_used own).1 rfl rfl rfl⟩
  intro token
  have balance := carried_drain inv.wf own token
  have before := inv.carried token
  change carried (s.table.drainDelivered id).1 token = if ((kernel.releaseAll drops).at_ token).isSome then 1 else 0
  have after : (kernel.releaseAll drops).at_ token =
      if token ∈ (s.table.conv id).delivered then none else s.kernel.at_ token := by
    rw [at_releaseAll]
    by_cases dropped : token ∈ drops
    · rw [if_pos dropped, if_pos (within token dropped)]
    · rw [if_neg dropped, others token dropped]
  rw [after]
  by_cases mem : token ∈ (s.table.conv id).delivered
  · have positive := List.count_pos_iff.mpr mem
    rw [if_pos mem]
    simp only [Option.isSome_none, Bool.false_eq_true, if_false]
    split at before <;> omega
  · have zero := List.count_eq_zero_of_not_mem mem
    rw [if_neg mem]
    omega

theorem Inv.step (inv : Inv s) {event : Event} {next : State} (stepped : s.step event = some next) : Inv next := by
  cases event with
  | call uid op =>
    cases stepped
    exact inv.drop (inv.wf.apply uid op) (carried_apply inv.wf uid op)
  | rights uid id words =>
    cases stepped
    exact inv.rights uid id words
  | readRights uid id room fds =>
    have read := inv.readRights uid id room fds
    simp only [State.step] at stepped
    split at stepped
    · cases stepped
    next answer after _ done =>
      cases stepped
      rw [done] at read
      exact read

theorem blank_inv : Inv blank where
  once _ := by simp [blank]
  carried token := by
    cases token <;> simp [blank, carried, Kernel.at_]
  wf := Table.wf_empty

theorem reach_inv (reached : system.Reach Lib.System.Any s) : Inv s := by
  apply reached.invariant
  · intro state start
    exact start ▸ blank_inv
  · intro state event next inv _ stepped
    exact inv.step stepped

section Text

def Digit (b : BitVec 8) : Prop := 48 ≤ b.toNat

theorem digits_digit (room x : Nat) (text : Bytes) (before : ∀ b ∈ text, Digit b) : ∀ b ∈ digits room x text, Digit b := by
  induction room generalizing x text with
  | zero => exact before
  | succ room ih =>
    unfold digits
    split
    · exact before
    apply ih
    intro b mem
    rcases List.mem_cons.mp mem with rfl | mem
    · unfold Digit
      rw [BitVec.toNat_ofNat, Nat.mod_eq_of_lt (by omega)]
      omega
    · exact before b mem

theorem decimal_digit (v : Nat) : ∀ b ∈ decimal v, Digit b := by
  unfold decimal
  split
  · intro b mem
    rw [List.mem_singleton.mp mem]
    unfold Digit
    decide
  · exact digits_digit 6 v [] (by simp)

theorem split_digits {a b : Bytes} {x y : BitVec 8} {r q : Bytes} (first : ∀ d ∈ a, Digit d) (second : ∀ d ∈ b, Digit d)
    (notX : ¬Digit x) (notY : ¬Digit y) (same : a ++ x :: r = b ++ y :: q) : x = y ∧ r = q := by
  induction a generalizing b with
  | nil =>
    cases b with
    | nil => exact List.cons.inj same
    | cons d rest =>
      have clash := (List.cons.inj same).1
      exact absurd (second d (.head _)) (clash ▸ notX)
  | cons c rest ih =>
    cases b with
    | nil =>
      have clash := (List.cons.inj same).1
      exact absurd (first c (.head _)) (clash ▸ notY)
    | cons d others =>
      exact ih (fun e mem => first e (.tail _ mem)) (fun e mem => second e (.tail _ mem))
        (List.cons.inj same).2

variable {last text : Bytes} {after k : Kernel} {made : List Nat} {room : Nat} {fds : Nat → Option Nat}

theorem putFd_extends {fd : Nat} {written : Bytes} (done : putFd room text fd = some written) :
    text <+: written := by
  refine Lib.mapped done fun blank started => ?_
  split at started
  next empty =>
    rw [empty]
    exact List.nil_prefix
  · split at started
    · rw [← Option.some.inj started, List.append_assoc]
      exact List.prefix_append _ _
    · cases started

theorem installAll_extends {tokens : List Nat}
    {drops : List Nat} (done : k.installAll room fds text tokens = some (after, last, made, drops)) : text <+: last := by
  induction tokens generalizing k text made drops with
  | nil =>
    cases done
    exact List.prefix_refl _
  | cons token rest ih =>
    simp only [Kernel.installAll] at done
    split at done
    · obtain ⟨⟨_, _, _, _⟩, ran, same⟩ := Option.map_eq_some_iff.mp done
      cases same
      exact ih ran
    split at done
    · cases done
    next written put =>
      obtain ⟨⟨_, _, _, _⟩, ran, same⟩ := Option.map_eq_some_iff.mp done
      cases same
      exact (putFd_extends put).trans (ih ran)

theorem installAll_first {token : Nat} {rest : List Nat}
    (done : k.installAll room fds [] (token :: rest) = some (after, last, made, [])) :
    ∃ fd others, made = fd :: others ∧ (putDec (fd % 2 ^ 16)).take room <+: last := by
  simp only [Kernel.installAll] at done
  split at done
  · obtain ⟨⟨_, _, _, _⟩, ran, same⟩ := Option.map_eq_some_iff.mp done
    cases same
  next fd next installed =>
    split at done
    · cases done
    next written put =>
      obtain ⟨⟨_, _, made', _⟩, ran, same⟩ := Option.map_eq_some_iff.mp done
      cases same
      refine ⟨fd, made', rfl, ?_⟩
      have start : written = (putDec (fd % 2 ^ 16)).take room := by
        cases put
        rfl
      rw [← start]
      exact installAll_extends ran

theorem documented_cons (fd : Nat) (others : List Nat) :
    (others = [] ∧ documented (fd :: others) = decimal fd ++ NEWLINE :: []) ∨
    ∃ more, documented (fd :: others) = decimal fd ++ BLANK :: more := by
  cases others with
  | nil => exact .inl ⟨rfl, by simp [documented, List.intercalate]⟩
  | cons next rest =>
    right
    exact ⟨[BLANK].intercalate ((next :: rest).map decimal) ++ [NEWLINE], by simp [documented, List.intercalate]⟩

theorem newline_not_digit : ¬Digit NEWLINE := by
  unfold Digit NEWLINE
  decide

theorem blank_not_digit : ¬Digit BLANK := by
  unfold Digit BLANK
  decide

theorem text_not_documented {token : Nat} {rest : List Nat}
    (done : k.installAll room fds [] (token :: rest) = some (after, text, made, []))
    (ended : putEnd room text = some last) : last ≠ documented made := by
  obtain ⟨fd, others, rfl, more, starts⟩ := installAll_first done
  unfold putEnd at ended
  split at ended
  next empty =>
    have missing : (putDec (fd % 2 ^ 16)).take room = [] := by
      rw [empty] at starts
      exact (List.append_eq_nil_iff.mp starts).1
    rcases List.take_eq_nil_iff.mp missing with zero | zero
    · -- A buffer of no room has no text, and the documented one is not empty.
      cases ended
      rcases documented_cons fd others with ⟨_, same⟩ | ⟨_, same⟩ <;> simp [same]
    · simp [putDec] at zero
  · split at ended
    next room_left =>
      have length := congrArg List.length starts
      rw [List.length_append, List.length_take] at length
      have whole : (putDec (fd % 2 ^ 16)).take room = decimal (fd % 2 ^ 16) ++ [NEWLINE] :=
        List.take_of_length_le (by omega)
      have form : last = decimal (fd % 2 ^ 16) ++ NEWLINE :: (more ++ [NEWLINE]) := by
        rw [← Option.some.inj ended, ← starts, whole]
        simp
      rw [form]
      intro same
      rcases documented_cons fd others with ⟨_, single⟩ | ⟨_, several⟩
      · rw [single] at same
        have tail := (split_digits (decimal_digit _) (decimal_digit _) newline_not_digit newline_not_digit same).2
        simp at tail
      · rw [several] at same
        have clash := (split_digits (decimal_digit _) (decimal_digit _) newline_not_digit blank_not_digit same).1
        exact absurd clash (by decide)
    · cases ended

theorem right_iff (s : State) (uid id room : Nat) (fds : Nat → Option Nat) :
    Right s id (s.readRights uid id room fds) ↔
      (s.table.own uid id = false ∨ room < 4 * (s.table.conv id).delivered.length + 1 ∨ (s.table.conv id).delivered = []) := by
  obtain ⟨refused, same⟩ | ⟨own, room_left, same⟩ := readRights_cases s uid id room fds
  · rw [same]
    refine ⟨fun _ => ?_, fun _ => rfl⟩
    rcases refused with other | small
    · exact .inl other
    · exact .inr (.inl small)
  have known : (s.table.own uid id = false ∨ room < 4 * (s.table.conv id).delivered.length + 1 ∨
      (s.table.conv id).delivered = []) ↔ (s.table.conv id).delivered = [] := by
    constructor
    · rintro (other | small | missing)
      · rw [own] at other
        cases other
      · omega
      · exact missing
    · exact fun noneLeft => .inr (.inr noneLeft)
  rw [known]
  rcases same with outside | ⟨kernel, text, last, made, drops, done, ended, same⟩
  · rw [outside]
    refine ⟨fun wrong => wrong.elim, fun isNone => ?_⟩
    have positive : ¬room = 0 := by omega
    simp [State.readRights, own, isNone, Kernel.installAll, putEnd, positive] at outside
  rw [same]
  constructor
  · rintro ⟨rfl, _, documented⟩
    cases tokens : (s.table.conv id).delivered with
    | nil => rfl
    | cons token rest =>
      rw [tokens] at done
      exact absurd documented (text_not_documented done ended)
  · intro isNone
    rw [isNone] at done
    cases done
    cases ended
    exact ⟨rfl, by rw [isNone], rfl⟩

end Text

/-- The fds passed are conserved in every run; and a read of `rights` is right exactly as `right_iff` says. -/
theorem reach_conserved (reached : system.Reach Lib.System.Any s) : Conserved s ∧
    ∀ uid id room fds, Right s id (s.readRights uid id room fds) ↔
      (s.table.own uid id = false ∨ room < 4 * (s.table.conv id).delivered.length + 1 ∨ (s.table.conv id).delivered = []) :=
  ⟨(reach_inv reached).toConserved, right_iff s⟩

def sending : List Event :=
  [.call 0 (.clone true), .call 0 (.pair 0 true), .rights 0 0 [true, true], .call 0 (.write 0 7 [1] true), .call 0 (.read 1 1)]

theorem blank_reached : system.Reach Lib.System.Any blank := .start rfl

/-- They become fds 5 and 6, and both references are installed. -/
theorem reach_conserved_taken : ∃ s : State, s.kernel.installed = [0, 1] ∧ Conserved s ∧
    ∀ uid id room fds, Right s id (s.readRights uid id room fds) ↔
      (s.table.own uid id = false ∨ room < 4 * (s.table.conv id).delivered.length + 1 ∨ (s.table.conv id).delivered = []) := by
  refine ⟨_, ?_, reach_conserved (blank_reached.run (sending ++ [.readRights 0 1 64 fun token => some (token + 4)]) rfl)⟩
  rfl

/-- A buffer of 9 bytes passes the size check for two fds; the numbers 100 and 101 with their newlines fill it, and the
last newline goes to index 9. -/
theorem newline_outside : ∃ s, system.Reach Lib.System.Any s ∧
    s.readRights 0 1 9 (fun token => some (token + 99)) = (.outside, s) ∧
    ¬∀ uid id room fds, Right s id (s.readRights uid id room fds) := by
  refine ⟨_, blank_reached.run sending rfl, rfl, ?_⟩
  intro right
  exact right 0 1 9 fun token => some (token + 99)

end Myos.Modules.Netfs.Unix.Rights
