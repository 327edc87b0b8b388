import Myos.Modules.Netfs.UnixTable

namespace Myos.Modules.Netfs.Unix.Table

structure Wf (t : Table) : Prop where
  beyond : ∀ i, t.len ≤ i → t.conv i = .FREE
  blank : ∀ i, (t.conv i).phase = .free → t.conv i = .FREE
  peers : ∀ a b, (t.conv a).peer = some b → a ≠ b ∧ (t.conv b).peer = some a ∧ (t.conv a).phase = .connected
  bounded : ∀ i, ∀ e ∈ (t.conv i).queue, e < t.len

theorem wf_empty : Wf ⟨0, fun _ => .FREE⟩ where
  beyond _ _ := rfl
  blank _ _ := rfl
  peers a b linked := by cases linked
  bounded i e mem := by cases mem

variable {t : Table}

theorem Wf.below (wf : t.Wf) {i : Nat} (used : (t.conv i).phase ≠ .free) : i < t.len := by
  by_contra far
  rw [wf.beyond i (Nat.le_of_not_lt far)] at used
  exact used rfl

variable {heap : Bool} {id uid : Nat} {after made : Table}

theorem own_used (own : t.own uid id = true) : (t.conv id).phase ≠ .free ∧ (t.conv id).owner = uid := by
  simpa [Table.own] using own

def Fits (len i : Nat) (c : Conv) : Prop :=
  c = .FREE ∨ i < len ∧ c.phase ≠ .free ∧ (c.peer ≠ none → c.phase = .connected) ∧ ∀ e ∈ c.queue, e < len

theorem Wf.fits (wf : t.Wf) (i : Nat) : Fits t.len i (t.conv i) := by
  by_cases free : (t.conv i).phase = .free
  · exact .inl (wf.blank i free)
  · refine .inr ⟨wf.below free, free, fun linked => ?_, wf.bounded i⟩
    obtain ⟨p, peer⟩ := Option.ne_none_iff_exists'.mp linked
    exact (wf.peers i p peer).2.2

theorem Wf.of_fits (fits : ∀ i, Fits t.len i (t.conv i))
    (peers : ∀ a b, (t.conv a).peer = some b → a ≠ b ∧ (t.conv b).peer = some a) : t.Wf := by
  refine ⟨fun i far => ?_, fun i free => ?_, fun a b linked => ?_, fun i e mem => ?_⟩
  · exact (fits i).resolve_right fun used => absurd used.1 (Nat.not_lt.mpr far)
  · exact (fits i).resolve_right fun used => used.2.1 free
  · refine ⟨(peers a b linked).1, (peers a b linked).2, ?_⟩
    obtain blank | used := fits a
    · rw [blank] at linked
      cases linked
    · exact used.2.2.1 (by rw [linked]; exact Option.some_ne_none b)
  · obtain blank | used := fits i
    · rw [blank] at mem
      cases mem
    · exact used.2.2.2 e mem

variable (wf : t.Wf)
include wf

theorem Wf.set {c : Conv} (fits : Fits t.len id c) (peer : c.peer = (t.conv id).peer) : (t.set id c).Wf := by
  have peer_at (i : Nat) : ((t.set id c).conv i).peer = (t.conv i).peer := by
    by_cases same : i = id
    · rw [same, set_same, peer]
    · rw [set_ne _ same]
  refine .of_fits (fun i => ?_) fun a b linked => ?_
  · by_cases same : i = id
    · rw [same, set_same]
      exact fits
    · rw [set_ne _ same]
      exact wf.fits i
  · rw [peer_at] at linked ⊢
    exact ⟨(wf.peers a b linked).1, (wf.peers a b linked).2.1⟩

theorem Wf.set_used {c : Conv} (used : (t.conv id).phase ≠ .free) (peer : c.peer = (t.conv id).peer)
    (phase : c.phase ≠ .free) (connected : c.peer ≠ none → c.phase = .connected) (bounded : ∀ e ∈ c.queue, e < t.len) :
    (t.set id c).Wf :=
  wf.set (.inr ⟨wf.below used, phase, connected, bounded⟩) peer

theorem Wf.relink {a b : Nat} {c d : Conv} (apart : a ≠ b) (old : ∀ x, (t.conv a).peer = some x → x = b)
    (old_b : ∀ x, (t.conv b).peer = some x → x = a) (fits : Fits t.len a c) (fits_b : Fits t.len b d)
    (peers : c.peer = some b ∧ d.peer = some a ∨ c.peer = none ∧ d.peer = none) : ((t.set a c).set b d).Wf := by
  have at_a : ((t.set a c).set b d).conv a = c := by rw [set_ne _ apart, set_same]
  have at_b : ((t.set a c).set b d).conv b = d := set_same _ _ _
  have elsewhere (i : Nat) (not_a : i ≠ a) (not_b : i ≠ b) : ((t.set a c).set b d).conv i = t.conv i := by
    rw [set_ne _ not_b, set_ne _ not_a]
  refine .of_fits (fun i => ?_) fun x y linked => ?_
  · by_cases is_a : i = a
    · rw [is_a, at_a]
      exact fits
    by_cases is_b : i = b
    · rw [is_b, at_b]
      exact fits_b
    · rw [elsewhere i is_a is_b]
      exact wf.fits i
  · by_cases is_a : x = a
    · rw [is_a, at_a] at linked
      obtain ⟨first, second⟩ | ⟨missing, _⟩ := peers
      · cases first.symm.trans linked
        rw [is_a, at_b]
        exact ⟨apart, second⟩
      · cases missing.symm.trans linked
    by_cases is_b : x = b
    · rw [is_b, at_b] at linked
      obtain ⟨first, second⟩ | ⟨_, noneLeft⟩ := peers
      · cases second.symm.trans linked
        rw [is_b, at_a]
        exact ⟨apart.symm, first⟩
      · cases noneLeft.symm.trans linked
    rw [elsewhere x is_a is_b] at linked
    obtain ⟨other, back, _⟩ := wf.peers x y linked
    refine ⟨other, ?_⟩
    rw [elsewhere y, back]
    · rintro rfl
      exact is_b (old x back)
    · rintro rfl
      exact is_a (old_b x back)

theorem Wf.hangPeer (id : Nat) : (t.hangPeer id).Wf := by
  unfold Table.hangPeer
  split
  · exact wf
  next p peer =>
    obtain ⟨apart, back, phase⟩ := wf.peers id p peer
    have phase_p := (wf.peers p id back).2.2
    dsimp only
    rw [set_ne _ apart.symm]
    refine wf.relink apart (fun x linked => ?_) (fun x linked => ?_) (.inr ⟨?_, ?_, nofun, wf.bounded id⟩)
      (.inr ⟨?_, nofun, nofun, wf.bounded p⟩) (.inr ⟨rfl, rfl⟩)
    · exact Option.some.inj (linked.symm.trans peer)
    · exact Option.some.inj (linked.symm.trans back)
    · exact wf.below (by rw [phase]; decide)
    · rw [phase]
      decide
    · exact wf.below (by rw [phase_p]; decide)

omit wf in
theorem hangPeer_peer (t : Table) (id : Nat) : ((t.hangPeer id).conv id).peer = none := by
  unfold Table.hangPeer
  split
  next alone => exact alone
  next p _ =>
    by_cases same : p = id
    · rw [same, set_same]
    · rw [set_ne _ (Ne.symm same), set_same]

omit wf in
theorem disconnect_peer (t : Table) (id : Nat) : ((t.disconnect id).conv id).peer = none := by
  unfold Table.disconnect
  dsimp only
  split
  · rw [set_same]
    exact t.hangPeer_peer id
  · exact t.hangPeer_peer id

theorem Wf.disconnect (id : Nat) : (t.disconnect id).Wf := by
  have left := wf.hangPeer id
  unfold Table.disconnect
  dsimp only
  split
  next connected =>
    refine left.set_used (by rw [connected]; decide) rfl (by intro h; cases h) ?_ (left.bounded id)
    intro isLinked
    exact absurd (t.hangPeer_peer id) isLinked
  · exact left

theorem Wf.finish (id : Nat) : (t.finish id).1.Wf :=
  (wf.disconnect id).set (.inl rfl) (t.disconnect_peer id).symm

theorem Wf.finishAll (queue : List Nat) : (t.finishAll queue).1.Wf := by
  induction queue generalizing t with
  | nil => exact wf
  | cons q rest ih => exact ih (wf.finish q)

theorem Wf.finish_alone {other : Nat} (apart : other ≠ id) (alone : (t.conv other).peer = none) :
    (t.finish id).1.conv other = t.conv other := by
  rw [t.finish_ne apart, if_neg]
  intro peer
  rw [(wf.peers id other peer).2.1] at alone
  cases alone

theorem Wf.finishAll_blank (queue : List Nat) (blank : t.conv id = .FREE) :
    (t.finishAll queue).1.conv id = .FREE := by
  induction queue generalizing t with
  | nil => exact blank
  | cons q rest ih =>
    apply ih (wf.finish q)
    by_cases same : id = q
    · rw [same]
      exact t.finish_same q
    · rw [wf.finish_alone same (by rw [blank]; rfl), blank]

theorem finishAll_mem {queue : List Nat} (mem : id ∈ queue) : (t.finishAll queue).1.conv id = .FREE := by
  induction queue generalizing t with
  | nil => cases mem
  | cons q rest ih =>
    rcases List.mem_cons.mp mem with rfl | mem
    · exact (wf.finish id).finishAll_blank rest (t.finish_same id)
    · exact ih (wf.finish q) mem

theorem Wf.release (uid id : Nat) : (t.release uid id).1.Wf := by
  unfold Table.release
  split
  · exact (wf.finishAll _).finish id
  · exact wf

theorem Wf.alloc_blank (new : t.alloc uid heap = some (id, made)) :
    t.conv id = .FREE := by
  obtain ⟨free, atMost, _⟩ := t.alloc_spec new
  by_cases below : id < t.len
  · exact wf.blank id (free below)
  · exact wf.beyond id (Nat.le_of_not_lt below)

theorem Wf.alloc (new : t.alloc uid heap = some (id, made)) :
    made.Wf := by
  have was := wf.alloc_blank new
  obtain ⟨_, _, lt, len, _, conv⟩ := t.alloc_spec new
  have grown : Wf { t with len := made.len } := by
    refine .of_fits (fun i => ?_) fun a b linked => ⟨(wf.peers a b linked).1, (wf.peers a b linked).2.1⟩
    refine (wf.fits i).imp_right fun fits => ⟨Nat.lt_of_lt_of_le fits.1 len, fits.2.1, fits.2.2.1, fun e mem => ?_⟩
    exact Nat.lt_of_lt_of_le (fits.2.2.2 e mem) len
  have same : made = Table.set { t with len := made.len } id { Conv.FREE with phase := .opened, owner := uid } := by
    rw [Table.set, ← conv]
  rw [same]
  exact grown.set (.inr ⟨lt, by simp, by simp [Conv.FREE], by simp [Conv.FREE]⟩) (congrArg Conv.peer was).symm

theorem Wf.link {a b : Nat} (apart : a ≠ b) (used : (t.conv a).phase ≠ .free) (used_b : (t.conv b).phase ≠ .free)
    (alone : (t.conv a).peer = none) (alone_b : (t.conv b).peer = none) : (t.link a b).Wf := by
  unfold Table.link
  dsimp only
  rw [set_ne _ apart.symm]
  refine wf.relink apart (fun x linked => ?_) (fun x linked => ?_) (.inr ⟨wf.below used, nofun, fun _ => rfl, wf.bounded a⟩)
    (.inr ⟨wf.below used_b, nofun, fun _ => rfl, wf.bounded b⟩) (.inl ⟨rfl, rfl⟩)
  · cases alone.symm.trans linked
  · cases alone_b.symm.trans linked

theorem Wf.alone (phase : (t.conv id).phase ≠ .connected) : (t.conv id).peer = none := by
  cases peer : (t.conv id).peer with
  | none => rfl
  | some p => exact absurd (wf.peers id p peer).2.2 phase

theorem Wf.enqueue {on : Nat} {queued : Table} (used : (t.conv on).phase ≠ .free) (below : id < t.len)
    (done : t.enqueue on id = some queued) : queued.Wf := by
  obtain ⟨_, rfl⟩ := t.enqueue_some done
  refine wf.set_used used rfl used ?_ ?_
  · intro isLinked
    obtain ⟨p, peer⟩ := Option.ne_none_iff_exists'.mp isLinked
    exact (wf.peers on p peer).2.2
  intro e mem
  rcases List.mem_append.mp mem with old | new
  · exact wf.bounded on e old
  · rw [List.mem_singleton.mp new]
    exact below

theorem Wf.set_same_links {c : Conv} (used : (t.conv id).phase ≠ .free)
    (phase : c.phase = (t.conv id).phase) (peer : c.peer = (t.conv id).peer) (queue : c.queue = (t.conv id).queue) :
    (t.set id c).Wf := by
  refine wf.set_used used peer (phase ▸ used) ?_ (queue ▸ wf.bounded id)
  intro isLinked
  rw [peer] at isLinked
  obtain ⟨p, linked⟩ := Option.ne_none_iff_exists'.mp isLinked
  rw [phase]
  exact (wf.peers id p linked).2.2

theorem Wf.linked (owner : Nat) (records : Bool) {other : Nat} (opened : (t.conv id).phase = .opened)
    (new : t.alloc uid heap = some (other, made)) :
    ((made.set other { made.conv other with owner, records }).link id other).Wf := by
  have used : (t.conv id).phase ≠ .free := by rw [opened]; decide
  have apart := t.alloc_apart new (wf.below used) used
  obtain ⟨_, _, _, _, _, conv⟩ := t.alloc_spec new
  have at_id : made.conv id = t.conv id := by rw [conv, Function.update_of_ne apart]
  have at_other : made.conv other = { Conv.FREE with phase := .opened, owner := uid } := by rw [conv, Function.update_self]
  have marked := (wf.alloc new).set_same_links (c := { made.conv other with owner, records })
    (by rw [at_other]; simp) rfl rfl rfl
  exact marked.link apart (by rw [set_ne _ apart, at_id]; exact used) (by rw [set_same, at_other]; simp)
    (by rw [set_ne _ apart, at_id]; exact wf.alone (by rw [opened]; decide)) (by rw [set_same, at_other]; rfl)

theorem Wf.connect {server last : Nat} {name : Bytes}
    (done : t.connect uid id name heap = some (server, last, made)) : made.Wf := by
  obtain ⟨found, listening, done⟩ := Option.bind_eq_some_iff.mp done
  split at done
  · cases done
  next fits =>
    obtain ⟨⟨new, first⟩, allocated, done⟩ := Option.bind_eq_some_iff.mp done
    obtain ⟨queued, enqueued, done⟩ := Option.bind_eq_some_iff.mp done
    cases done
    simp only [not_or, not_not] at fits
    obtain ⟨below, listens, _⟩ := t.listener_some listening
    have used : (t.conv id).phase ≠ .free := by rw [fits.1]; decide
    have at_server := (t.alloc_link (t.conv server).owner (t.conv id).records (wf.below used) used allocated).2.2.2 server
    refine (wf.linked _ _ fits.1 allocated).enqueue ?_ (t.alloc_spec allocated).2.2.1 enqueued
    rw [at_server, listens]
    · decide
    · rintro rfl
      cases listens.symm.trans fits.1
    · exact t.alloc_apart allocated below (by rw [listens]; decide)

theorem Wf.pair (done : t.pair uid id heap = some made) : made.Wf := by
  unfold Table.pair at done
  split at done
  next opened =>
    obtain ⟨⟨other, first⟩, allocated, done⟩ := Option.bind_eq_some_iff.mp done
    have used : (t.conv id).phase ≠ .free := by rw [opened]; decide
    refine (wf.linked (first.conv other).owner (t.conv id).records opened allocated).enqueue ?_
      (t.alloc_spec allocated).2.2.1 done
    rw [(t.alloc_link _ _ (wf.below used) used allocated).2.1]
    simp
  · cases done

theorem Wf.accept {next : Nat} (done : t.accept uid id = some (next, after)) : after.Wf := by
  unfold Table.accept at done
  split at done
  next own =>
    split at done
    · cases done
    next first rest queue =>
      cases done
      refine wf.set_used (own_used own).1 rfl (own_used own).1 ?_ ?_
      · intro isLinked
        obtain ⟨p, peer⟩ := Option.ne_none_iff_exists'.mp isLinked
        exact (wf.peers id p peer).2.2
      · intro e mem
        exact wf.bounded id e (by rw [queue]; exact List.mem_cons_of_mem _ mem)
  · cases done

theorem Wf.read (uid id cap : Nat) : (t.read uid id cap).1.Wf := by
  unfold Table.read
  split
  next own =>
    have frame := (t.conv id).readData_frame cap
    exact wf.set_same_links (own_used own).1 frame.2.2.1 frame.2.2.2 frame.2.1
  · exact wf

theorem Wf.write (uid id pid : Nat) (src : Bytes) (heap : Bool) : (t.write uid id pid src heap).1.Wf := by
  unfold Table.write
  split
  next own =>
    split
    · exact wf
    next p peer =>
      obtain ⟨apart, back, _⟩ := wf.peers id p peer
      have phase_p := (wf.peers p id back).2.2
      obtain ⟨first, second⟩ := (t.conv id).writeData_frame (t.conv p) pid src heap
      have put := wf.set_same_links (by rw [phase_p]; decide) second.1 second.2.1 second.2.2
      exact put.set_same_links (by rw [set_ne _ apart]; exact (own_used own).1)
        (by rw [set_ne _ apart]; exact first.1) (by rw [set_ne _ apart]; exact first.2.1)
          (by rw [set_ne _ apart]; exact first.2.2)
  · exact wf

theorem Wf.seqpacket (done : t.seqpacket id = some after) : after.Wf := by
  unfold Table.seqpacket at done
  split at done
  next opened =>
    cases done
    exact wf.set_same_links (by rw [opened]; decide) rfl rfl rfl
  · cases done

theorem Wf.announce {name : Bytes} (done : t.announce id name = some after) :
    after.Wf := by
  unfold Table.announce at done
  split at done
  · cases done
  next fits =>
    cases done
    simp only [not_or, not_not] at fits
    refine wf.set_used (by rw [fits.1]; decide) rfl (by simp) ?_ (wf.bounded id)
    intro isLinked
    exact absurd (wf.alone (by rw [fits.1]; decide)) isLinked

theorem Wf.getD {after : Option Table} (each : ∀ made, after = some made → made.Wf) : (after.getD t).Wf := by
  cases made : after with
  | none => exact wf
  | some made' => exact each made' made

theorem Wf.apply (uid : Nat) (op : Op) : (t.apply uid op).1.Wf := by
  cases op with
  | clone heap =>
    refine wf.getD fun made done => ?_
    obtain ⟨⟨id, made⟩, allocated, rfl⟩ := Option.map_eq_some_iff.mp done
    exact wf.alloc allocated
  | seqpacket id =>
    simp only [Table.apply]
    split
    · exact wf.getD fun _ done => wf.seqpacket done
    · exact wf
  | announce id name =>
    simp only [Table.apply]
    split
    · exact wf.getD fun _ done => wf.announce done
    · exact wf
  | connect id name heap =>
    simp only [Table.apply]
    split
    · refine wf.getD fun made done => ?_
      obtain ⟨⟨server, last, made⟩, connected, rfl⟩ := Option.map_eq_some_iff.mp done
      exact wf.connect connected
    · exact wf
  | pair id heap =>
    simp only [Table.apply]
    split
    · exact wf.getD fun _ done => wf.pair done
    · exact wf
  | hangup id =>
    simp only [Table.apply]
    split
    · exact wf.disconnect id
    · exact wf
  | accept id =>
    refine wf.getD fun made done => ?_
    obtain ⟨⟨next, made⟩, accepted, rfl⟩ := Option.map_eq_some_iff.mp done
    exact wf.accept accepted
  | read id cap => exact wf.read uid id cap
  | write id pid src heap => exact wf.write uid id pid src heap
  | norights id =>
    simp only [Table.apply]
    split
    next own => exact wf.set_same_links (own_used own).1 rfl rfl rfl
    · exact wf
  | release id => exact wf.release uid id

end Myos.Modules.Netfs.Unix.Table
