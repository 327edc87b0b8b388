import Myos.Modules.Netfs.Unix

namespace Myos.Modules.Netfs.Unix

def Conv.hung (c : Conv) : Conv := { c with peer := none, phase := .hangup }

theorem Conv.readData_frame (c : Conv) (cap : Nat) :
    (c.readData cap).1.records = c.records ∧ (c.readData cap).1.queue = c.queue ∧ (c.readData cap).1.phase = c.phase ∧
      (c.readData cap).1.peer = c.peer := by
  unfold Conv.readData
  dsimp only
  split <;> exact ⟨rfl, rfl, rfl, rfl⟩

theorem Conv.writeData_frame (c p : Conv) (pid : Nat) (src : Bytes) (heap : Bool) :
    ((c.writeData p pid src heap).1.phase = c.phase ∧ (c.writeData p pid src heap).1.peer = c.peer ∧
      (c.writeData p pid src heap).1.queue = c.queue) ∧
    ((c.writeData p pid src heap).2.1.phase = p.phase ∧ (c.writeData p pid src heap).2.1.peer = p.peer ∧
      (c.writeData p pid src heap).2.1.queue = p.queue) := by
  unfold Conv.writeData
  dsimp only
  repeat' split
  all_goals exact ⟨⟨rfl, rfl, rfl⟩, rfl, rfl, rfl⟩

namespace Table

variable (t : Table)

@[simp] theorem set_same (id : Nat) (c : Conv) : (t.set id c).conv id = c := by
  simp only [set, Function.update_self]

@[simp] theorem set_ne {id other : Nat} (apart : other ≠ id) (c : Conv) : (t.set id c).conv other = t.conv other := by
  simp only [set, ne_eq, apart, not_false_eq_true, Function.update_of_ne]

@[simp] theorem set_len (id : Nat) (c : Conv) : (t.set id c).len = t.len := rfl

variable {heap : Bool} {a b id other uid : Nat} {made : Table}

theorem hangPeer_ne (apart : other ≠ id) :
    (t.hangPeer id).conv other = if (t.conv id).peer = some other then (t.conv other).hung else t.conv other := by
  unfold hangPeer
  cases peer : (t.conv id).peer with
  | none => simp
  | some p =>
    by_cases same : p = other
    · subst same
      simp [apart, Conv.hung]
    · have ne : other ≠ p := fun h => same h.symm
      simp [apart, ne, same]

theorem disconnect_ne (apart : other ≠ id) :
    (t.disconnect id).conv other = if (t.conv id).peer = some other then (t.conv other).hung else t.conv other := by
  unfold disconnect
  dsimp only
  split
  · rw [set_ne _ apart, hangPeer_ne _ apart]
  · exact hangPeer_ne _ apart

theorem disconnect_same (id : Nat) : ∃ phase peer, (t.disconnect id).conv id = { t.conv id with phase, peer } := by
  have hung : ∃ phase peer, (t.hangPeer id).conv id = { t.conv id with phase, peer } := by
    unfold hangPeer
    split
    · exact ⟨(t.conv id).phase, (t.conv id).peer, rfl⟩
    next p _ =>
        by_cases same : p = id
        · subst same
          exact ⟨.hangup, none, by simp⟩
        · exact ⟨(t.conv id).phase, none, by rw [set_ne _ (Ne.symm same), set_same]⟩
  obtain ⟨phase, peer, same⟩ := hung
  unfold disconnect
  dsimp only
  split
  · exact ⟨.hangup, peer, by rw [set_same, same]⟩
  · exact ⟨phase, peer, same⟩

@[simp] theorem hangPeer_len (id : Nat) : (t.hangPeer id).len = t.len := by
  unfold hangPeer
  split <;> rfl

@[simp] theorem disconnect_len (id : Nat) : (t.disconnect id).len = t.len := by
  unfold disconnect
  dsimp only
  split <;> simp

theorem finish_ne (apart : other ≠ id) :
    (t.finish id).1.conv other = if (t.conv id).peer = some other then (t.conv other).hung else t.conv other := by
  unfold finish
  rw [set_ne _ apart, disconnect_ne _ apart]

@[simp] theorem finish_same (id : Nat) : (t.finish id).1.conv id = .FREE := by simp [finish]

@[simp] theorem finish_len (id : Nat) : (t.finish id).1.len = t.len := by simp [finish]

theorem freeSlot_some (found : t.freeSlot = some id) : id < t.len ∧ (t.conv id).phase = .free := by
  constructor
  · exact List.mem_range.mp (List.mem_of_find?_eq_some found)
  · simpa using List.find?_some found

theorem alloc_spec (new : t.alloc uid heap = some (id, made)) :
    (id < t.len → (t.conv id).phase = .free) ∧ id ≤ t.len ∧ id < made.len ∧ t.len ≤ made.len ∧
      made.len ≤ max t.len (id + 1) ∧
      made.conv = Function.update t.conv id { Conv.FREE with phase := .opened, owner := uid } := by
  unfold alloc at new
  split at new
  next i found =>
    obtain ⟨below, free⟩ := t.freeSlot_some found
    cases new
    exact ⟨fun _ => free, Nat.le_of_lt below, below, Nat.le_refl _, Nat.le_max_left _ _, rfl⟩
  next full =>
    split at new <;> cases new
    exact ⟨fun below => absurd below (Nat.lt_irrefl _), Nat.le_refl _, Nat.lt_succ_self _, Nat.le_succ _,
      Nat.le_max_right _ _, rfl⟩

theorem alloc_apart (new : t.alloc uid heap = some (id, made))
    (below : other < t.len) (used : (t.conv other).phase ≠ .free) : other ≠ id := by
  rintro rfl
  exact used ((t.alloc_spec new).1 below)

theorem listener_some {name : Bytes} (found : t.listener name = some id) :
    id < t.len ∧ (t.conv id).phase = .listening ∧ (t.conv id).name = name := by
  have which := List.find?_some found
  rw [Bool.and_eq_true, beq_iff_eq, beq_iff_eq] at which
  exact ⟨List.mem_range.mp (List.mem_of_find?_eq_some found), which⟩

theorem link_first (apart : a ≠ b) :
    (t.link a b).conv a = { t.conv a with phase := .connected, peer := some b } := by
  simp [link, apart]

theorem link_second (apart : a ≠ b) :
    (t.link a b).conv b = { t.conv b with phase := .connected, peer := some a } := by
  simp [link, Ne.symm apart]

theorem link_ne (first : other ≠ a) (second : other ≠ b) : (t.link a b).conv other = t.conv other := by
  simp [link, first, second]

theorem enqueue_some {on : Nat} {queued : Table} (done : t.enqueue on id = some queued) :
    (t.conv on).queue.length ≠ BACKLOG ∧ queued = t.set on { t.conv on with queue := (t.conv on).queue ++ [id] } := by
  unfold enqueue at done
  split at done
  · cases done
  next room => exact ⟨room, (Option.some.inj done).symm⟩

structure Connects (uid id : Nat) (name : Bytes) (server last : Nat) (made : Table) : Prop where
  listening : server < t.len ∧ (t.conv server).phase = .listening ∧ (t.conv server).name = name
  opened : (t.conv id).phase = .opened
  free : last < t.len → (t.conv last).phase = .free
  lastLe : last ≤ t.len
  lenLe : t.len ≤ made.len ∧ last < made.len ∧ made.len ≤ max t.len (last + 1)
  modes : (t.conv server).records = (t.conv id).records
  room : (t.conv server).queue.length < BACKLOG ∨ BACKLOG < (t.conv server).queue.length
  clientEnd : made.conv id = { t.conv id with phase := .connected, peer := some last }
  serverEnd : made.conv last = { Conv.FREE with
    phase := .connected, peer := some id, owner := (t.conv server).owner, records := (t.conv id).records }
  queue : made.conv server = { t.conv server with queue := (t.conv server).queue ++ [last] }
  others : ∀ other, other ≠ id → other ≠ last → other ≠ server → made.conv other = t.conv other

theorem alloc_link (owner : Nat) (records : Bool) (below : id < t.len) (used : (t.conv id).phase ≠ .free)
    (new : t.alloc uid heap = some (other, made)) : id ≠ other ∧
      let linked := (made.set other { made.conv other with owner, records }).link id other
      linked.conv id = { t.conv id with phase := .connected, peer := some other } ∧
      linked.conv other = { Conv.FREE with phase := .connected, peer := some id, owner, records } ∧
      ∀ i, i ≠ id → i ≠ other → linked.conv i = t.conv i := by
  have apart := t.alloc_apart new below used
  obtain ⟨_, _, _, _, _, conv⟩ := t.alloc_spec new
  refine ⟨apart, ?_, ?_, fun i not_id not_other => ?_⟩
  · rw [link_first _ apart, set_ne _ apart, conv, Function.update_of_ne apart]
  · rw [link_second _ apart, set_same, conv, Function.update_self]
  · rw [link_ne _ not_id not_other, set_ne _ not_other, conv, Function.update_of_ne not_other]

theorem connect_spec {server last : Nat} {name : Bytes} (below : id < t.len)
    (done : t.connect uid id name heap = some (server, last, made)) : t.Connects uid id name server last made := by
  obtain ⟨found, listening, done⟩ := Option.bind_eq_some_iff.mp done
  split at done
  · cases done
  next fits =>
    obtain ⟨⟨new, first⟩, allocated, done⟩ := Option.bind_eq_some_iff.mp done
    obtain ⟨queued, enqueued, done⟩ := Option.bind_eq_some_iff.mp done
    cases done
    have at_server := t.listener_some listening
    obtain ⟨free, lastLe, lastLt, lenLe, upper, _⟩ := t.alloc_spec allocated
    obtain ⟨_, rfl⟩ := enqueue_some _ enqueued
    simp only [not_or, not_not] at fits
    obtain ⟨_, at_id, at_last, others⟩ := t.alloc_link (t.conv server).owner (t.conv id).records below
      (by rw [fits.1]; decide) allocated
    have server_last : server ≠ last := t.alloc_apart allocated at_server.1 (by rw [at_server.2.1]; decide)
    have server_id : server ≠ id := by
      rintro rfl
      cases at_server.2.1.symm.trans fits.1
    refine ⟨at_server, fits.1, free, lastLe, ⟨lenLe, lastLt, upper⟩, fits.2.2, Nat.lt_or_gt_of_ne fits.2.1, ?_, ?_, ?_, ?_⟩
    · rw [set_ne _ server_id.symm, at_id]
    · rw [set_ne _ server_last.symm, at_last]
    · rw [set_same, others server server_id server_last]
    · intro other not_id not_last not_server
      rw [set_ne _ not_server, others other not_id not_last]

theorem pair_spec (below : id < t.len) (done : t.pair uid id heap = some made) :
    ∃ other first, t.alloc uid heap = some (other, first) ∧ (t.conv id).phase = .opened ∧ id ≠ other ∧
      made.conv id = { t.conv id with phase := .connected, peer := some other, queue := (t.conv id).queue ++ [other] } ∧
      made.conv other = { Conv.FREE with phase := .connected, peer := some id, owner := uid, records := (t.conv id).records } ∧
      (∀ i, i ≠ id → i ≠ other → made.conv i = t.conv i) ∧ made.len = first.len := by
  unfold pair at done
  split at done
  next opened =>
    obtain ⟨⟨other, first⟩, allocated, done⟩ := Option.bind_eq_some_iff.mp done
    obtain ⟨apart, at_id, at_other, others⟩ := t.alloc_link (first.conv other).owner (t.conv id).records below
      (by rw [opened]; decide) allocated
    obtain ⟨_, rfl⟩ := enqueue_some _ done
    refine ⟨other, first, allocated, opened, apart, ?_, ?_, ?_, rfl⟩
    · rw [set_same, at_id]
    · rw [set_ne _ apart.symm, at_other, (t.alloc_spec allocated).2.2.2.2.2, Function.update_self]
    · intro i not_id not_other
      rw [set_ne _ not_id, others i not_id not_other]
  · cases done

def Kept (c after : Conv) : Prop := after = c ∨ after = c.hung

theorem Kept.trans {a b c : Conv} (first : Kept a b) (second : Kept b c) : Kept a c := by
  rcases first with rfl | rfl
  · exact second
  · rcases second with rfl | rfl
    · exact .inr rfl
    · exact .inr rfl

theorem Kept.used {a b : Conv} (kept : Kept a b) (used : a.phase ≠ .free) : b.phase ≠ .free := by
  rcases kept with rfl | rfl
  · exact used
  · simp [Conv.hung]

theorem Kept.queue {a b : Conv} (kept : Kept a b) : b.queue = a.queue := by
  rcases kept with rfl | rfl <;> rfl

theorem finish_kept (apart : other ≠ id) : Kept (t.conv other) ((t.finish id).1.conv other) := by
  rw [finish_ne _ apart]
  split
  · exact .inr rfl
  · exact .inl rfl

theorem finishAll_kept {queue : List Nat} (apart : other ∉ queue) :
    Kept (t.conv other) ((t.finishAll queue).1.conv other) := by
  induction queue generalizing t with
  | nil => exact .inl rfl
  | cons q rest ih =>
    rw [List.mem_cons, not_or] at apart
    exact (t.finish_kept apart.1).trans (ih (t.finish q).1 apart.2)

@[simp] theorem finishAll_len (queue : List Nat) : (t.finishAll queue).1.len = t.len := by
  induction queue generalizing t with
  | nil => rfl
  | cons q rest ih => exact (ih (t.finish q).1).trans (t.finish_len q)

theorem release_own (own : t.own uid id = true) :
    (t.release uid id).1 = ((t.finishAll (t.conv id).queue).1.finish id).1 := by
  simp [release, own]

theorem release_other (other : ¬t.own uid id = true) : (t.release uid id).1 = t := by
  simp [release, other]

theorem release_kept (apart : other ≠ id) (elsewhere : other ∉ (t.conv id).queue) :
    Kept (t.conv other) ((t.release uid id).1.conv other) := by
  by_cases own : t.own uid id = true
  · rw [t.release_own own]
    exact (t.finishAll_kept elsewhere).trans (finish_kept _ apart)
  · rw [t.release_other own]
    exact .inl rfl

end Table
end Myos.Modules.Netfs.Unix
