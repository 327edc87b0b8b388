import Myos.Fs.Locks

namespace Myos.Fs.Locks
open Lib

def Lock.Covers (l : Lock) (x : Nat) : Prop := l.start ≤ x ∧ x < l.stop

def Compatible (l m : Lock) : Prop :=
  l.node = m.node → l.owner ≠ m.owner → l.owner.family = m.owner.family → ∀ x, l.Covers x → m.Covers x →
    l.kind = .shared ∧ m.kind = .shared

def Separate (l m : Lock) : Prop := l.node = m.node → l.owner = m.owner → ∀ x, l.Covers x → ¬ m.Covers x

def Holds (locks : List Lock) (node : Nat) (owner : Owner) (kind : Kind) (x : Nat) : Prop :=
  ∃ l ∈ locks, l.node = node ∧ l.owner = owner ∧ l.kind = kind ∧ l.Covers x

structure Part (m l : Lock) : Prop where
  node : m.node = l.node
  owner : m.owner = l.owner
  kind : m.kind = l.kind
  since : m.since = l.since
  covers : ∀ x, m.Covers x → l.Covers x

variable {l m : Lock}

theorem Compatible.symm (compatible : Compatible l m) : Compatible m l :=
  fun node owner family x inM inL => (compatible node.symm owner.symm family.symm x inL inM).symm

theorem Compatible.part {l' m' : Lock} (compatible : Compatible l m) (left : Part l' l) (right : Part m' m) :
    Compatible l' m' := by
  intro node owner family x inL inM
  rw [left.node, right.node] at node
  rw [left.owner, right.owner] at owner family
  rw [left.kind, right.kind]
  exact compatible node owner family x (left.covers x inL) (right.covers x inM)

theorem Separate.part {l' m' : Lock} (separate : Separate l m) (left : Part l' l) (right : Part m' m) :
    Separate l' m' := by
  intro node owner x inL inM
  rw [left.node, right.node] at node
  rw [left.owner, right.owner] at owner
  exact separate node owner x (left.covers x inL) (right.covers x inM)

namespace Call

variable {c : Call} {l m : Lock} {locks : List Lock}

def Sets (c : Call) (node : Nat) (owner : Owner) (x : Nat) : Prop :=
  node = c.node ∧ owner = c.owner ∧ c.start ≤ x ∧ x < c.stop

theorem mem_kept (member : m ∈ c.kept l) : Part m l ∧ ∀ x, m.Covers x → ¬ c.Sets l.node l.owner x := by
  unfold kept at member
  split at member
  · rename_i outside
    cases List.mem_singleton.mp member
    refine ⟨⟨rfl, rfl, rfl, rfl, fun _ => id⟩, ?_⟩
    rintro x ⟨from_, to_⟩ ⟨node, owner, start, stop⟩
    obtain other | other | before | behind := outside
    · exact other node
    · exact other owner
    · omega
    · omega
  · rcases List.mem_append.mp member with left | right
    · obtain ⟨below, isLeft⟩ := List.mem_ite_nil_right.mp left
      cases List.mem_singleton.mp isLeft
      refine ⟨⟨rfl, rfl, rfl, rfl, fun x inside => ⟨inside.1, ?_⟩⟩, fun x inside sets => ?_⟩
      · have := inside.2
        simp only at this
        omega
      · exact absurd inside.2 (Nat.not_lt.mpr sets.2.2.1)
    · obtain ⟨above, isRight⟩ := List.mem_ite_nil_right.mp right
      cases List.mem_singleton.mp isRight
      refine ⟨⟨rfl, rfl, rfl, rfl, fun x inside => ⟨?_, inside.2⟩⟩, fun x inside sets => ?_⟩
      · have := inside.1
        simp only at this
        omega
      · exact absurd inside.1 (Nat.not_le.mpr sets.2.2.2)

theorem covers_kept {x : Nat} (inside : l.Covers x) (unset : ¬ c.Sets l.node l.owner x) :
    ∃ m ∈ c.kept l, Part m l ∧ m.Covers x := by
  suffices ∃ m ∈ c.kept l, m.Covers x by
    obtain ⟨m, member, covers⟩ := this
    exact ⟨m, member, (mem_kept member).1, covers⟩
  unfold kept
  split
  · exact ⟨l, List.mem_singleton_self l, inside⟩
  rename_i own
  push Not at own
  obtain ⟨node, owner, -, -⟩ := own
  have outside : x < c.start ∨ c.stop ≤ x := by
    by_contra within
    push Not at within
    exact unset ⟨node, owner, within⟩
  obtain before | behind := outside
  · rw [if_pos (Nat.lt_of_le_of_lt inside.1 before)]
    exact ⟨_, List.mem_append_left _ (List.mem_singleton_self _), inside.1, before⟩
  · rw [if_pos (Nat.lt_of_le_of_lt behind inside.2)]
    exact ⟨_, List.mem_append_right _ (List.mem_singleton_self _), behind, inside.2⟩

theorem mem_replace : m ∈ c.replace locks ↔ (∃ l ∈ locks, m ∈ c.kept l) ∨ ∃ kind, c.kind = some kind ∧ c.lock kind = m := by
  rw [replace, List.mem_append, List.mem_flatMap, Option.mem_toList, Option.map_eq_some_iff]

theorem holds_replace (node : Nat) (owner : Owner) (kind : Kind) (x : Nat) :
    (c.Sets node owner x → (Holds (c.replace locks) node owner kind x ↔ c.kind = some kind)) ∧
      (¬ c.Sets node owner x → (Holds (c.replace locks) node owner kind x ↔ Holds locks node owner kind x)) := by
  constructor
  · intro sets
    constructor
    · rintro ⟨m, member, isNode, isOwner, isKind, inside⟩
      obtain ⟨l, _, left⟩ | ⟨given, isGiven, rfl⟩ := mem_replace.mp member
      · obtain ⟨part, unset⟩ := mem_kept left
        rw [← part.node, ← part.owner, isNode, isOwner] at unset
        exact absurd sets (unset x inside)
      · rw [isGiven]
        exact congrArg some isKind
    · intro isGiven
      exact ⟨_, mem_replace.mpr (.inr ⟨kind, isGiven, rfl⟩), sets.1.symm, sets.2.1.symm, rfl, sets.2.2⟩
  · intro unset
    constructor
    · rintro ⟨m, member, isNode, isOwner, isKind, inside⟩
      obtain ⟨l, inTable, left⟩ | ⟨given, _, rfl⟩ := mem_replace.mp member
      · have part := (mem_kept left).1
        exact ⟨l, inTable, part.node ▸ isNode, part.owner ▸ isOwner, part.kind ▸ isKind, part.covers x inside⟩
      · exact absurd ⟨isNode.symm, isOwner.symm, inside⟩ unset
    · rintro ⟨l, inTable, rfl, rfl, rfl, inside⟩
      obtain ⟨m, left, part, covers⟩ := covers_kept inside unset
      exact ⟨m, mem_replace.mpr (.inl ⟨l, inTable, left⟩), part.node, part.owner, part.kind, covers⟩

theorem kept_separate (c : Call) (l : Lock) : (c.kept l).Pairwise Separate := by
  have ordered := c.ordered
  unfold kept
  split
  · exact List.pairwise_singleton _ _
  split <;> split <;> simp only [List.nil_append, List.append_nil, List.Pairwise.nil,
    List.cons_append, List.pairwise_cons, List.mem_singleton, forall_eq, and_true, List.not_mem_nil,
      IsEmpty.forall_iff, implies_true]
  intro _ _ x left right
  have := left.2
  have := right.1
  simp only at *
  omega

theorem replace_separate (apart : locks.Pairwise Separate) : (c.replace locks).Pairwise Separate := by
  refine List.pairwise_append.mpr ⟨List.pairwise_flatMap.mpr ⟨fun l _ => kept_separate c l, ?_⟩, ?_, ?_⟩
  · exact apart.imp fun separate m left n right => separate.part (mem_kept left).1 (mem_kept right).1
  · cases c.kind <;> simp
  intro m left n new node owner x inM inN
  obtain ⟨l, _, left⟩ := List.mem_flatMap.mp left
  obtain ⟨part, unset⟩ := mem_kept left
  obtain ⟨kind, _, rfl⟩ := Option.map_eq_some_iff.mp (Option.mem_toList.mp new)
  rw [part.node] at node
  rw [part.owner] at owner
  exact unset x inM ⟨node, owner, inN⟩

theorem free_compatible {kind : Kind} (isKind : c.kind = some kind) (free : c.busy locks = false) (member : l ∈ locks) :
    Compatible l (c.lock kind) := by
  intro node owner family x inL inNew
  rw [busy, isKind, Option.any_some, Option.isSome_eq_false_iff, Option.isNone_iff_eq_none, conflicting,
    List.find?_eq_none] at free
  have meets := free l member
  have before : l.start < c.stop := Nat.lt_of_le_of_lt inL.1 inNew.2
  have behind : c.start < l.stop := Nat.lt_of_le_of_lt inNew.1 inL.2
  simp only [lock] at node owner family ⊢
  cases isL : l.kind <;> cases isNew : kind <;> simp_all

theorem replace_compatible (free : c.busy locks = false) (compatible : ∀ l ∈ locks, ∀ m ∈ locks, Compatible l m) :
    ∀ l ∈ c.replace locks, ∀ m ∈ c.replace locks, Compatible l m := by
  intro l left m right
  obtain ⟨l₀, inL, left⟩ | ⟨kind, isKind, rfl⟩ := mem_replace.mp left
  · obtain ⟨m₀, inM, right⟩ | ⟨kind, isKind, rfl⟩ := mem_replace.mp right
    · exact (compatible l₀ inL m₀ inM).part (mem_kept left).1 (mem_kept right).1
    · exact (free_compatible isKind free inL).part (mem_kept left).1 ⟨rfl, rfl, rfl, rfl, fun _ => id⟩
  · obtain ⟨m₀, inM, right⟩ | ⟨kind', isKind', rfl⟩ := mem_replace.mp right
    · exact ((free_compatible isKind free inM).part (mem_kept right).1 ⟨rfl, rfl, rfl, rfl, fun _ => id⟩).symm
    · exact fun _ owner => absurd rfl owner

theorem busy_of (busy : c.busy locks = true) : ∃ l ∈ locks, l.node = c.node ∧ ∀ locks', l ∈ locks' → c.busy locks' = true := by
  obtain ⟨kind, isKind, found⟩ := Option.any_eq_true .. |>.mp busy
  obtain ⟨l, member, meets⟩ := List.find?_isSome.mp found
  refine ⟨l, member, ?_, fun locks' still => ?_⟩
  · simp only [Bool.and_eq_true, beq_iff_eq] at meets
    exact meets.1.1.1.1.1
  · rw [Call.busy, isKind]
    exact List.find?_isSome.mpr ⟨l, still, meets⟩

end Call

theorem referenced_iff {refs : Table Holder Nat} {id : Nat} : referenced refs id = true ↔ ∃ h, refs.lookup h = some id := by
  rw [referenced, Table.any_keys_iff]
  constructor
  · rintro ⟨h, _, found, same⟩
    exact ⟨h, beq_iff_eq.mp same ▸ found⟩
  · rintro ⟨h, found⟩
    exact ⟨h, id, found, beq_self_eq_true id⟩

theorem chores_after (chores : List Chore) (rest : List Call) : (Phase.after chores rest).chores = chores := by
  cases chores <;> cases rest <;> rfl

namespace State

variable {s s' : State}

def Live (s : State) (node since : Nat) : Owner → Prop
  | .flock id | .ofd id => (∃ h, s.refs.lookup h = some id) ∧ s.node id = node ∧ s.opens id = since
  | .process pid => s.alive pid = true ∧ s.spawns pid = since ∧ ∃ fd id, s.refs.lookup (.fd pid fd) = some id ∧ s.node id = node

def Pending (s : State) (chore : Chore) : Prop := ∃ tid, chore ∈ (s.phase tid).chores

def Owned (s : State) (l : Lock) : Prop := s.Live l.node l.since l.owner ∨ ∃ chore, s.Pending chore ∧ chore.removes l = true

def Stalled (s : State) (c : Call) : Prop := c.busy s.locks = true ∨ s.Pending (.wake c.node)

def PhaseOk (s : State) : Phase → Prop
  | .look _ _ seq => seq ≤ s.seq
  | .block c _ seq => seq ≤ s.seq ∧ (seq = s.seq → s.Stalled c)
  | .asleep c _ => s.Stalled c
  | _ => True

structure Inv (s : State) : Prop where
  compatible : ∀ l ∈ s.locks, ∀ m ∈ s.locks, Compatible l m
  separate : s.locks.Pairwise Separate
  owned : ∀ l ∈ s.locks, s.Owned l
  phases : ∀ tid, s.PhaseOk (s.phase tid)

variable {more : List Call} {id node pid waker : Nat} {phase : Phase} {refs : Table Holder Nat}

theorem PhaseOk.mono (fine : s.PhaseOk phase) (later : s.seq ≤ s'.seq) (stalled : ∀ c, s.Stalled c → s'.Stalled c) :
    s'.PhaseOk phase := by
  cases phase with
  | look c rest seq => exact Nat.le_trans fine later
  | block c rest seq =>
    refine ⟨Nat.le_trans fine.1 later, fun now => stalled c (fine.2 ?_)⟩
    have := fine.1
    omega
  | asleep c rest => exact stalled c fine
  | idle | top | tidy => trivial

theorem phaseOk_after (chores : List Chore) (rest : List Call) : s.PhaseOk (.after chores rest) := by
  cases chores <;> cases rest <;> trivial

theorem Inv.frame (inv : s.Inv) (locks : s'.locks = s.locks) (later : s.seq ≤ s'.seq)
    (pending : ∀ chore, s.Pending chore → s'.Pending chore)
    (live : ∀ l ∈ s.locks, s.Live l.node l.since l.owner → s'.Owned l)
    (phases : ∀ tid, s'.phase tid = s.phase tid ∨ s'.PhaseOk (s'.phase tid)) : s'.Inv := by
  refine ⟨locks ▸ inv.compatible, locks ▸ inv.separate, fun l member => ?_, fun tid => ?_⟩
  · rw [locks] at member
    obtain lives | ⟨chore, isPending, removes⟩ := inv.owned l member
    · exact live l member lives
    · exact .inr ⟨chore, pending chore isPending, removes⟩
  · obtain same | fine := phases tid
    · rw [same]
      exact (inv.phases tid).mono later fun c stalled => stalled.imp (locks ▸ ·) (pending _)
    · exact fine

theorem phase_setPhase (s : State) (tid t : Nat) (phase : Phase) :
    (s.setPhase tid phase).phase t = if t = tid then phase else s.phase t := Function.update_apply ..

theorem Pending.setPhase {tid : Nat} {chore : Chore} (pending : s.Pending chore)
    (kept : (s.phase tid).chores ⊆ phase.chores) : (s.setPhase tid phase).Pending chore := by
  obtain ⟨t, member⟩ := pending
  refine ⟨t, ?_⟩
  rw [phase_setPhase]
  split
  · rename_i same
    exact kept (same ▸ member)
  · exact member

theorem Inv.setPhase (inv : s.Inv) {tid : Nat} (done : (s.phase tid).chores = [])
    (fine : (s.setPhase tid phase).PhaseOk phase) : (s.setPhase tid phase).Inv := by
  refine inv.frame rfl le_rfl (fun chore pending => pending.setPhase (by simp [done])) (fun l _ => .inl) fun t => ?_
  rw [phase_setPhase]
  split
  · exact .inr fine
  · exact .inl rfl

theorem pending_after {tid : Nat} {chores : List Chore} {chore : Chore} (member : chore ∈ chores) (rest : List Call) :
    (s.setPhase tid (.after chores rest)).Pending chore := by
  refine ⟨tid, ?_⟩
  rw [phase_setPhase, if_pos rfl, chores_after]
  exact member

theorem Inv.start (inv : s.Inv) {tid : Nat} (idle : s.phase tid = .idle) {alive : Nat → Bool}
    {chores : List Chore} (covered : ∀ l ∈ s.locks, s.Live l.node l.since l.owner →
      { s with refs, alive }.Live l.node l.since l.owner ∨ ∃ chore ∈ chores, chore.removes l = true) :
    ({ s with refs, alive }.setPhase tid (.after chores [])).Inv := by
  refine inv.frame rfl le_rfl (fun chore pending => ?_) (fun l member lives => ?_) fun t => ?_
  · exact Pending.setPhase (s := { s with refs, alive }) pending (by simp [idle, Phase.chores])
  · obtain still | ⟨chore, isChore, removes⟩ := covered l member lives
    · exact .inl still
    · exact .inr ⟨chore, pending_after isChore [], removes⟩
  rw [phase_setPhase]
  split
  · exact .inr (phaseOk_after _ _)
  · exact .inl rfl

theorem live_desc {owner : Owner} {since : Nat} (isOwner : owner = .flock id ∨ owner = .ofd id) :
    s.Live node since owner ↔ (∃ h, s.refs.lookup h = some id) ∧ s.node id = node ∧ s.opens id = since := by
  obtain rfl | rfl := isOwner <;> rfl

theorem dropped_removes (gone : referenced refs id = false) {l : Lock}
    (isOwner : l.owner = .flock id ∨ l.owner = .ofd id) : ∃ chore ∈ dropped refs id, chore.removes l = true := by
  rw [dropped, gone, if_neg Bool.false_ne_true]
  obtain owner | owner := isOwner
  · exact ⟨.release (.flock id), by simp, by simp [Chore.removes, owner]⟩
  · exact ⟨.release (.ofd id), by simp, by simp [Chore.removes, owner]⟩

theorem covered_desc {alive : Nat → Bool} {l : Lock} {chores : List Chore}
    (isOwner : l.owner = .flock id ∨ l.owner = .ofd id) (lives : s.Live l.node l.since l.owner)
    (last : referenced refs id = false → dropped refs id ⊆ chores) :
    { s with refs, alive }.Live l.node l.since l.owner ∨ ∃ chore ∈ chores, chore.removes l = true := by
  cases kept : referenced refs id with
  | true =>
    left
    rw [live_desc isOwner] at lives ⊢
    exact ⟨referenced_iff.mp kept, lives.2⟩
  | false =>
    obtain ⟨chore, isChore, removes⟩ := dropped_removes kept isOwner
    exact .inr ⟨chore, last kept isChore, removes⟩

theorem owner_cases (owner : Owner) : (∃ id, owner = .flock id ∨ owner = .ofd id) ∨ ∃ pid, owner = .process pid := by
  cases owner with
  | flock id => exact .inl ⟨id, .inl rfl⟩
  | ofd id => exact .inl ⟨id, .inr rfl⟩
  | process pid => exact .inr ⟨pid, rfl⟩

theorem Live.mono {since : Nat} {owner : Owner} (lives : s.Live node since owner)
    (refs : ∀ h id, s.refs.lookup h = some id → s'.refs.lookup h = some id ∧ s'.node id = s.node id ∧ s'.opens id = s.opens id)
    (procs : ∀ pid, s.alive pid = true → s'.alive pid = true ∧ s'.spawns pid = s.spawns pid) : s'.Live node since owner := by
  obtain ⟨id, isOwner⟩ | ⟨pid, isOwner⟩ := owner_cases owner
  · rw [live_desc isOwner] at lives ⊢
    obtain ⟨⟨h, found⟩, isNode, isSince⟩ := lives
    obtain ⟨found, sameNode, sameOpens⟩ := refs h id found
    exact ⟨⟨h, found⟩, sameNode.trans isNode, sameOpens.trans isSince⟩
  · subst isOwner
    obtain ⟨alive, isSince, fd, id, found, isNode⟩ := lives
    obtain ⟨found, sameNode, _⟩ := refs _ id found
    exact ⟨(procs pid alive).1, (procs pid alive).2.trans isSince, fd, id, found, sameNode.trans isNode⟩

theorem Inv.grow (inv : s.Inv) (locks : s'.locks = s.locks) (seq : s'.seq = s.seq) (phase : s'.phase = s.phase)
    (refs : ∀ h id, s.refs.lookup h = some id → s'.refs.lookup h = some id ∧ s'.node id = s.node id ∧ s'.opens id = s.opens id)
    (procs : ∀ pid, s.alive pid = true → s'.alive pid = true ∧ s'.spawns pid = s.spawns pid) : s'.Inv := by
  refine inv.frame locks (Nat.le_of_eq seq.symm) (fun chore pending => ?_)
    (fun l _ lives => .inl (lives.mono refs procs)) fun tid => .inl (by rw [phase])
  obtain ⟨tid, member⟩ := pending
  exact ⟨tid, phase ▸ member⟩

theorem Inv.put (inv : s.Inv) {tid : Nat} (idle : s.phase tid = .idle) {h : Holder}
    (others : ∀ h', h' ≠ h → refs.lookup h' = s.refs.lookup h') : (s.put tid h refs).Inv := by
  unfold State.put
  split
  · rename_i free
    refine inv.grow rfl rfl rfl (fun h' id found => ⟨(others h' ?_).trans found, rfl, rfl⟩) fun _ alive => ⟨alive, rfl⟩
    rintro rfl
    exact Option.some_ne_none id (found.symm.trans free)
  rename_i old found
  refine inv.start idle fun l _ lives => ?_
  obtain ⟨id, isOwner⟩ | ⟨pid, isOwner⟩ := owner_cases l.owner
  · refine covered_desc isOwner lives fun last => ?_
    obtain ⟨h', named⟩ := ((live_desc isOwner).mp lives).1
    -- the reference that is gone was the one to this description
    have same : h' = h := by
      by_contra other
      rw [← others h' other] at named
      exact Bool.false_ne_true (last.symm.trans (referenced_iff.mpr ⟨h', named⟩))
    subst same
    cases found.symm.trans named
    exact List.subset_append_right _ _
  · rw [isOwner] at lives ⊢
    obtain ⟨alive, since, fd, id, named, node⟩ := lives
    by_cases same : Holder.fd pid fd = h
    · subst same
      cases found.symm.trans named
      exact .inr ⟨.closed (s.node old) pid, by simp, by simp [Chore.removes, isOwner, node]⟩
    · exact .inl ⟨alive, since, fd, id, (others _ same).trans named, node⟩

theorem Inv.exit (inv : s.Inv) {tid : Nat} (idle : s.phase tid = .idle) (pid : Nat) : (s.exit tid pid).Inv := by
  refine inv.start idle fun l _ lives => ?_
  obtain ⟨id, isOwner⟩ | ⟨p, isOwner⟩ := owner_cases l.owner
  · refine covered_desc isOwner lives fun last => ?_
    obtain ⟨h, named⟩ := ((live_desc isOwner).mp lives).1
    have own : h.isOf pid = true := by
      by_contra other
      refine Bool.false_ne_true (last.symm.trans (referenced_iff.mpr ⟨h, Table.lookup_sift.mpr ⟨named, ?_⟩⟩))
      simpa using other
    have taken : (⟨h, id⟩ : Sigma fun _ => Nat) ∈ (s.refs.sift fun h _ => h.isOf pid).entries :=
      AList.mem_lookup_iff.mp (Table.lookup_sift.mpr ⟨named, own⟩)
    intro chore isChore
    exact List.mem_append_left _ (List.mem_flatMap.mpr ⟨id, List.mem_dedup.mpr (List.mem_map.mpr ⟨_, taken, rfl⟩), isChore⟩)
  · by_cases same : p = pid
    · subst same
      exact .inr ⟨.release (.process p), by simp, by simp [Chore.removes, isOwner]⟩
    rw [isOwner] at lives ⊢
    obtain ⟨alive, since, fd, id, named, node⟩ := lives
    refine .inl ⟨?_, since, fd, id, Table.lookup_sift.mpr ⟨named, ?_⟩, node⟩
    · exact (Function.update_of_ne same ..).trans alive
    · simpa [Holder.isOf] using same

theorem insert_kept {h h' : Holder} {new : Nat} (free : refs.lookup h = none)
    (found : refs.lookup h' = some id) : (refs.insert h new).lookup h' = some id := by
  rw [AList.lookup_insert_ne, found]
  rintro rfl
  exact Option.some_ne_none id (found.symm.trans free)

theorem Inv.open_ (inv : s.Inv) {fd : Nat} (node : Nat) (free : s.refs.lookup (.fd pid fd) = none)
    (unused : referenced s.refs id = false) :
    Inv { s with
      refs := s.refs.insert (.fd pid fd) id
      node := Function.update s.node id node
      opens := Function.update s.opens id (s.opens id + 1) } := by
  refine inv.grow rfl rfl rfl (fun h id' found => ?_) fun _ alive => ⟨alive, rfl⟩
  have other : id' ≠ id := by
    rintro rfl
    exact Bool.false_ne_true (unused.symm.trans (referenced_iff.mpr ⟨h, found⟩))
  exact ⟨insert_kept free found, Function.update_of_ne other .., Function.update_of_ne other ..⟩

theorem Inv.spawn (inv : s.Inv) (free : s.alive pid = false) :
    Inv { s with alive := Function.update s.alive pid true, spawns := Function.update s.spawns pid (s.spawns pid + 1) } := by
  refine inv.grow rfl rfl rfl (fun _ _ found => ⟨found, rfl, rfl⟩) fun p alive => ?_
  have other : p ≠ pid := by
    rintro rfl
    exact Bool.false_ne_true (free.symm.trans alive)
  exact ⟨(Function.update_of_ne other ..).trans alive, Function.update_of_ne other ..⟩

variable {tid : Nat} {c : Call} {rest : List Call} {chore : Chore} {chores : List Chore}

theorem Inv.grant (inv : s.Inv) {seq : Nat} (phase : s.phase tid = .look c rest seq) (free : c.busy s.locks = false)
    (live : ∀ kind, c.kind = some kind → s.Live c.node c.since c.owner) :
    ({ s with locks := c.replace s.locks }.setPhase tid (.tidy [.wake c.node] rest)).Inv := by
  have pending (chore : Chore) (pending : s.Pending chore) :
      ({ s with locks := c.replace s.locks }.setPhase tid (.tidy [.wake c.node] rest)).Pending chore :=
    Pending.setPhase (s := { s with locks := c.replace s.locks }) pending (by simp [phase, Phase.chores])
  refine ⟨Call.replace_compatible free inv.compatible, Call.replace_separate inv.separate, fun m member => ?_, fun t => ?_⟩
  · obtain ⟨l, inTable, left⟩ | ⟨kind, isKind, rfl⟩ := Call.mem_replace.mp member
    · have part := (Call.mem_kept left).1
      obtain lives | ⟨chore, isPending, removes⟩ := inv.owned l inTable
      · left
        rw [part.node, part.since, part.owner]
        exact lives
      · refine .inr ⟨chore, pending chore isPending, ?_⟩
        rw [← removes]
        cases chore <;> simp [Chore.removes, part.node, part.owner]
    · exact .inl (live kind isKind)
  · rw [phase_setPhase]
    split
    · trivial
    refine (inv.phases t).mono le_rfl fun c' stalled => stalled.elim (fun busy => ?_) fun woken => .inr (pending _ woken)
    obtain ⟨l, inTable, node, still⟩ := Call.busy_of busy
    by_cases same : l.node = c.node
    · right
      rw [← node, same]
      exact pending_after (List.mem_singleton_self _) rest
    · exact .inl (still _ (Call.mem_replace.mpr (.inl ⟨l, inTable, by simp [Call.kept, same]⟩)))

theorem pending_released (phase : s.phase tid = .tidy (chore :: chores) rest) {other : Chore} (pending : s.Pending other) :
    other = chore ∨ (s.released tid chore chores rest).Pending other := by
  obtain ⟨t, member⟩ := pending
  by_cases same : t = tid
  · subst same
    rw [phase] at member
    exact (List.mem_cons.mp member).imp_right fun later => pending_after (List.mem_append_right _ later) rest
  · refine .inr ⟨t, ?_⟩
    rw [released, phase_setPhase, if_neg same]
    exact member

theorem stalled_released (phase : s.phase tid = .tidy (chore :: chores) rest) (stalled : s.Stalled c)
    (other : chore ≠ .wake c.node) : (s.released tid chore chores rest).Stalled c := by
  obtain busy | woken := stalled
  · obtain ⟨l, inTable, node, still⟩ := Call.busy_of busy
    cases removes : chore.removes l with
    | true =>
      right
      rw [← node]
      refine pending_after (List.mem_append_left _ (List.mem_map_of_mem (List.mem_dedup.mpr ?_))) rest
      exact List.mem_map_of_mem (List.mem_filter.mpr ⟨inTable, removes⟩)
    | false => exact .inl (still _ (List.mem_filter.mpr ⟨inTable, by rw [removes]; rfl⟩))
  · exact .inr ((pending_released phase woken).resolve_left other.symm)

theorem chores_woken (node : Nat) (phase : Phase) : (phase.woken node).chores = phase.chores := by
  cases phase with
  | asleep call rest =>
    rw [Phase.woken]
    split <;> rfl
  | _ => rfl

theorem phaseOk_woken (fine : s.PhaseOk phase) (later : s.seq < s'.seq)
    (stalled : ∀ c, c.node ≠ node → s.Stalled c → s'.Stalled c) : s'.PhaseOk (phase.woken node) := by
  cases phase with
  | look c rest seq => exact Nat.le_trans fine (Nat.le_of_lt later)
  | block c rest seq =>
    have early : seq < s'.seq := Nat.lt_of_le_of_lt fine.1 later
    exact ⟨Nat.le_of_lt early, fun now => absurd now (Nat.ne_of_lt early)⟩
  | asleep c rest =>
    rw [Phase.woken]
    split
    · trivial
    · rename_i other
      exact stalled c other fine
  | idle | top | tidy => trivial

theorem Inv.perform (inv : s.Inv) (phase : s.phase tid = .tidy (chore :: chores) rest) :
    (s.perform tid chore chores rest).Inv := by
  have compatible : ∀ l ∈ s.locks.filter (!chore.removes ·), ∀ m ∈ s.locks.filter (!chore.removes ·), Compatible l m :=
    fun l inL m inM => inv.compatible l (List.mem_of_mem_filter inL) m (List.mem_of_mem_filter inM)
  have owned : ∀ l ∈ s.locks.filter (!chore.removes ·), (s.released tid chore chores rest).Owned l := by
    intro l member
    obtain ⟨inTable, kept⟩ := List.mem_filter.mp member
    refine (inv.owned l inTable).imp id ?_
    rintro ⟨other, pending, removes⟩
    refine ⟨other, (pending_released phase pending).resolve_left ?_, removes⟩
    rintro rfl
    simp [removes] at kept
  have separate := inv.separate.filter (!chore.removes ·)
  have fine (t : Nat) : s.PhaseOk ((s.released tid chore chores rest).phase t) := by
    rw [released, phase_setPhase]
    split
    · exact phaseOk_after _ _
    · exact inv.phases t
  cases chore with
  | wake node =>
    have pending {other : Chore} (pending : (s.released tid (.wake node) chores rest).Pending other) :
        (s.perform tid (.wake node) chores rest).Pending other := by
      obtain ⟨t, member⟩ := pending
      exact ⟨t, by rw [← chores_woken node] at member; exact member⟩
    refine ⟨compatible, separate, fun l member => ?_, fun t => phaseOk_woken (fine t) (Nat.lt_succ_self s.seq) ?_⟩
    · exact (owned l member).imp id fun ⟨other, isPending, removes⟩ => ⟨other, pending isPending, removes⟩
    · intro c other stalled
      have other : Chore.wake node ≠ .wake c.node := fun same => other (Chore.wake.inj same).symm
      exact (stalled_released phase stalled other).imp id pending
  | closed node pid | release owner =>
    refine ⟨compatible, separate, owned, fun t => (fine t).mono le_rfl fun c stalled => ?_⟩
    exact stalled_released phase stalled nofun

/-- A `set` that is about to be granted a lock, for an owner that still is there with the file open. -/
def meets (s : State) : Event → Prop
  | .look tid => match s.phase tid with
      | .look c _ _ => c.kind = none ∨ c.busy s.locks = true ∨ s.Live c.node c.since c.owner
      | _ => True
  | _ => True

theorem target_idle {fd : Nat} (found : s.target tid pid fd = some id) : s.phase tid = .idle := by
  unfold target at found
  split at found
  · rename_i idle
    exact idle.1
  · cases found

theorem Inv.look (inv : s.Inv) {seq : Nat} (phase : s.phase tid = .look c rest seq)
    (met : c.kind = none ∨ c.busy s.locks = true ∨ s.Live c.node c.since c.owner) : (s.look tid c rest seq).Inv := by
  have done : (s.phase tid).chores = [] := by rw [phase]; rfl
  have current := inv.phases tid
  rw [phase] at current
  unfold State.look
  split
  · rename_i busy
    refine inv.setPhase done ?_
    cases c.mode with
    | once => exact phaseOk_after [] rest
    | convert => trivial
    | wait => exact ⟨current, fun _ => .inl busy⟩
  · rename_i free
    refine inv.grant phase (Bool.eq_false_iff.mpr free) fun kind isKind => ?_
    exact (met.resolve_left (by simp [isKind])).resolve_left free

theorem Inv.step (inv : s.Inv) {event : Event} (met : s.meets event) (stepped : s.step event = some s') : s'.Inv := by
  have idle {tid : Nat} (idle : s.phase tid = .idle) : (s.phase tid).chores = [] := by rw [idle]; rfl
  cases event with
  | spawn pid =>
    exact guarded stepped fun free => inv.spawn free
  | open_ pid fd id node =>
    exact guarded stepped fun ⟨_, free, unused⟩ => inv.open_ node free unused
  | copy source target =>
    obtain ⟨free, stepped⟩ := Option.ite_none_right_eq_some.mp stepped
    exact mapped stepped fun id _ => inv.grow rfl rfl rfl
      (fun _ _ found => ⟨insert_kept free found, rfl, rfl⟩) fun _ alive => ⟨alive, rfl⟩
  | close tid pid fd =>
    exact mapped stepped fun id found => inv.put (target_idle found) fun _ other => AList.lookup_erase_ne other
  | dup2 tid pid oldfd newfd =>
    obtain ⟨_, stepped⟩ := Option.ite_none_left_eq_some.mp stepped
    exact mapped stepped fun id found => inv.put (target_idle found) fun _ other => AList.lookup_insert_ne other
  | release tid token =>
    exact guarded stepped fun isIdle => inv.put isIdle fun _ other => AList.lookup_erase_ne other
  | exit tid pid =>
    exact guarded stepped fun ⟨isIdle, _⟩ => inv.exit isIdle pid
  | flock tid pid fd op | lockctl tid pid fd cmd range =>
    obtain ⟨id, found, stepped⟩ := Option.bind_eq_some_iff.mp stepped
    exact mapped stepped fun c _ => inv.setPhase (idle (target_idle found)) trivial
  | conflict tid =>
    exact guarded stepped fun _ => inv
  | wake =>
    cases stepped
    exact inv.frame rfl (Nat.le_succ _) (fun _ => id) (fun _ _ => .inl) fun _ => .inl rfl
  | seq tid =>
    simp only [State.step] at stepped
    split at stepped <;> cases stepped
    rename_i c rest phase
    exact inv.setPhase (by rw [phase]; rfl) le_rfl
  | look tid =>
    simp only [State.step] at stepped
    split at stepped <;> cases stepped
    rename_i c rest seq phase
    simp only [meets, phase] at met
    exact inv.look phase met
  | block tid =>
    simp only [State.step] at stepped
    split at stepped <;> cases stepped
    rename_i c rest seq phase
    refine inv.setPhase (by rw [phase]; rfl) ?_
    have current := inv.phases tid
    rw [phase] at current
    split
    · rename_i now
      exact (current.2 now.symm).imp id fun woken => woken.setPhase (by simp [phase, Phase.chores])
    · trivial
  | interrupt tid | resume tid =>
    simp only [State.step] at stepped
    split at stepped <;> cases stepped
    rename_i phase
    exact inv.setPhase (by rw [phase]; rfl) trivial
  | chore tid =>
    simp only [State.step] at stepped
    split at stepped <;> cases stepped
    rename_i phase
    exact inv.perform phase

theorem boot_inv (booted : s.Boot) : s.Inv := by
  obtain ⟨_, locks, _, idle⟩ := booted
  refine ⟨?_, ?_, ?_, fun tid => ?_⟩
  · simp [locks]
  · simp [locks]
  · simp [locks]
  · rw [idle]
    trivial

theorem woken_after (node : Nat) (chores : List Chore) (rest : List Call) :
    (Phase.after chores rest).woken node = .after chores rest := by
  cases chores <;> cases rest <;> rfl

theorem chore_asleep (phase : s.phase waker = .tidy (chore :: chores) rest)
    (asleep : s.phase tid = .asleep c more) :
    (s.perform waker chore chores rest).phase tid = .top c more ∨
      chore ≠ .wake c.node ∧ (s.perform waker chore chores rest).phase tid = .asleep c more ∧
        ∃ nodes : List Nat, (∀ node, chore = .wake node → nodes = []) ∧
          (s.perform waker chore chores rest).phase waker = .after (nodes.map .wake ++ chores) rest := by
  have other : tid ≠ waker := by
    rintro rfl
    cases asleep.symm.trans phase
  have still : (s.released waker chore chores rest).phase tid = .asleep c more := by
    rw [released, phase_setPhase, if_neg other, asleep]
  have own : (s.released waker chore chores rest).phase waker =
      .after (((s.locks.filter chore.removes).map Lock.node).dedup.map .wake ++ chores) rest := by
    rw [released, phase_setPhase, if_pos rfl]
  cases chore with
  | wake node =>
    by_cases same : c.node = node
    · left
      change Phase.woken node _ = _
      rw [still, Phase.woken, if_pos same]
    refine .inr ⟨fun isWake => same (Chore.wake.inj isWake).symm, ?_, ?_⟩
    · change Phase.woken node _ = _
      rw [still, Phase.woken, if_neg same]
    have missing : s.locks.filter (Chore.wake node).removes = [] := List.filter_eq_nil_iff.mpr fun _ _ => Bool.false_ne_true
    refine ⟨[], fun _ _ => rfl, (congrArg (Phase.woken node) own).trans ?_⟩
    rw [woken_after, missing]
    rfl
  | closed node pid | release owner => exact .inr ⟨nofun, still, _, nofun, own⟩

def Wakes (s : State) (waker tid : Nat) (c : Call) (more : List Call) : Prop :=
  ∃ n s', system.run s (List.replicate n (.chore waker)) = some s' ∧ s'.phase tid = .top c more

theorem Wakes.start (phase : s.phase waker = .tidy (chore :: chores) rest)
    (wakes : (s.perform waker chore chores rest).Wakes waker tid c more) : s.Wakes waker tid c more := by
  obtain ⟨n, s', ran, awake⟩ := wakes
  refine ⟨n + 1, s', Option.bind_eq_some_iff.mpr ⟨_, ?_, ran⟩, awake⟩
  change s.step (.chore waker) = _
  rw [State.step, phase]

theorem chores_wake (before later : List Chore) :
    ∀ (nodes : List Nat) (s : State), s.phase tid = .asleep c more →
      s.phase waker = .after (nodes.map .wake ++ (before ++ .wake c.node :: later)) rest → s.Wakes waker tid c more := by
  -- the wakes at the head of the list leave what follows them
  have peel {chores : List Chore} (base : ∀ s : State, s.phase tid = .asleep c more →
      s.phase waker = .after chores rest → s.Wakes waker tid c more) (nodes : List Nat) :
      ∀ s : State, s.phase tid = .asleep c more → s.phase waker = .after (nodes.map .wake ++ chores) rest →
        s.Wakes waker tid c more := by
    induction nodes with
    | nil => exact base
    | cons node nodes ih =>
      intro s asleep phase
      obtain awake | ⟨_, still, added, missing, next⟩ := chore_asleep phase asleep
      · exact Wakes.start phase ⟨0, _, rfl, awake⟩
      · rw [missing node rfl] at next
        exact Wakes.start phase (ih _ still next)
  induction before with
  | nil =>
    refine peel fun s asleep phase => ?_
    obtain awake | ⟨other, _⟩ := chore_asleep phase asleep
    · exact Wakes.start phase ⟨0, _, rfl, awake⟩
    · exact absurd rfl other
  | cons chore before ih =>
    refine peel fun s asleep phase => ?_
    obtain awake | ⟨_, still, added, _, next⟩ := chore_asleep phase asleep
    · exact Wakes.start phase ⟨0, _, rfl, awake⟩
    · exact Wakes.start phase (ih added _ still next)

theorem Inv.wakes (inv : s.Inv) (asleep : s.phase tid = .asleep c more) (free : c.busy s.locks = false) :
    ∃ waker, s.Wakes waker tid c more := by
  have stalled := inv.phases tid
  rw [asleep] at stalled
  obtain busy | ⟨waker, member⟩ := stalled
  · exact absurd (free.symm.trans busy) Bool.false_ne_true
  obtain ⟨before, later, split⟩ := List.append_of_mem member
  refine ⟨waker, ?_⟩
  cases phase : s.phase waker with
  | tidy chores rest =>
    rw [phase, Phase.chores] at split
    subst split
    refine chores_wake before later [] s asleep (phase.trans (?_ : _ = Phase.after _ rest))
    cases before <;> rfl
  | _ =>
    rw [phase] at split
    simp [Phase.chores] at split

/-- What the locks promise: they exclude, an owner's locks are apart and follow the update of each byte, each
belongs to a living owner or is about to go, and no one sleeps on when what it waits for is free. -/
structure Sound (s : State) : Prop where
  excludes : ∀ l ∈ s.locks, ∀ m ∈ s.locks, Compatible l m
  disjoint : s.locks.Pairwise Separate
  pointwise : ∀ tid c rest seq, s.phase tid = .look c rest seq → c.busy s.locks = false →
    ∃ s', s.step (.look tid) = some s' ∧ ∀ node owner kind x,
      (c.Sets node owner x → (Holds s'.locks node owner kind x ↔ c.kind = some kind)) ∧
        (¬ c.Sets node owner x → (Holds s'.locks node owner kind x ↔ Holds s.locks node owner kind x))
  owned : ∀ l ∈ s.locks, s.Owned l
  woken : ∀ tid c rest, s.phase tid = .asleep c rest → c.busy s.locks = false → ∃ waker, s.Wakes waker tid c rest

theorem Inv.sound (inv : s.Inv) : s.Sound := by
  refine ⟨inv.compatible, inv.separate, fun tid c rest seq phase free => ?_, inv.owned, fun _ _ _ => inv.wakes⟩
  refine ⟨s.look tid c rest seq, by simp only [State.step, phase], fun node owner kind x => ?_⟩
  rw [State.look, if_neg (Bool.eq_false_iff.mp free)]
  exact Call.holds_replace node owner kind x

theorem reach_locksSound (s : State) (reachable : system.Reach meets s) : s.Sound :=
  Inv.sound (reachable.invariant (fun _ => boot_inv) fun _ _ _ inv met stepped => inv.step met stepped)

def boot : State := ⟨∅, fun _ => 0, fun _ => 0, fun _ => false, fun _ => 0, [], fun _ => .idle, 0⟩

theorem boot_boots : boot.Boot := ⟨rfl, rfl, fun _ => rfl, fun _ => rfl⟩

theorem reach_locksSound_record : ∃ s : State, s.Sound ∧ s.locks = [⟨7, .process 1, .exclusive, 100, 150, 1⟩] := by
  have asked : system.Reach meets _ :=
    (System.Reach.start boot_boots).runAlways [.spawn 1, .open_ 1 3 0 7, .lockctl 10 1 3 1 ⟨1, 100, 50⟩, .seq 10]
      (by simp [meets]) rfl
  refine ⟨_, reach_locksSound _ (asked.next ?_ (show system.step _ (.look 10) = some _ from rfl)), rfl⟩
  exact Or.inr (Or.inr ⟨rfl, rfl, 3, 0, rfl, rfl⟩)

def lateGrant : List Event :=
  [.spawn 1, .open_ 1 3 0 7, .flock 10 1 3 2, .close 11 1 3, .chore 11, .chore 11, .chore 11, .seq 10, .look 10]

theorem lock_outlives_description : ¬ ∀ s, system.Reach System.Any s → s.Sound := by
  intro sound
  have reached : system.Reach System.Any _ := (System.Reach.start boot_boots).run lateGrant rfl
  obtain lives | ⟨chore, ⟨tid, member⟩, removes⟩ := (sound _ reached).owned ⟨7, .flock 0, .exclusive, 0, TO_END, 1⟩ (by decide)
  · obtain ⟨⟨h, found⟩, _⟩ := lives
    cases found
  by_cases ten : tid = 10
  · subst ten
    cases List.mem_singleton.mp member
    cases removes
  by_cases eleven : tid = 11
  · subst eleven
    cases member
  change chore ∈ (Function.update (Function.update (Function.update (Function.update (Function.update (Function.update
    (Function.update boot.phase 10 _) 11 _) 11 _) 11 _) 11 _) 10 _) 10 _ tid).chores at member
  simp only [Function.update_of_ne ten, Function.update_of_ne eleven] at member
  cases member

end State
end Myos.Fs.Locks
