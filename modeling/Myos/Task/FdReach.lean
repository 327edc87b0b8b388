import Myos.Task.FdCounts

namespace Myos.Task.Fd
open Lib

def Obj.isPipe : Obj → Bool
  | .pipeRead _ | .pipeWrite _ => true
  | _ => false

namespace World

variable {w : World} {pid : Pid}

def added (w : World) : Event → Obj → Nat
  | .openFifo _ id flags, o => ((fifoEnd (flags &&& 3 == O_WRONLY) id).names o).toNat
  | .dup2 pid oldfd newfd _, o => if oldfd = newfd then 0 else ((w.entry pid oldfd).any (·.names o)).toNat
  | .dupMin pid oldfd _ _, o => ((w.entry pid oldfd).any (·.names o)).toNat
  | .hold pid fd, o => ((w.entry pid fd).any (·.names o)).toNat
  | .fork parent _ _, o => (List.range MAX_FDS).countP fun fd => (w.entry parent fd).any (·.names o)
  | _, _ => 0

/-- No end of a pipe gets more than 255 entries that name it. -/
def meets (w : World) (event : Event) : Bool :=
  w.objs.pipes.keys.all fun id =>
    decide (w.names (.pipeRead id) + w.added event (.pipeRead id) ≤ U8_MAX) &&
      decide (w.names (.pipeWrite id) + w.added event (.pipeWrite id) ≤ U8_MAX)

variable {event : Event} {e : FdEntry} {fd id : Nat} {o : Obj} {child parent : Pid}

theorem meets_le (met : w.meets event = true) (isPipe : o.isPipe = true)
    (present : w.objs.exists_ o = true) : w.names o + w.added event o ≤ U8_MAX := by
  unfold meets at met
  rw [List.all_eq_true] at met
  cases o with
  | pipeRead id =>
    have both := met id (AList.mem_keys.mp (AList.lookup_isSome.mp present))
    exact of_decide_eq_true (Bool.and_eq_true_iff.mp both).1
  | pipeWrite id =>
    have both := met id (AList.mem_keys.mp (AList.lookup_isSome.mp present))
    exact of_decide_eq_true (Bool.and_eq_true_iff.mp both).2
  | file id | ptyMaster id | ptySlave id | evfd kind id => cases isPipe

theorem Inv.refs_pipe (inv : w.Inv []) (isPipe : o.isPipe = true) : w.objs.refs o = w.names o := by
  have counted := inv.counted o
  cases o with
  | pipeRead id | pipeWrite id => exact counted
  | file id | ptyMaster id | ptySlave id | evfd kind id => cases isPipe

theorem room_of_lt {s : Objects} (below : o.isPipe = true → s.refs o < U8_MAX) : s.room o := by
  cases o with
  | pipeRead id | pipeWrite id => exact below rfl
  | file id | ptyMaster id | ptySlave id | evfd kind id => trivial

theorem Inv.room_entry (inv : w.Inv []) (met : w.meets event = true)
    (found : w.entry pid fd = some e) (one : ∀ o, e.obj = some o → w.added event o = 1) (o : Obj) (isObj : e.obj = some o) :
    w.objs.room o := by
  refine room_of_lt fun isPipe => ?_
  rw [inv.refs_pipe isPipe]
  have counted := inv.refs_pipe isPipe
  have present : w.objs.exists_ o = true := Objects.exists_of_refs (counted ▸ names_pos_of_entry found isObj)
  have enough := meets_le met isPipe present
  rw [one o isObj] at enough
  exact enough

theorem any_names (found : w.entry pid fd = some e) (isObj : e.obj = some o) :
    ((w.entry pid fd).any (·.names o)).toNat = 1 := by
  rw [found, Option.any_some, FdEntry.names, isObj, beq_self_eq_true]
  rfl

theorem entry_forkFd (apart : parent ≠ child) (s : Slot) (objs : Objects) (fd other : Nat) :
    ((w.setObjs objs).setFd child fd s).entry parent other = w.entry parent other := by
  have keys : (parent, other) ≠ (child, fd) := fun same => apart (Prod.mk.inj same).1
  rw [entry, setFd, AList.lookup_insert_ne keys]
  rfl

theorem forkFd_spec (parent : Pid) (free : w.entry child fd = none) :
    (∀ pid other, pid ≠ child → (w.forkFd parent child fd).entry pid other = w.entry pid other) ∧
      (∀ other, other ≠ fd → (w.forkFd parent child fd).entry child other = w.entry child other) ∧
      ∀ o, (w.forkFd parent child fd).names o = w.names o + ((w.entry parent fd).any (·.names o)).toNat := by
  rw [forkFd, entry]
  cases w.fds.lookup (parent, fd) with
  | none => exact ⟨fun _ _ _ => rfl, fun _ _ => rfl, fun _ => rfl⟩
  | some s =>
    refine ⟨fun _ other differs => entry_forkFd differs s _ fd other, fun _ differs => entry_setFd_ne differs s, fun o => ?_⟩
    have added := names_setFd (w.setObjs (w.objs.fdClone s.entry)) child fd s o
    rwa [entry_setObjs, free, Option.toList_none, List.countP_nil, Nat.add_zero] at added

theorem Inv.forkFds (inv : w.Inv []) (apart : parent ≠ child) {fds : List Nat} (nodup : fds.Nodup)
    (fresh : ∀ fd ∈ fds, w.entry child fd = none)
    (room : ∀ o, o.isPipe = true → w.names o ≠ 0 →
      w.names o + fds.countP (fun fd => (w.entry parent fd).any (·.names o)) ≤ U8_MAX) :
    (fds.foldl (fun w fd => w.forkFd parent child fd) w).Inv [] := by
  induction fds generalizing w with
  | nil => exact inv
  | cons fd fds ih =>
    obtain ⟨notLater, nodup⟩ := List.nodup_cons.mp nodup
    obtain ⟨stays, later, counts⟩ := forkFd_spec parent (fresh fd (.head _))
    have enough (o : Obj) (isPipe : o.isPipe = true) (named : w.names o ≠ 0) : w.names o +
        ((w.entry parent fd).any (·.names o)).toNat + fds.countP (fun fd => (w.entry parent fd).any (·.names o)) ≤ U8_MAX := by
      have enough := room o isPipe named
      rw [List.countP_cons] at enough
      cases isNamed : (w.entry parent fd).any (·.names o) <;> simp only [isNamed] at enough ⊢ <;> simp at enough ⊢ <;> omega
    rw [List.foldl_cons]
    refine ih ?_ nodup (fun other member => ?_) fun o isPipe named => ?_
    · unfold forkFd
      cases found : w.fds.lookup (parent, fd) with
      | none => exact inv
      | some s =>
        have here : w.entry parent fd = some s.entry := by rw [entry, found, Option.map_some]
        refine (inv.fdClone_entry here fun o isObj => room_of_lt fun isPipe => ?_).putFree (fresh fd (.head _)) s.cloexec
        have enough := enough o isPipe (names_pos_of_entry here isObj)
        have named : s.entry.names o = true := beq_iff_eq.mpr isObj
        rw [here, Option.any_some, named, Bool.toNat_true] at enough
        rw [inv.refs_pipe isPipe]
        omega
    · rw [later other fun same => notLater (same ▸ member)]
      exact fresh other (.tail _ member)
    · simp only [stays parent _ apart]
      rw [counts] at named ⊢
      -- what the parent's entry names had a name before
      refine enough o isPipe fun unnamed => named ?_
      rw [unnamed, Nat.zero_add, Bool.toNat_eq_zero, Option.any_eq_false]
      rintro e here
      exact Bool.eq_false_iff.mpr fun isNamed => names_pos_of_entry here (beq_iff_eq.mp isNamed) unnamed

theorem unused_entry (unused : w.unused pid = true) (fd : Nat) : w.entry pid fd = none := by
  cases found : w.fds.lookup (pid, fd) with
  | none => rw [entry, found, Option.map_none]
  | some s =>
    have listed : (pid, fd) ∈ w.fds.keys := AList.mem_keys.mp (AList.lookup_isSome.mp (Option.isSome_of_eq_some found))
    have other := List.all_eq_true.mp unused (pid, fd) listed
    simp at other

theorem Inv.fork (inv : w.Inv []) {fails : Bool} (apart : parent ≠ child)
    (unused : w.unused child = true) (met : w.meets (.fork parent child fails) = true) :
    (w.fork parent child fails).Inv [] := by
  have forked := inv.forkFds apart List.nodup_range (fun fd _ => unused_entry unused fd) fun o isPipe named =>
    meets_le met isPipe (Objects.exists_of_refs (by rw [inv.refs_pipe isPipe]; exact named))
  unfold World.fork
  simp only
  split
  · exact forked.closeAll child _
  · exact forked

theorem Inv.plain (inv : w.Inv []) (missing : e.obj = none) (free : w.entry pid fd = Option.none) :
    (w.setFd pid fd ⟨e, false⟩).Inv [] := by
  have extra : w.Inv [e] := by
    refine ⟨fun o => ?_, inv.sane, inv.fds, inv.held, fun e' member => ?_⟩
    · rw [countP_cons_names, FdEntry.names, missing]
      exact inv.counted o
    · rw [List.mem_singleton.mp member]
      cases e <;> trivial
  exact extra.putFree free false

theorem Inv.spawn (inv : w.Inv []) (unused : w.unused pid = true) :
    (((w.setFd pid 0 ⟨.stdin, false⟩).setFd pid 1 ⟨.console, false⟩).setFd pid 2 ⟨.console, false⟩).Inv [] := by
  have free := unused_entry unused
  refine ((inv.plain rfl (free 0)).plain rfl ?_).plain rfl ?_
  · rw [entry_setFd_ne (by decide)]
    exact free 1
  · rw [entry_setFd_ne (by decide), entry_setFd_ne (by decide)]
    exact free 2

theorem Inv.step {w' : World} (inv : w.Inv []) (met : w.meets event = true)
    (stepped : w.step event = some w') : w'.Inv [] := by
  cases event with
  | spawn pid =>
    exact guarded stepped fun free => inv.spawn free.2
  | pipeOpen pid cloexec =>
    cases stepped
    exact inv.pipeOpen cloexec
  | open_ pid node flags hook =>
    cases stepped
    exact inv.open_ node flags hook
  | mkfifo =>
    exact mapped stepped fun _ made => inv.pipeAlloc made
  | fifoUnlink id =>
    cases stepped
    exact inv.fifoUnlink id
  | openFifo pid id flags =>
    cases stepped
    refine inv.openFifo fun p found o isObj => room_of_lt fun isPipe => ?_
    have present : w.objs.exists_ o = true := by
      cases isWrite : flags &&& 3 == O_WRONLY with
      | true | false =>
        rw [isWrite] at isObj
        cases isObj
        exact Option.isSome_of_eq_some found
    have enough := meets_le met isPipe present
    rw [added, FdEntry.names, isObj, beq_self_eq_true] at enough
    rw [inv.refs_pipe isPipe]
    exact enough
  | openEvfd pid kind id =>
    cases stepped
    exact inv.openEvfd kind id
  | cloneEvfd pid kind =>
    cases stepped
    exact inv.cloneEvfd kind
  | openPtyMaster pid =>
    cases stepped
    exact inv.openPtyMaster
  | openPtySlave pid id =>
    cases stepped
    exact inv.openPtySlave id
  | claimSession id =>
    cases stepped
    exact inv.claimSession id
  | dup2 pid oldfd newfd cloexec =>
    cases stepped
    refine inv.dup2 (fun apart e found => inv.room_entry met found fun o isObj => ?_) cloexec
    rw [added, if_neg apart]
    exact any_names found isObj
  | dupMin pid oldfd minfd cloexec =>
    cases stepped
    exact inv.dupMin (fun e found => inv.room_entry met found fun o isObj => any_names found isObj) cloexec
  | setCloexec pid fd on_ =>
    cases stepped
    exact inv.setCloexec fd on_
  | fork parent child fails =>
    exact guarded stepped fun free => inv.fork free.2.1 free.2.2 met
  | hold pid fd =>
    cases stepped
    exact inv.holdFd fun e found => inv.room_entry met found fun o isObj => any_names found isObj
  | install pid token cloexec =>
    cases stepped
    exact inv.install token cloexec
  | release token =>
    cases stepped
    exact inv.release token
  | close pid fd =>
    cases stepped
    exact inv.close pid fd
  | closeOnExec pid =>
    cases stepped
    exact inv.closeAll pid _
  | exit pid =>
    rw [← Option.some.inj stepped, exit]
    exact inv.closeAll pid (List.range MAX_FDS)

theorem count_eq_zero {κ ν : Type*} [DecidableEq κ] {table : Table κ ν} {pick : κ → ν → Bool}
    (never : ∀ key value, table.lookup key = some value → pick key value = false) : table.count pick = 0 := by
  by_contra some
  obtain ⟨key, value, found, picked⟩ := Table.count_pos_iff.mp (Nat.pos_of_ne_zero some)
  rw [never key value found] at picked
  cases picked

theorem sound_not_master (sound : e.sound) (below : id < TERMS) : e.names (.ptyMaster id) = false := by
  refine beq_false_of_ne fun isObj => ?_
  cases e with
  | ptyMaster n =>
    cases isObj
    exact absurd sound (Nat.not_le.mpr below)
  | stdin | console | file n | pipeRead n | pipeWrite n | ptySlave n hangups | evfd kind n => cases isObj

theorem Inv.no_master (inv : w.Inv []) (below : id < TERMS) : w.names (.ptyMaster id) = 0 := by
  have fds := count_eq_zero fun key s (found : w.fds.lookup key = some s) => sound_not_master (inv.fds key s found) below
  have held := count_eq_zero fun i e (found : w.held.lookup i = some e) => sound_not_master (inv.held i e found) below
  rw [names, fds, held]

theorem boot_inv (booted : w.Boot) : w.Inv [] := by
  obtain ⟨pipes, files, evfds, fds, held, ptys⟩ := booted
  have unnamed (o : Obj) : w.names o = 0 := by
    rw [names, fds, held]
    rfl
  refine ⟨fun o => ?_, ⟨fun id p found => ?_, fun id p found => ?_⟩, fun key s found => ?_, fun i e found => ?_,
    fun _ wrong => nomatch wrong⟩
  · rw [unnamed, List.countP_nil, Nat.zero_add, Nat.add_zero]
    cases o with
    | ptyMaster id =>
      rw [Objects.refs, ptys, kernelHeld]
      split <;> rfl
    | ptySlave id =>
      rw [Objects.refs, ptys]
      split <;> rfl
    | file id =>
      rw [Objects.refs, files]
      rfl
    | pipeRead id | pipeWrite id =>
      rw [Objects.refs, pipes]
      rfl
    | evfd kind id =>
      rw [Objects.refs, evfds]
      rfl
  · rw [pipes] at found
    cases found
  · rw [ptys] at found
    exact guarded found fun below => ⟨by simpa using below, fun _ => rfl⟩
  · rw [fds] at found
    cases found
  · rw [held] at found
    cases found

theorem Inv.refCounts (inv : w.Inv []) : w.RefCounts := by
  have gone {o : Obj} (zero : w.objs.refs o = 0) : w.names o = 0 := by
    have counted := inv.counted o
    omega
  refine ⟨inv.counted, fun o missing => gone ?_, fun id reads isClosed => gone ?_, fun id noReader => gone ?_,
    fun id hup => gone ?_, fun pid fd id hangups opened hup => ?_⟩
  · by_contra counted
    rw [Objects.exists_of_refs counted] at missing
    cases missing
  · obtain ⟨p, found, isClosed⟩ := Option.any_eq_true .. |>.mp isClosed
    have readers := inv.refs_pipe (o := .pipeRead id) rfl
    rw [Objects.refs_pipeRead found] at readers
    rw [Objects.refs_pipeWrite found]
    exact (inv.sane.closed id p found isClosed).resolve_right (readers ▸ reads)
  · cases found : w.objs.pipes.lookup id with
    | none => simp [Objects.refs, found]
    | some p =>
      rw [Objects.readersGone, found] at noReader
      rw [Objects.refs_pipeRead found]
      exact beq_iff_eq.mp noReader
  · cases found : w.objs.ptys.lookup id with
    | none => simp [Objects.refs, found]
    | some p =>
      rw [Objects.masterHup, found] at hup
      rw [Objects.refs_ptySlave found]
      exact beq_iff_eq.mp hup
  have slaves := inv.counted (.ptySlave id)
  have named := names_pos_of_entry opened rfl
  have present : w.objs.exists_ (.ptySlave id) = true := Objects.exists_of_refs (by rw [slaves]; omega)
  obtain ⟨p, found⟩ := Option.isSome_iff_exists.mp present
  rw [Objects.slaveHup, found, Option.all_some, Bool.or_eq_true, beq_iff_eq, bne_iff_ne] at hup
  obtain noMaster | hungUp := hup
  · exact gone (by rw [Objects.refs_ptyMaster found, noMaster])
  -- Only a kernel terminal hangs up, and no fd names its master.
  by_cases above : TERMS ≤ id
  · have still := (inv.sane.terms id p found).2 above
    have opening := entry_sound inv opened above
    exact absurd (still.trans opening.symm) hungUp
  · exact inv.no_master (Nat.lt_of_not_le above)

def terminals : Table Nat Pty := (List.range TERMS).foldl (fun ptys id => ptys.insert id ⟨true, 1, 0, 0⟩) ∅

def boot : World := ⟨⟨∅, ∅, terminals, ∅⟩, ∅, ∅⟩

theorem lookup_foldl_insert {ν : Type*} (v : ν) (ids : List Nat) (table : Table Nat ν) (id : Nat) :
    (ids.foldl (fun table id => table.insert id v) table).lookup id = if id ∈ ids then some v else table.lookup id := by
  induction ids generalizing table with
  | nil => simp
  | cons first ids ih =>
    rw [List.foldl_cons, ih]
    by_cases later : id ∈ ids
    · simp [later]
    by_cases same : id = first
    · subst same
      simp [later]
    · simp [later, same, AList.lookup_insert_ne same]

theorem boot_boots : boot.Boot := by
  refine ⟨rfl, rfl, rfl, rfl, rfl, fun id => ?_⟩
  rw [boot, terminals, lookup_foldl_insert]
  simp

theorem refs_fdClone_le {s : Objects} (small : s.refs (.pipeRead id) ≤ U8_MAX) (e : FdEntry) :
    (s.fdClone e).refs (.pipeRead id) ≤ U8_MAX := by
  cases e with
  | pipeRead n =>
    by_cases same : id = n
    · subst same
      cases found : s.pipes.lookup id with
      | none => simp [Objects.fdClone, Objects.addReader, Objects.setPipes, Objects.refs, found]
      | some p =>
        rw [Objects.fdClone, Objects.addReader, Objects.refs_setPipes found, if_pos rfl]
        exact Nat.min_le_right ..
    · simpa [Objects.fdClone, Objects.addReader, Objects.setPipes, Objects.refs, Table.lookup_adjust_ne same] using small
  | pipeWrite n =>
    by_cases same : id = n
    · subst same
      cases found : s.pipes.lookup id with
      | none => simp [Objects.fdClone, Objects.addWriter, Objects.setPipes, Objects.refs, found]
      | some p =>
        rw [Objects.fdClone, Objects.addWriter, Objects.refs_setPipes found, if_pos rfl]
        rw [Objects.refs_pipeRead found] at small
        exact small
    · simpa [Objects.fdClone, Objects.addWriter, Objects.setPipes, Objects.refs, Table.lookup_adjust_ne same] using small
  | stdin | console | file n | ptyMaster n | ptySlave n hangups | evfd kind n => exact small

structure Crowd (w : World) (n : Nat) : Prop where
  reachable : system.Reach System.Any w
  entry : w.entry 1 3 = some (.pipeRead 0)
  names : n < w.names (.pipeRead 0)
  small : w.objs.refs (.pipeRead 0) ≤ U8_MAX
  free : ∀ pid, n + 2 ≤ pid → ∀ fd, w.entry pid fd = none

theorem forkFds_crowd (apart : parent ≠ child) {fds : List Nat} (nodup : fds.Nodup)
    (fresh : ∀ fd ∈ fds, w.entry child fd = none) {w' : World}
    (forked : fds.foldl (fun w fd => w.forkFd parent child fd) w = w') :
    (∀ pid fd, pid ≠ child → w'.entry pid fd = w.entry pid fd) ∧
      (w.objs.refs (.pipeRead 0) ≤ U8_MAX → w'.objs.refs (.pipeRead 0) ≤ U8_MAX) ∧
      ∀ o, w'.names o = w.names o + fds.countP fun fd => (w.entry parent fd).any (·.names o) := by
  induction fds generalizing w with
  | nil =>
    cases forked
    exact ⟨fun _ _ _ => rfl, id, fun _ => rfl⟩
  | cons fd fds ih =>
    obtain ⟨notLater, nodup⟩ := List.nodup_cons.mp nodup
    obtain ⟨stays, later, added⟩ := forkFd_spec parent (fresh fd (.head _))
    obtain ⟨kept, small, counts⟩ := ih nodup (fun other member => (later other fun same => notLater (same ▸ member)).trans
      (fresh other (.tail _ member))) forked
    refine ⟨fun pid other differs => (kept pid other differs).trans (stays pid other differs), fun before => small ?_,
      fun o => ?_⟩
    · unfold forkFd
      split
      · exact before
      · exact refs_fdClone_le before _
    rw [counts o, added o, List.countP_cons]
    simp only [stays parent _ apart]
    cases (w.entry parent fd).any (·.names o) with
    | true =>
      simp only [Bool.toNat_true, if_true]
      omega
    | false => rfl

theorem unused_of_entry (free : ∀ fd, w.entry pid fd = none) : w.unused pid = true := by
  refine List.all_eq_true.mpr fun key listed => bne_iff_ne.mpr fun same => ?_
  obtain ⟨s, found⟩ := Option.isSome_iff_exists.mp (AList.lookup_isSome.mpr (AList.mem_keys.mpr listed))
  have missing := free key.2
  rw [World.entry, ← same, show (key.1, key.2) = key from rfl, found] at missing
  cases missing

theorem fork_eq (parent child : Pid) :
    (List.range MAX_FDS).foldl (fun w fd => w.forkFd parent child fd) w = w.fork parent child false := by
  unfold World.fork
  rw [if_neg Bool.false_ne_true]

theorem Crowd.fork {n : Nat} (crowd : Crowd w n) (few : n + 2 < MAX_TASKS) : ∃ w', Crowd w' (n + 1) := by
  have apart : 1 ≠ n + 2 := by omega
  have fresh := crowd.free (n + 2) le_rfl
  obtain ⟨kept, small, counts⟩ := forkFds_crowd apart List.nodup_range (fun fd _ => fresh fd) (fork_eq 1 (n + 2))
  have stepped : system.step w (.fork 1 (n + 2) false) = some (w.fork 1 (n + 2) false) :=
    if_pos ⟨few, apart, unused_of_entry fresh⟩
  have one : 0 < (List.range MAX_FDS).countP fun fd => (w.entry 1 fd).any (·.names (.pipeRead 0)) :=
    List.countP_pos_iff.mpr ⟨3, List.mem_range.mpr (by decide), by rw [crowd.entry]; rfl⟩
  refine ⟨w.fork 1 (n + 2) false, .next crowd.reachable trivial stepped, (kept 1 3 apart).trans crowd.entry, ?_,
    small crowd.small, fun pid above fd => ?_⟩
  · have before := crowd.names
    rw [counts (.pipeRead 0)]
    omega
  · exact (kept pid fd (Nat.ne_of_gt above)).trans (crowd.free pid (Nat.le_of_succ_le above) fd)

theorem crowds (n : Nat) (few : n + 1 < MAX_TASKS) : ∃ w, Crowd w n := by
  induction n with
  | zero =>
    have booted : system.Reach System.Any boot := .start boot_boots
    have reached := booted.run [.spawn 1, .pipeOpen 1 false] rfl
    refine ⟨_, reached, rfl, Nat.zero_lt_one, by decide, fun pid above fd => ?_⟩
    refine unused_entry ?_ fd
    change [(1, 4), (1, 3), (1, 2), (1, 1), (1, 0)].all (fun key : Pid × Nat => key.1 != pid) = true
    have other : (1 != pid) = true := bne_iff_ne.mpr (by omega)
    simp [other]
  | succ n ih =>
    obtain ⟨w, crowd⟩ := ih (by omega)
    exact crowd.fork (by omega)

end World
end Myos.Task.Fd
