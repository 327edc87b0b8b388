import Myos.Blk.GptSafe
import Myos.Blk.Registry

namespace Myos.Blk.Registry
open Lib

variable {devs : Devs} {owner : Nat → Nat} {i disk serial n : Nat}

def IsDisk (devs : Devs) (i n : Nat) : Prop := ∃ name scan, devs i = some ⟨name, .disk n scan⟩

structure Table (owner : Nat → Nat) (serial : Nat) (devs : Devs) : Prop where
  disks : ∀ i n, IsDisk devs i n → n < serial ∧ n = owner i
  parts : ∀ i name p, devs i = some ⟨name, .part p⟩ → (∃ n, IsDisk devs p.disk n) ∧ ∀ o ∈ p.source, o = owner p.disk

theorem eq_some_of_get {d : BlkDev} (found : devs.get i = some d) : devs i = some d := (Option.ite_none_right_eq_some.mp found).2

variable {a : Answer} {name : List Char} {slot task : Nat} {p : Part} {r : Request} {t : Task}

theorem eq_none_of_free (free : devs.free = some slot) : devs slot = none := by
  have found := List.find?_some (p := fun i => (devs i).isNone) free
  exact Option.isNone_iff_eq_none.mp found

namespace Table

theorem of_same {after : Devs} (table : Table owner serial devs) (disks : ∀ i n, IsDisk after i n ↔ IsDisk devs i n)
    (parts : ∀ i name p, after i = some ⟨name, .part p⟩ → devs i = some ⟨name, .part p⟩) : Table owner serial after where
  disks i n found := table.disks i n ((disks i n).mp found)
  parts i name p found := by
    obtain ⟨⟨n, under⟩, source⟩ := table.parts i name p (parts i name p found)
    exact ⟨⟨n, (disks _ _).mpr under⟩, source⟩

end Table

theorem isDisk_dropParts : IsDisk (devs.dropParts disk) i n ↔ IsDisk devs i n := by
  unfold IsDisk Devs.dropParts
  constructor
  · rintro ⟨name, scan, found⟩
    exact ⟨name, scan, (Option.ite_none_left_eq_some.mp found).2⟩
  rintro ⟨name, scan, found⟩
  refine ⟨name, scan, ?_⟩
  rw [found]
  rfl

theorem part_of_dropParts (found : devs.dropParts disk i = some ⟨name, .part p⟩) :
    devs i = some ⟨name, .part p⟩ ∧ p.disk ≠ disk := by
  obtain ⟨kept, found⟩ := Option.ite_none_left_eq_some.mp found
  refine ⟨found, fun same => kept ?_⟩
  rw [found]
  exact beq_iff_eq.mpr same

theorem Table.dropParts (table : Table owner serial devs) (disk : Nat) : Table owner serial (devs.dropParts disk) :=
  table.of_same (fun _ _ => isDisk_dropParts) fun _ _ _ found => (part_of_dropParts found).1

theorem isDisk_of_leave (found : IsDisk ((devs.dropParts disk).put disk none) i n) : IsDisk devs i n := by
  obtain ⟨name, scan, found⟩ := found
  obtain ⟨_, ⟨⟩⟩ | ⟨_, found⟩ := Lib.Table.update_some found
  exact isDisk_dropParts.mp ⟨name, scan, found⟩

theorem Table.leave (table : Table owner serial devs) (disk : Nat) :
    Table owner serial ((devs.dropParts disk).put disk none) := by
  refine ⟨fun i n found => table.disks i n (isDisk_of_leave found), fun i name p found => ?_⟩
  obtain ⟨_, ⟨⟩⟩ | ⟨_, found⟩ := Lib.Table.update_some found
  obtain ⟨found, other⟩ := part_of_dropParts found
  obtain ⟨⟨n, under⟩, source⟩ := table.parts i name p found
  obtain ⟨name, scan, under⟩ := isDisk_dropParts.mpr under
  exact ⟨⟨n, name, scan, (Function.update_of_ne other _ _).trans under⟩, source⟩

theorem setScan_cases (devs : Devs) (disk : Nat) (scan : Scan) : devs.setScan disk scan = devs ∨
    ∃ name n was, devs disk = some ⟨name, .disk n was⟩ ∧ devs.setScan disk scan = devs.put disk (some ⟨name, .disk n scan⟩) := by
  unfold Devs.setScan
  split
  · exact .inr ⟨_, _, _, eq_some_of_get ‹_›, rfl⟩
  · exact .inl rfl

theorem isDisk_setScan {scan : Scan} : IsDisk (devs.setScan disk scan) i n ↔ IsDisk devs i n := by
  rcases setScan_cases devs disk scan with same | ⟨name, m, was, found, same⟩
  · rw [same]
  rw [same]
  unfold IsDisk Devs.put
  by_cases here : i = disk
  · subst here
    simp [found]
  · simp [Function.update_of_ne here]

theorem part_of_setScan {scan : Scan} (found : devs.setScan disk scan i = some ⟨name, .part p⟩) :
    devs i = some ⟨name, .part p⟩ := by
  rcases setScan_cases devs disk scan with same | ⟨other, m, was, before, same⟩
  · rwa [same] at found
  rw [same, Devs.put] at found
  by_cases here : i = disk
  · subst here
    simp at found
  · rwa [Function.update_of_ne here] at found

theorem Table.setScan (table : Table owner serial devs) (disk : Nat) (scan : Scan) :
    Table owner serial (devs.setScan disk scan) :=
  table.of_same (fun _ _ => isDisk_setScan) fun _ _ _ found => part_of_setScan found

theorem isDisk_put_part (free : devs slot = none) :
    IsDisk (devs.put slot (some ⟨name, .part p⟩)) i n ↔ IsDisk devs i n := by
  unfold IsDisk Devs.put
  by_cases here : i = slot
  · subst here
    simp [free]
  · simp [Function.update_of_ne here]

theorem isDisk_addAll {source : List Nat} (entries : List Gpt.Entry) :
    IsDisk (Devs.addAll name disk source entries devs) i n ↔ IsDisk devs i n := by
  induction entries generalizing devs with
  | nil => rfl
  | cons e rest ih =>
    unfold Devs.addAll
    split
    · rfl
    · exact ih.trans (isDisk_put_part (eq_none_of_free ‹_›))

theorem Table.addAll (table : Table owner serial devs) {source : List Nat} (under : IsDisk devs disk n)
    (own : ∀ o ∈ source, o = owner disk) (entries : List Gpt.Entry) :
    Table owner serial (Devs.addAll name disk source entries devs) := by
  induction entries generalizing devs with
  | nil => exact table
  | cons e rest ih =>
    unfold Devs.addAll
    split
    · exact table
    rename_i slot free
    have keeps {i n : Nat} : IsDisk (devs.put slot (some ⟨name, .part ⟨disk, e.number, e.first, e.last - e.first + 1, e.typeGuid,
        e.uuid, e.label, source⟩⟩)) i n ↔ IsDisk devs i n := isDisk_put_part (eq_none_of_free free)
    apply ih _ (keeps.mpr under)
    refine ⟨fun i n found => table.disks i n (keeps.mp found), fun i name p found => ?_⟩
    obtain ⟨_, ⟨⟩⟩ | ⟨_, found⟩ := Lib.Table.update_some found
    · exact ⟨⟨n, keeps.mpr under⟩, own⟩
    · obtain ⟨⟨n, under⟩, source⟩ := table.parts i name p found
      exact ⟨⟨n, keeps.mpr under⟩, source⟩

theorem isDisk_addParts {seen : List Nat} {entries : List Gpt.Entry} {m : Nat} :
    IsDisk (devs.addParts disk m seen entries) i n ↔ IsDisk devs i n := by
  unfold Devs.addParts
  split
  · split
    · exact (isDisk_addAll entries).trans isDisk_setScan
    · rfl
  · rfl

theorem Table.addParts (table : Table owner serial devs) {seen : List Nat} {m : Nat}
    (own : IsDisk devs disk m → ∀ o ∈ seen, o = m) (entries : List Gpt.Entry) :
    Table owner serial (devs.addParts disk m seen entries) := by
  unfold Devs.addParts
  split
  · split
    · rename_i found same
      subst same
      have under : IsDisk devs disk _ := ⟨_, _, eq_some_of_get found⟩
      have current := (table.disks disk _ under).2
      apply (table.setScan disk .done).addAll (isDisk_setScan.mpr under)
      intro o mem
      rcases List.mem_cons.mp mem with rfl | mem
      · exact current
      · exact (own under o mem).trans current
    · exact table
  · exact table

theorem Table.register (table : Table owner serial devs) (free : devs slot = none) (name : List Char) :
    Table (Function.update owner slot serial) (serial + 1) (devs.put slot (some ⟨name, .disk serial .pending⟩)) := by
  have kept {i n : Nat} (under : IsDisk devs i n) : i ≠ slot := by
    rintro rfl
    obtain ⟨name, scan, found⟩ := under
    rw [free] at found
    cases found
  refine ⟨fun i n found => ?_, fun i name p found => ?_⟩
  · obtain ⟨name, scan, found⟩ := found
    obtain ⟨rfl, ⟨⟩⟩ | ⟨here, found⟩ := Lib.Table.update_some found
    · exact ⟨Nat.lt_succ_self _, by rw [Function.update_self]⟩
    · obtain ⟨older, own⟩ := table.disks i n ⟨name, scan, found⟩
      exact ⟨Nat.lt_succ_of_lt older, by rw [Function.update_of_ne here]; exact own⟩
  obtain ⟨_, ⟨⟩⟩ | ⟨_, found⟩ := Lib.Table.update_some found
  obtain ⟨⟨n, under⟩, source⟩ := table.parts i name p found
  have other := kept under
  obtain ⟨name, scan, under⟩ := under
  exact ⟨⟨n, name, scan, (Function.update_of_ne other _ _).trans under⟩, by rwa [Function.update_of_ne other]⟩

namespace Request

variable {r : Request}

def Holds (owner : Nat → Nat) (r : Request) : Prop :=
  match r.stage with
  | .lookup _ => r.via = none
  | .parent p => r.via = some p ∧ r.lba + r.n ≤ p.sectors ∧ ∀ o ∈ p.source, o = owner p.disk
  | .target disk serial => serial = owner disk ∧ (r.touchAll (owner disk)).Confined
  | .look disk serial _ _ => serial = owner disk ∧ (r.touchAll (owner disk)).Confined
  | .keep disk serial _ _ _ => serial = owner disk ∧ (r.touchAll (owner disk)).Confined
  | .wrote disk => (r.touchAll (owner disk)).Confined

theorem Holds.congr {other : Nat → Nat} (holds : r.Holds owner)
    (same : ∀ disk, r.stage.slot = some disk → other disk = owner disk) :
    r.Holds other := by
  unfold Holds at *
  cases stage : r.stage with
  | lookup dev => simpa [stage] using holds
  | parent p => simpa [stage, same p.disk (by rw [stage]; rfl)] using holds
  | target disk serial | look disk serial whole chunk | keep disk serial whole first last | wrote disk =>
    simpa [stage, same disk (by rw [stage]; rfl)] using holds

theorem touch_confined {first last : Nat} (all : (r.touchAll serial).Confined) (before : first < r.last) :
    (r.touch serial first last).Confined := by
  intro p via
  obtain ⟨source, low, high⟩ := all p via
  refine ⟨source, ?_, ?_⟩
  · exact low.trans (le_max_right _ _)
  · simp only [touchAll, touch, Request.last, Gpt.divCeil, CHUNK_SECTORS, CHUNK, SECTOR] at *
    omega

end Request

variable {s s' : State}

def Kept.By (kept : Kept) (owner : Nat → Nat) : Prop := ∀ disk chunk o, kept disk chunk = some o → o = owner disk

structure Served (owner : Nat → Nat) (r : Request) (kept : Kept) (next : Option Request) (touches : List Touch) : Prop where
  kept : kept.By owner
  holds : ∀ q, next = some q → q.Holds owner
  stays : ∀ q disk, next = some q → r.stage.slot = some disk → q.stage.slot = some disk ∧ q.via = r.via
  confined : ∀ t ∈ touches, t.Confined
  serials : ∀ t ∈ touches, ∃ disk, r.stage.slot = some disk ∧ t.serial = owner disk

namespace Served

variable {r : Request} {kept : Kept}

theorem returned (own : kept.By owner) : Served owner r kept none [] :=
  ⟨own, nofun, nofun, nofun, nofun⟩

theorem goes (own : kept.By owner) {stage : Stage}
    (holds : (r.on stage).Holds owner) (stays : ∀ disk, r.stage.slot = some disk → stage.slot = some disk) :
    Served owner r kept (some (r.on stage)) [] where
  kept := own
  holds _ same := Option.some.inj same ▸ holds
  stays _ disk same slot := Option.some.inj same ▸ ⟨stays disk slot, rfl⟩
  confined := nofun
  serials := nofun

theorem touching {next : Option Request} {touches : List Touch} (served : Served owner r kept next [])
    (slot : r.stage.slot = some disk) (confined : ∀ t ∈ touches, t.Confined ∧ t.serial = owner disk) :
    Served owner r kept next touches where
  kept := served.kept
  holds := served.holds
  stays := served.stays
  confined t mem := (confined t mem).1
  serials t mem := ⟨disk, slot, (confined t mem).2⟩

end Served

section Advance

variable {whole first last chunk m : Nat}

/-- One stage of a request keeps what the cache and the request promise. -/
def Serves (owner : Nat → Nat) (s : State) (r : Request) (a : Answer) : Prop :=
  Served owner r (s.advance r a).1 (s.advance r a).2.1 (s.advance r a).2.2

theorem serves_lookup (table : Table owner serial s.devs) (own : s.kept.By owner) (holds : r.Holds owner)
    (stage : r.stage = .lookup disk) : Serves owner s r a := by
  simp only [Request.Holds, stage] at holds
  simp only [Serves, State.advance, stage]
  split
  · exact .returned own
  · rename_i m scan found
    have current := table.disks disk m ⟨_, _, eq_some_of_get found⟩
    refine .goes own ⟨current.2, ?_⟩ (by simp [stage, Stage.slot])
    intro p via
    cases holds.symm.trans via
  rename_i p found
  split
  · exact .returned own
  refine ⟨own, ?_, by simp [stage, Stage.slot], nofun, nofun⟩
  intro q same
  cases same
  exact ⟨rfl, by dsimp only [Request.n] at *; omega, (table.parts disk _ p (eq_some_of_get found)).2⟩

theorem serves_parent (table : Table owner serial s.devs) (own : s.kept.By owner) (holds : r.Holds owner)
    (stage : r.stage = .parent p) : Serves owner s r a := by
  simp only [Request.Holds, stage] at holds
  obtain ⟨via, inside, source⟩ := holds
  simp only [Serves, State.advance, stage]
  split
  · rename_i m scan found
    have current := table.disks p.disk m ⟨_, _, eq_some_of_get found⟩
    refine ⟨own, ?_, ?_, nofun, nofun⟩
    · intro q same
      cases same
      refine ⟨current.2, fun p' via' => ?_⟩
      cases via.symm.trans via'
      refine ⟨source, Nat.le_add_right _ _, ?_⟩
      dsimp only [Request.touchAll, Request.n] at *
      omega
    · intro q disk same slot
      cases same
      rw [stage] at slot
      exact ⟨slot, rfl⟩
  · exact .returned own

theorem serves_target (own : s.kept.By owner) (holds : r.Holds owner) (stage : r.stage = .target disk m) :
    Serves owner s r a := by
  simp only [Request.Holds, stage] at holds
  obtain ⟨rfl, confined⟩ := holds
  have slot : r.stage.slot = some disk := by rw [stage]; rfl
  have all : ∀ t ∈ [r.touchAll (owner disk)], t.Confined ∧ t.serial = owner disk := by
    intro t mem
    rw [List.mem_singleton.mp mem]
    exact ⟨confined, rfl⟩
  simp only [Serves, State.advance, stage]
  split
  · exact (Served.goes own (by exact confined) (by simp [stage, Stage.slot])).touching slot all
  · split
    · exact .goes own ⟨rfl, confined⟩ (by simp [stage, Stage.slot])
    · exact (Served.returned own).touching slot all

theorem serves_look (own : s.kept.By owner) (holds : r.Holds owner) (stage : r.stage = .look disk m whole chunk) :
    Serves owner s r a := by
  simp only [Request.Holds, stage] at holds
  obtain ⟨rfl, confined⟩ := holds
  have slot : r.stage.slot = some disk := by rw [stage]; rfl
  have same : ∀ d, r.stage.slot = some d → some disk = some d := by simp [stage, Stage.slot]
  simp only [Serves, State.advance, stage]
  split
  · exact .returned own
  rename_i before
  have piece (m last : Nat) (is : m = owner disk) : ∀ t ∈ [r.touch m chunk last], t.Confined ∧ t.serial = owner disk := by
    intro t mem
    rw [List.mem_singleton.mp mem, is]
    exact ⟨Request.touch_confined confined (Nat.not_le.mp before), rfl⟩
  split
  · rename_i o found
    exact (Served.goes own (by exact ⟨rfl, confined⟩) same).touching slot (piece o _ (own disk chunk o found))
  split
  · exact .returned own
  · split
    · exact (Served.goes own (by exact ⟨rfl, confined⟩) same).touching slot (piece _ _ rfl)
    · exact (Served.goes own (by exact ⟨rfl, confined⟩) same).touching slot (piece _ _ rfl)

theorem serves_keep (own : s.kept.By owner) (holds : r.Holds owner) (stage : r.stage = .keep disk m whole first last) :
    Serves owner s r a := by
  simp only [Request.Holds, stage] at holds
  obtain ⟨rfl, confined⟩ := holds
  have same : ∀ d, r.stage.slot = some d → some disk = some d := by simp [stage, Stage.slot]
  simp only [Serves, State.advance, stage]
  split
  · exact .goes own (by exact ⟨rfl, confined⟩) same
  refine .goes ?_ (by exact ⟨rfl, confined⟩) same
  intro d chunk o found
  dsimp only at found
  split at found
  · by_cases here : d = disk
    · subst here
      rw [Function.update_self] at found
      obtain ⟨_, ⟨⟩⟩ | ⟨_, found⟩ := Lib.Table.update_some found
      · rfl
      · exact own d chunk o found
    · rw [Function.update_of_ne here] at found
      exact own d chunk o found
  · exact own d chunk o found

theorem serves_wrote (own : s.kept.By owner) (holds : r.Holds owner) (stage : r.stage = .wrote disk) :
    Serves owner s r a := by
  simp only [Request.Holds, stage] at holds
  have slot : r.stage.slot = some disk := by rw [stage]; rfl
  simp only [Serves, State.advance, stage]
  apply (Served.returned own).touching slot
  intro t mem
  obtain ⟨chunk, below, made⟩ := List.mem_filterMap.mp mem
  obtain ⟨_, made⟩ := Option.ite_none_right_eq_some.mp made
  refine mapped made fun o found => ?_
  rw [own disk chunk o found]
  exact ⟨Request.touch_confined holds (List.mem_range.mp below), rfl⟩

theorem advance_serves (table : Table owner serial s.devs) (own : s.kept.By owner) (holds : r.Holds owner) (a : Answer) :
    Serves owner s r a := by
  cases stage : r.stage with
  | lookup dev => exact serves_lookup table own holds stage
  | parent p => exact serves_parent table own holds stage
  | target disk m => exact serves_target own holds stage
  | look disk m whole chunk => exact serves_look own holds stage
  | keep disk m whole first last => exact serves_keep own holds stage
  | wrote disk => exact serves_wrote own holds stage

end Advance

def Task.Reads (devs : Devs) (serial : Nat) : Task → Prop
  | .scan disk n _ seen reading => n < serial ∧ (IsDisk devs disk n → (∀ o ∈ seen, o = n) ∧
      ∀ r, reading = some r → r.via = none ∧ (r.stage = .lookup disk ∨ r.stage.slot = some disk))
  | _ => True

structure Inv (owner : Nat → Nat) (s : State) : Prop where
  table : Table owner s.serial s.devs
  kept : s.kept.By owner
  requests : ∀ task t r, s.tasks task = some t → t.request = some r → r.Holds owner
  scans : ∀ task t, s.tasks task = some t → t.Reads s.devs s.serial
  confined : ∀ t ∈ s.touched, t.Confined

theorem Task.Reads.mono {after : Devs} (reads : t.Reads devs serial) (older : ∀ i n, IsDisk after i n → IsDisk devs i n) :
    t.Reads after serial := by
  cases t with
  | scan disk n sectors seen reading => exact ⟨reads.1, fun under => reads.2 (older disk n under)⟩
  | _ => trivial

theorem Inv.move (inv : Inv owner s) {t : Option Task} (table : Table owner s.serial s'.devs) (serial : s'.serial = s.serial)
    (older : ∀ i n, IsDisk s'.devs i n → IsDisk s.devs i n) (kept : s'.kept.By owner)
    (tasks : s'.tasks = Function.update s.tasks task t)
    (own : ∀ t', t = some t' → t'.Reads s'.devs s.serial ∧ ∀ r, t'.request = some r → r.Holds owner)
    (confined : ∀ t ∈ s'.touched, t.Confined) : Inv owner s' := by
  rw [← serial] at table own
  refine ⟨table, kept, fun other t' r found request => ?_, fun other t' found => ?_, confined⟩
  · obtain ⟨_, is⟩ | ⟨_, before⟩ := Lib.Table.update_some (tasks ▸ found)
    · exact (own t' is).2 r request
    · exact inv.requests other t' r before request
  · obtain ⟨_, is⟩ | ⟨_, before⟩ := Lib.Table.update_some (tasks ▸ found)
    · exact (own t' is).1
    · exact serial ▸ (inv.scans other t' before).mono older

theorem Inv.setTask (inv : Inv owner s) {t : Option Task}
    (own : ∀ t', t = some t' → t'.Reads s.devs s.serial ∧ ∀ r, t'.request = some r → r.Holds owner) :
    Inv owner (s.setTask task t) :=
  inv.move inv.table rfl (fun _ _ => id) inv.kept rfl own inv.confined

theorem Inv.begin (inv : Inv owner s) (begun : s.begin task t = some s') (reads : t.Reads s.devs s.serial)
    (own : ∀ r, t.request = some r → r.Holds owner) : Inv owner s' := by
  exact guarded begun fun _ => inv.setTask fun t' is => Option.some.inj is ▸ ⟨reads, own⟩

theorem Inv.serve (inv : Inv owner s) {back : Option Request → List Touch → Option Task}
    (holds : r.Holds owner) (own : Serves owner s r a → ∀ t',
      back (s.advance r a).2.1 (s.advance r a).2.2 = some t' → t'.Reads s.devs s.serial ∧ ∀ q, t'.request = some q →
        q.Holds owner) :
    Inv owner (s.serve task r a back) := by
  have served := advance_serves inv.table inv.kept holds a
  refine inv.move inv.table rfl (fun _ _ => id) served.kept rfl (own served) fun t mem => ?_
  rcases List.mem_append.mp mem with new | old
  · exact served.confined t new
  · exact inv.confined t old

theorem advance_lookup {q : Request} (stage : r.stage = .lookup disk) (under : IsDisk s.devs disk n)
    (next : (s.advance r a).2.1 = some q) : q.via = r.via ∧ q.stage.slot = some disk := by
  obtain ⟨name, scan, found⟩ := under
  unfold State.advance at next
  simp only [stage, Devs.get, found] at next
  split at next
  · cases next
  · rename_i here
    split at here
    all_goals cases here
    cases next
    exact ⟨rfl, rfl⟩
  · rename_i here
    split at here
    all_goals cases here

section Next

variable {sectors : Option (Option Nat)} {seen disks : List Nat} {reading : Option Request}

theorem Inv.next_read (inv : Inv owner s) {capacity : Option Nat}
    (found : s.tasks task = some (.scan disk n (some capacity) seen (some r))) :
    Inv owner (s.serve task r a fun q touches =>
      some (.scan disk n (some capacity) (touches.map Touch.serial ++ seen) q)) := by
  obtain ⟨older, read⟩ := inv.scans task _ found
  apply inv.serve (inv.requests task _ r found rfl)
  intro served t' is
  cases is
  refine ⟨⟨older, fun under => ?_⟩, fun q' same => served.holds q' same⟩
  obtain ⟨own, direct⟩ := read under
  obtain ⟨via, direct⟩ := direct r rfl
  have current := (inv.table.disks disk n under).2
  constructor
  · intro o mem
    rcases List.mem_append.mp mem with new | old
    · obtain ⟨t, touched, rfl⟩ := List.mem_map.mp new
      obtain ⟨disk', slot, same⟩ := served.serials t touched
      rcases direct with stage | stays
      · rw [stage] at slot
        cases slot
      · cases stays.symm.trans slot
        exact same.trans current.symm
    · exact own o old
  · intro q next
    rcases direct with stage | stays
    · obtain ⟨same, slot⟩ := advance_lookup stage under next
      exact ⟨same.trans via, .inr slot⟩
    · obtain ⟨slot, same⟩ := served.stays q disk next stays
      exact ⟨same.trans via, .inr slot⟩

theorem Inv.next_scan (inv : Inv owner s) (found : s.tasks task = some (.scan disk n sectors seen reading))
    (stepped : s.next task a (.scan disk n sectors seen reading) = some s') : Inv owner s' := by
  obtain ⟨older, read⟩ := inv.scans task _ found
  cases sectors with
  | none =>
    cases stepped
    apply inv.setTask
    rintro t' ⟨⟩
    exact ⟨⟨older, fun under => ⟨(read under).1, nofun⟩⟩, nofun⟩
  | some capacity =>
    cases reading with
    | some r =>
      cases stepped
      exact inv.next_read found
    | none =>
      have adds (entries : List Gpt.Entry) :
          Inv owner { s.setTask task none with devs := s.devs.addParts disk n seen entries } :=
        inv.move (inv.table.addParts (fun under => (read under).1) entries) rfl
          (fun _ _ => isDisk_addParts.mp) inv.kept rfl nofun inv.confined
      simp only [State.next] at stepped
      split at stepped
      · cases stepped
        apply inv.setTask
        rintro t' ⟨⟩
        refine ⟨⟨older, fun under => ⟨(read under).1, ?_⟩⟩, ?_⟩
        · rintro r ⟨⟩
          exact ⟨rfl, .inl rfl⟩
        · rintro r ⟨⟩
          exact rfl
      · split at stepped
        · cases stepped
          exact adds []
        split at stepped
        · cases stepped
          exact adds _
        · cases stepped

theorem Inv.next_leave (inv : Inv owner s) (stepped : s.next task a (.leave disk) = some s') : Inv owner s' := by
  simp only [State.next] at stepped
  split at stepped
  · cases stepped
    refine inv.move (inv.table.leave disk) rfl (fun _ _ => isDisk_of_leave) inv.kept rfl ?_ inv.confined
    rintro t' ⟨⟩
    exact ⟨trivial, nofun⟩
  · cases stepped
    exact inv.move (inv.table.dropParts disk) rfl (fun _ _ => isDisk_dropParts.mp) inv.kept rfl nofun inv.confined

theorem Inv.next_forget (inv : Inv owner s) (stepped : s.next task a (.forget disk) = some s') : Inv owner s' := by
  cases stepped
  refine inv.move inv.table rfl (fun _ _ => id) ?_ rfl nofun inv.confined
  intro d chunk o here
  change Function.update s.kept disk (fun _ => none) d chunk = some o at here
  by_cases is : d = disk
  · rw [is, Function.update_self] at here
    cases here
  · rw [Function.update_of_ne is] at here
    exact inv.kept d chunk o here

theorem Inv.next_rescan (inv : Inv owner s) (stepped : s.next task a (.rescan disks) = some s') : Inv owner s' := by
  have rests (rest : List Nat) (t' : Task) (is : some (Task.rescan rest) = some t') (devs : Devs) :
      t'.Reads devs s.serial ∧ ∀ r, t'.request = some r → r.Holds owner := by
    cases is
    exact ⟨trivial, nofun⟩
  cases disks with
  | nil =>
    cases stepped
    exact inv.setTask nofun
  | cons disk rest =>
    simp only [State.next] at stepped
    split at stepped
    · cases stepped
      exact inv.setTask fun t' is => rests rest t' is _
    · cases stepped
      exact inv.move ((inv.table.dropParts disk).setScan disk .pending) rfl
        (fun _ _ found => isDisk_dropParts.mp (isDisk_setScan.mp found)) inv.kept rfl
          (fun t' is => rests rest t' is _) inv.confined

theorem Inv.next (inv : Inv owner s) (found : s.tasks task = some t)
    (stepped : s.next task a t = some s') : Inv owner s' := by
  cases t with
  | io r =>
    cases stepped
    apply inv.serve (inv.requests task _ r found rfl)
    intro served t' is
    exact mapped is fun q same => ⟨trivial, fun q' is => served.holds q' (same.trans is)⟩
  | scan disk n sectors seen reading => exact inv.next_scan found stepped
  | leave disk => exact inv.next_leave stepped
  | forget disk => exact inv.next_forget stepped
  | rescan disks => exact inv.next_rescan stepped

end Next

theorem place_free {settled : List Char} (placed : devs.place name = some (slot, settled)) : devs slot = none := by
  obtain ⟨name, _, placed⟩ := Option.bind_eq_some_iff.mp placed
  obtain ⟨_, placed⟩ := Option.ite_none_left_eq_some.mp placed
  obtain ⟨_, placed⟩ := Option.ite_none_left_eq_some.mp placed
  obtain ⟨slot, free, same⟩ := Option.map_eq_some_iff.mp placed
  cases same
  exact eq_none_of_free free

theorem pending_isDisk (pending : devs.pending = some (disk, n)) : IsDisk devs disk n := by
  obtain ⟨i, _, found⟩ := List.exists_of_findSome?_eq_some pending
  split at found
  · cases found
    exact ⟨_, _, ‹_›⟩
  · cases found

theorem Inv.register (inv : Inv owner s) (free : s.devs slot = none) (quiet : s.Quiet slot) (name : List Char) :
    Inv (Function.update owner slot s.serial)
      { s with devs := s.devs.put slot (some ⟨name, .disk s.serial .pending⟩), serial := s.serial + 1 } where
  table := inv.table.register free name
  kept disk chunk o found := by
    have other : disk ≠ slot := by
      rintro rfl
      cases (quiet.2 chunk).symm.trans found
    rw [Function.update_of_ne other]
    exact inv.kept disk chunk o found
  requests task t r found request := by
    apply (inv.requests task t r found request).congr
    intro disk at_
    apply Function.update_of_ne
    rintro rfl
    exact quiet.1 task t r found request at_
  scans task t found := by
    have reads := inv.scans task t found
    cases t with
    | scan disk n sectors seen reading =>
      refine ⟨Nat.lt_succ_of_lt reads.1, fun under => reads.2 ?_⟩
      obtain ⟨name, scan, under⟩ := under
      obtain ⟨_, ⟨⟩⟩ | ⟨_, under⟩ := Lib.Table.update_some under
      · exact absurd reads.1 (Nat.lt_irrefl _)
      · exact ⟨name, scan, under⟩
    | _ => trivial
  confined := inv.confined

theorem Inv.step (inv : Inv owner s) {e : Event} (keeps : KeepsIds s e) (stepped : s.step e = some s') :
    ∃ owner', Inv owner' s' := by
  cases e with
  | register name =>
    simp only [State.step] at stepped
    split at stepped
    · cases stepped
      exact ⟨owner, inv⟩
    · rename_i slot settled placed
      cases stepped
      exact ⟨_, inv.register (place_free placed) (keeps slot settled placed) settled⟩
  | scan task =>
    simp only [State.step] at stepped
    split at stepped
    · cases stepped
      exact ⟨owner, inv⟩
    rename_i disk n pending
    have claimed : Inv owner { s with devs := s.devs.setScan disk .running } :=
      ⟨inv.table.setScan disk .running, inv.kept, inv.requests,
        fun task t found => (inv.scans task t found).mono fun _ _ => isDisk_setScan.mp, inv.confined⟩
    have older := (inv.table.disks disk n (pending_isDisk pending)).1
    exact ⟨owner, claimed.begin stepped ⟨older, fun _ => ⟨nofun, nofun⟩⟩ nofun⟩
  | unregister task disk busy =>
    simp only [State.step] at stepped
    split at stepped
    · cases stepped
      exact ⟨owner, inv⟩
    · exact ⟨owner, inv.begin stepped trivial nofun⟩
  | rescan task => exact ⟨owner, inv.begin stepped trivial nofun⟩
  | io task write dev lba len =>
    simp only [State.step] at stepped
    split at stepped
    · cases stepped
      exact ⟨owner, inv⟩
    · refine ⟨owner, inv.begin stepped trivial ?_⟩
      rintro r ⟨⟩
      exact rfl
  | next task a =>
    obtain ⟨t, found, stepped⟩ := Option.bind_eq_some_iff.mp stepped
    exact ⟨owner, inv.next found stepped⟩
  | evict gone =>
    cases stepped
    refine ⟨owner, inv.table, fun disk chunk o found => ?_, inv.requests, inv.scans, inv.confined⟩
    exact inv.kept disk chunk o (Option.ite_none_left_eq_some.mp found).2

def Sound (s : State) : Prop := ∃ owner, Inv owner s

theorem reach_sound_registry (reachable : system.Reach KeepsIds s) : Sound s := by
  refine reachable.invariant ?_ ?_
  · rintro s ⟨devs, kept, tasks, touched⟩
    refine ⟨fun _ => 0, ⟨?_, ?_⟩, ?_, ?_, ?_, ?_⟩
    · rintro i n ⟨name, scan, found⟩
      cases (devs i).symm.trans found
    · intro i name p found
      cases (devs i).symm.trans found
    · intro disk chunk o found
      cases (kept disk chunk).symm.trans found
    · intro task t r found
      cases (tasks task).symm.trans found
    · intro task t found
      cases (tasks task).symm.trans found
    · rw [touched]
      exact nofun
  · rintro s e s' ⟨owner, inv⟩ keeps stepped
    exact inv.step keeps stepped

theorem tables_safe_confining (sectors : Nat) (fits : sectors < 2 ^ 64) (s : State) :
    ((∀ sources, ∃ entries, Gpt.read sources sectors = .ok entries ∧ ∀ e ∈ entries, Gpt.Inside sources sectors e) ↔
    Gpt.Short sectors) ∧
      (system.Reach KeepsIds s → ∀ t ∈ s.touched, t.Confined) := by
  refine ⟨⟨fun safe => ?_, fun short sources => Gpt.returns_read sources short⟩, fun reachable => ?_⟩
  · by_contra long
    obtain ⟨entries, read, _⟩ := safe fun _ => .disk sectors Gpt.marked
    cases read.symm.trans (Gpt.read_long fits long)
  · obtain ⟨owner, inv⟩ := reach_sound_registry reachable
    exact inv.confined

def fields (off : Nat) : List (Nat × Nat × Nat) → Byte
  | [] => 0
  | (at_, n, value) :: rest => if at_ ≤ off ∧ off < at_ + n then BitVec.ofNat 8 (value / 256 ^ (off - at_)) else fields off rest

def image (i : Nat) : Byte :=
  match i / SECTOR with
  | 0 => fields i [(450, 1, 0xEE), (510, 2, 0xAA55)]
  | 1 => fields (i % SECTOR) [(0, 8, 0x5452415020494645), (12, 4, 92), (16, 4, 3408417341), (24, 8, 1), (40, 8, 34),
    (48, 8, 90), (72, 8, 2),
      (80, 4, 1), (84, 4, 128), (88, 4, 2372092686)]
  | 2 => fields (i % SECTOR) [(0, 16, 1), (32, 8, 40), (40, 8, 49)]
  | _ => 0

def answer : Answer := ⟨true, 100, false, false, none, fun _ => .disk 100 image⟩

def blank : State := ⟨fun _ => none, 0, fun _ _ => none, fun _ => none, []⟩

theorem blank_start : system.start blank := ⟨fun _ => rfl, fun _ _ => rfl, fun _ => rfl, rfl⟩

def lookedUp : List Event := [.scan 0, .next 0 answer, .next 0 answer, .io 1 true 1 0 512, .next 1 answer]

def wrote : List Event := [.next 1 answer, .next 1 answer]

def replaced : List Event := [.unregister 2 0 false, .next 2 answer, .register "sdb".toList]

def summary (s : State) : List (Nat × Nat × Nat × Option (List Nat)) :=
  s.touched.map fun t => (t.serial, t.lba, t.n, t.via.map Part.source)

theorem wrote_touches :
    (system.run blank ([.register "sda".toList] ++ (lookedUp ++ wrote))).map summary = some [(0, 40, 1, some [0])] := by
  decide +kernel

theorem tables_safe_confining_write : (∀ sources, ∃ entries, Gpt.read sources 100 = .ok entries ∧ ∀ e ∈ entries,
    Gpt.Inside sources 100 e) ∧
    ∃ s, system.Reach KeepsIds s ∧ summary s = [(0, 40, 1, some [0])] ∧ ∀ t ∈ s.touched, t.Confined := by
  have short : Gpt.Short 100 := by
    unfold Gpt.Short
    decide
  refine ⟨(tables_safe_confining 100 (by decide) blank).1.mpr short, ?_⟩
  obtain ⟨s, ran, touches⟩ := Option.map_eq_some_iff.mp wrote_touches
  obtain ⟨first, stepped, ran⟩ := Option.bind_eq_some_iff.mp ran
  have quiet : KeepsIds blank (.register "sda".toList) := fun _ _ _ => ⟨fun _ _ _ found => (by cases found), fun _ => rfl⟩
  have others : ∀ e ∈ lookedUp ++ wrote, ∀ s, KeepsIds s e := by
    simp [lookedUp, wrote, KeepsIds]
  have reached : system.Reach KeepsIds s := (System.Reach.next (.start blank_start) quiet stepped).runAlways _ others ran
  exact ⟨s, reached, touches, (tables_safe_confining 100 (by decide) s).2 reached⟩

theorem replaced_touches :
    (system.run blank ([.register "sda".toList] ++ lookedUp ++ replaced ++ wrote)).map summary = some [(1, 40, 1, some [0])] := by
  decide +kernel

/-- A disk that is too long, and a write to a partition of `sda` that goes to `sdb`. -/
theorem partition_crosses_disks :
    (¬∀ sectors < 2 ^ 64, ∀ sources, ∃ entries, Gpt.read sources sectors = .ok entries ∧ ∀ e ∈ entries,
    Gpt.Inside sources sectors e) ∧
      ¬∀ s, system.Reach System.Any s → ∀ t ∈ s.touched, t.Confined := by
  constructor
  · intro safe
    obtain ⟨entries, read, _⟩ := safe (2 ^ 55) (by decide) fun _ => .disk (2 ^ 55) Gpt.marked
    have long : ¬Gpt.Short (2 ^ 55) := by
      unfold Gpt.Short
      omega
    cases read.symm.trans (Gpt.read_long (by decide) long)
  intro confined
  obtain ⟨s, ran, touches⟩ := Option.map_eq_some_iff.mp replaced_touches
  obtain ⟨t, mem, same⟩ := List.mem_map.mp (touches ▸ List.mem_singleton_self _)
  simp only [Prod.mk.injEq] at same
  obtain ⟨p, via, source⟩ := Option.map_eq_some_iff.mp same.2.2.2
  have first := (confined s (System.Reach.run (.start blank_start) _ ran) t mem p via).1 0
    (by rw [source]; exact List.mem_singleton_self _)
  rw [same.1] at first
  cases first

end Myos.Blk.Registry
