import Myos.Blk.CacheRead

namespace Myos.Blk
open Lib

theorem Span.chunk_of_covers {s : Span} {chunk off : Nat} (whole : s.len % SECTOR = 0) (short : off < CHUNK)
    (covered : s.covers (chunk * CHUNK + off) = true) : s.first ≤ chunk ∧ chunk < s.last := by
  have covered := of_decide_eq_true covered
  simp only [Span.first, Span.last, CHUNK_SECTORS, CHUNK, SECTOR] at *
  omega

namespace World

variable {w w' : World} {op : Nat} {s : Span} {buf : Nat → Byte}

variable {ok : Bool} {mask : Nat → Bool}

theorem store_written {serial at_ : Nat}
    (outside : ¬ (serial = s.serial ∧ s.covers at_ = true)) :
    (w.written s buf ok mask).store serial at_ = w.store serial at_ := by
  by_cases same : serial = s.serial
  · subst same
    have missed : s.covers at_ = false := Bool.eq_false_iff.mpr fun covered => outside ⟨rfl, covered⟩
    simp [World.written, setStore, missed]
  · simp [World.written, setStore, Function.update_of_ne same]

theorem not_crossed {other : Nat} {t : Span} {buf : Nat → Byte} (apart : w.crossed s = false)
    (found : w.ops.lookup other = some (.write t buf (some ok))) (same : t.disk = s.disk) {at_ : Nat}
    (covered : t.covers at_ = true) : s.covers at_ = false := by
  have missing := Table.count_eq_zero_iff.mp (Nat.eq_zero_of_not_pos (of_decide_eq_false apart)) other _ found
  simp only [same, BEq.rfl, Bool.true_and, decide_eq_false_iff_not] at missing
  have covered := of_decide_eq_true covered
  exact decide_eq_false fun inside => missing (by omega)

theorem Inv.written (inv : w.Inv) (found : w.ops.lookup op = some (.write s buf none))
    (apart : w.crossed s = false) : ((w.written s buf ok mask).put op (.write s buf (some ok))).Inv := by
  obtain ⟨unit, whole, _⟩ := inv.ops op _ found
  have here : ((w.written s buf ok mask).put op (.write s buf (some ok))).ops.lookup op =
      some (.write s buf (some ok)) := AList.lookup_insert _
  have sent {disk at_ : Nat} (before : w.SentAt disk at_ ∨ disk = s.disk ∧ s.covers at_ = true) :
      ((w.written s buf ok mask).put op (.write s buf (some ok))).SentAt disk at_ := by
    rcases before with ⟨writer, t, buf', ok', foundWriter, covered⟩ | ⟨rfl, covered⟩
    · have differs : writer ≠ op := fun same => by cases (same ▸ foundWriter).symm.trans found
      exact ⟨writer, t, buf', ok', (AList.lookup_insert_ne differs).trans foundWriter, covered⟩
    · exact ⟨op, s, buf, ok, here, rfl, covered⟩
  -- bytes that no write is sent to are those from before
  have stays {disk serial at_ : Nat} (named : w.unit disk = some serial)
      (idle : ¬ ((w.written s buf ok mask).put op (.write s buf (some ok))).SentAt disk at_) :
      ¬ w.SentAt disk at_ ∧ (w.written s buf ok mask).store serial at_ = w.store serial at_ := by
    refine ⟨fun before => idle (sent (.inl before)), store_written fun hit => idle (sent (.inr ⟨?_, hit.2⟩))⟩
    exact inv.apart disk s.disk serial named (hit.1 ▸ unit)
  refine ⟨inv.staying, inv.fresh, inv.apart, ?_, ?_, ?_⟩
  · intro e member
    obtain ⟨serial, named, right⟩ := inv.entries e member
    refine ⟨serial, named, fun off short idle => ?_⟩
    obtain ⟨before, same⟩ := stays named idle
    exact (right off short before).trans same.symm
  · intro other o foundOther
    obtain ⟨_, rfl⟩ | ⟨_, foundOther⟩ := Table.lookup_insert_some foundOther
    · refine ⟨unit, whole, fun success at_ covered => ?_⟩
      cases success
      simp [World.put, World.written, setStore, covered]
    have before := inv.ops other o foundOther
    cases o with
    | read t whole buf' held stage =>
      refine ⟨before.1, before.2.1, ?_⟩
      have fresh := before.2.2
      cases stage with
      | look | tail | run | count | direct | done => trivial
      | request => exact fresh
      | size r chunk | keep r chunk spare =>
        refine ⟨fresh.1, fun current at_ idle => ?_⟩
        obtain ⟨unsent, same⟩ := stays before.1 idle
        exact (fresh.2 current at_ unsent).trans same.symm
    | write t buf' sent' =>
      refine ⟨before.1, before.2.1, fun success at_ covered => ?_⟩
      have missed : ¬ (t.serial = s.serial ∧ s.covers at_ = true) := by
        rintro ⟨same, hit⟩
        have disk := inv.apart t.disk s.disk t.serial before.1 (same ▸ unit)
        subst success
        rw [not_crossed apart foundOther disk covered] at hit
        cases hit
      exact (store_written missed).trans (before.2.2 success at_ covered)
  · intro first second s₁ s₂ buf₁ buf₂ ok₁ ok₂ found₁ found₂ disk at_ covered₁ covered₂
    obtain ⟨rfl, ⟨⟩⟩ | ⟨_, before₁⟩ := Table.lookup_insert_some found₁
    · obtain ⟨rfl, _⟩ | ⟨_, before₂⟩ := Table.lookup_insert_some found₂
      · rfl
      · rw [not_crossed apart before₂ disk.symm covered₂] at covered₁
        cases covered₁
    · obtain ⟨rfl, ⟨⟩⟩ | ⟨_, before₂⟩ := Table.lookup_insert_some found₂
      · rw [not_crossed apart before₁ disk covered₁] at covered₂
        cases covered₂
      · exact inv.alone first second s₁ s₂ buf₁ buf₂ ok₁ ok₂ before₁ before₂ disk at_ covered₁ covered₂

theorem Inv.wrote (inv : w.Inv) (found : w.ops.lookup op = some (.write s buf (some ok)))
    (unkept : ok = false → ∀ e ∈ w.entries, ¬ (e.disk = s.disk ∧ s.first ≤ e.chunk ∧ e.chunk < s.last)) :
    ((w.wrote s buf).gone op).Inv := by
  obtain ⟨unit, whole, stored⟩ := inv.ops op _ found
  refine ⟨inv.staying, inv.fresh, inv.apart, ?_, ?_, ?_⟩
  · intro e' member
    obtain ⟨e, before, rfl⟩ := List.mem_map.mp member
    obtain ⟨serial, named, right⟩ := inv.entries e before
    have key : (e.take s buf).disk = e.disk ∧ (e.take s buf).chunk = e.chunk := by
      unfold Entry.take
      split <;> exact ⟨rfl, rfl⟩
    refine ⟨serial, by rw [key.1]; exact named, fun off short idle => ?_⟩
    rw [key.1, key.2] at idle
    rw [key.2]
    by_cases hit : e.disk = s.disk ∧ s.covers (e.chunk * CHUNK + off) = true
    · -- the write's own bytes: the device has them, or the write failed and kept nothing
      have inRange := Span.chunk_of_covers whole short hit.2
      have success : ok = true := by
        by_contra failed
        exact unkept (Bool.eq_false_iff.mpr failed) e before ⟨hit.1, inRange⟩
      rw [hit.1] at named
      cases unit.symm.trans named
      have new : (e.take s buf).bytes off = buf (e.chunk * CHUNK + off - s.lba * SECTOR) := by
        unfold Entry.take
        rw [if_pos ⟨hit.1, inRange⟩]
        exact if_pos hit.2
      exact new.trans (stored (congrArg some success) _ hit.2).symm
    · have old : (e.take s buf).bytes off = e.bytes off := by
        unfold Entry.take
        split
        · rename_i inRange
          exact if_neg fun covered => hit ⟨inRange.1, covered⟩
        · rfl
      refine old.trans (right off short ?_)
      rintro ⟨writer, t, buf', ok', foundWriter, disk, covered⟩
      refine idle ⟨writer, t, buf', ok', (AList.lookup_erase_ne fun same => ?_).trans foundWriter, disk, covered⟩
      subst same
      cases found.symm.trans foundWriter
      exact hit ⟨disk.symm, covered⟩
  · intro other o foundOther
    exact Fits.later (inv.ops other o (Table.lookup_erase_some foundOther).2) rfl rfl rfl
  · intro first second s₁ s₂ buf₁ buf₂ ok₁ ok₂ found₁ found₂
    exact inv.alone first second s₁ s₂ buf₁ buf₂ ok₁ ok₂ (Table.lookup_erase_some found₁).2
      (Table.lookup_erase_some found₂).2

theorem Inv.next (inv : w.Inv) (met : w.meets (.next op ok mask) = true)
    (stepped : w.next op ok mask = some w') : w'.Inv := by
  unfold World.next at stepped
  cases found : w.ops.lookup op with
  | none =>
    rw [found] at stepped
    cases stepped
  | some o =>
    rw [found] at stepped
    cases o with
    | read s whole buf held stage => exact inv.nextRead found stepped
    | write s buf sent =>
      cases stepped
      simp only [meets, found] at met
      cases sent with
      | none => exact inv.written found (by simpa using met)
      | some success =>
        refine inv.wrote found fun failed e member kept => ?_
        subst failed
        have missing := List.all_eq_true.mp met e member
        simp [kept] at missing

theorem onDisk_unit {dev lba len : Nat} (found : w.onDisk dev lba len = some s) :
    w.unit s.disk = some s.serial ∧ s.len = len := by
  unfold onDisk at found
  split at found
  · cases found
  · rename_i serial here
    cases found
    exact ⟨unit_of_disk here, rfl⟩
  split at found
  · cases found
  split at found
  · rename_i serial here
    cases found
    exact ⟨unit_of_disk here, rfl⟩
  · cases found

theorem Inv.ops_disk (inv : w.Inv) {o : Op} (found : w.ops.lookup op = some o) :
    w.unit o.span.disk = some o.span.serial := by
  have fits := inv.ops op o found
  cases o with
  | read => exact fits.1
  | write => exact fits.1

theorem Inv.setDevs (inv : w.Inv) {devs : Nat → Option Dev} {leaving : Nat → Option Nat}
    (staying : ∀ disk serial, devs disk = some (.disk serial) → leaving disk = none)
    (same : ∀ disk, World.unit { w with devs := devs, leaving := leaving } disk = w.unit disk) :
    World.Inv { w with devs := devs, leaving := leaving } where
  staying := staying
  fresh := fun disk serial named => inv.fresh disk serial ((same disk).symm.trans named)
  apart := fun disk other serial first second =>
    inv.apart disk other serial ((same disk).symm.trans first) ((same other).symm.trans second)
  entries := by
    intro e member
    obtain ⟨serial, named, right⟩ := inv.entries e member
    exact ⟨serial, (same e.disk).trans named, right⟩
  ops := fun other o found => Fits.mono (inv.ops other o found) (same _) rfl le_rfl fun _ _ sent => sent
  alone := inv.alone

theorem unit_of_not_disk {disk : Nat} (other : ∀ serial, w.devs disk ≠ some (.disk serial)) :
    w.unit disk = w.leaving disk := by
  unfold unit
  split
  · exact absurd ‹_› (other _)
  · rfl

theorem Inv.setPart (inv : w.Inv) {slot : Nat} {dev : Option Dev} (old : ∀ serial, w.devs slot ≠ some (.disk serial))
    (new : ∀ serial, dev ≠ some (.disk serial)) : World.Inv { w with devs := Function.update w.devs slot dev } := by
  refine inv.setDevs (fun d serial found => ?_) fun d => ?_
  · obtain ⟨_, is⟩ | ⟨_, before⟩ := Table.update_some found
    · exact absurd is (new serial)
    · exact inv.staying d serial before
  by_cases same : d = slot
  · subst same
    rw [unit_of_not_disk old]
    refine unit_of_not_disk fun serial found => ?_
    dsimp only at found
    rw [Function.update_self] at found
    exact new serial found
  · simp only [unit, Function.update_of_ne same]

theorem Inv.register (inv : w.Inv) {slot : Nat} {data : Nat → Byte} (free : w.devs slot = none)
    (forgotten : w.leaving slot = none) :
    World.Inv { w.setStore w.serial data with
      devs := Function.update w.devs slot (some (.disk w.serial)), serial := w.serial + 1 } := by
  have unused : w.unit slot = none := by
    rw [unit, free]
    exact forgotten
  have other {disk : Nat} (differs : disk ≠ slot) :
      World.unit { w.setStore w.serial data with
        devs := Function.update w.devs slot (some (.disk w.serial)), serial := w.serial + 1 } disk = w.unit disk := by
    simp only [unit, Function.update_of_ne differs]
    rfl
  have named {disk serial : Nat} (found : World.unit { w.setStore w.serial data with
        devs := Function.update w.devs slot (some (.disk w.serial)), serial := w.serial + 1 } disk = some serial) :
      disk = slot ∧ serial = w.serial ∨ w.unit disk = some serial := by
    by_cases same : disk = slot
    · subst same
      simp only [unit, Function.update_self] at found
      exact .inl ⟨rfl, (Option.some.inj found).symm⟩
    · exact .inr ((other same).symm.trans found)
  have old {serial : Nat} (below : serial < w.serial) : (w.setStore w.serial data).store serial = w.store serial :=
    Function.update_of_ne (Nat.ne_of_lt below) _ _
  have notSlot {disk serial : Nat} (named : w.unit disk = some serial) : disk ≠ slot := fun same => by
    cases (same ▸ unused).symm.trans named
  refine ⟨?_, ?_, ?_, ?_, ?_, inv.alone⟩
  · intro disk serial found
    by_cases same : disk = slot
    · rw [same]
      exact forgotten
    · exact inv.staying disk serial ((Function.update_of_ne same _ _).symm.trans found)
  · intro disk serial found
    obtain ⟨_, rfl⟩ | before := named found
    · exact Nat.lt_succ_self _
    · exact Nat.lt_succ_of_lt (inv.fresh disk serial before)
  · intro disk disk' serial found found'
    obtain ⟨rfl, rfl⟩ | before := named found
    · obtain ⟨rfl, _⟩ | before' := named found'
      · rfl
      · exact absurd (inv.fresh disk' _ before') (Nat.lt_irrefl _)
    · obtain ⟨_, rfl⟩ | before' := named found'
      · exact absurd (inv.fresh disk _ before) (Nat.lt_irrefl _)
      · exact inv.apart disk disk' serial before before'
  · intro e member
    obtain ⟨serial, named, right⟩ := inv.entries e member
    refine ⟨serial, (other (notSlot named)).trans named, fun off short idle => ?_⟩
    exact (right off short idle).trans (congrFun (old (inv.fresh _ _ named)) _).symm
  · intro op o found
    have named := inv.ops_disk found
    exact Fits.mono (inv.ops op o found) (other (notSlot named)) (old (inv.fresh _ _ named)) le_rfl
      fun _ _ sent => sent

theorem Inv.forget (inv : w.Inv) {disk : Nat} (leaving : (w.leaving disk).isSome = true)
    (idle : w.ops.count (fun _ o => o.span.disk == disk) = 0) :
    World.Inv { w with
      leaving := Function.update w.leaving disk none
      writes := w.writes + 1
      entries := w.entries.filter fun e => e.disk != disk
      hand := 0 } := by
  have other {disk' : Nat} (differs : disk' ≠ disk) :
      World.unit { w with leaving := Function.update w.leaving disk none } disk' = w.unit disk' := by
    simp only [unit, Function.update_of_ne differs]
  have named {disk' serial : Nat}
      (found : World.unit { w with leaving := Function.update w.leaving disk none } disk' = some serial) :
      w.unit disk' = some serial := by
    by_cases same : disk' = disk
    · subst same
      simp only [unit, Function.update_self] at found
      split at found
      · rename_i serial' here
        rw [inv.staying disk' serial' here] at leaving
        cases leaving
      · cases found
    · exact (other same).symm.trans found
  refine ⟨?_, fun d serial found => inv.fresh d serial (named found),
    fun d d' serial found found' => inv.apart d d' serial (named found) (named found'), ?_, ?_, inv.alone⟩
  · intro d serial found
    by_cases same : d = disk
    · subst same
      exact Function.update_self ..
    · exact (Function.update_of_ne same _ _).trans (inv.staying d serial found)
  · intro e member
    obtain ⟨before, kept⟩ := List.mem_filter.mp member
    obtain ⟨serial, found, right⟩ := inv.entries e before
    exact ⟨serial, (other (bne_iff_ne.mp kept)).trans found, right⟩
  · intro op o found
    have differs : o.span.disk ≠ disk := beq_eq_false_iff_ne.mp (Table.count_eq_zero_iff.mp idle op o found)
    exact Fits.later (inv.ops op o found) (other differs) rfl rfl

theorem Inv.step (inv : w.Inv) {event : Event} (met : w.meets event = true) (stepped : w.step event = some w') :
    w'.Inv := by
  cases event with
  | register slot data =>
    exact guarded stepped fun free => inv.register free (Option.isNone_iff_eq_none.mp met)
  | addPart slot disk first sectors =>
    exact guarded stepped fun free => inv.setPart (fun _ found => by cases free.symm.trans found) nofun
  | dropPart slot =>
    simp only [World.step] at stepped
    split at stepped <;> cases stepped
    rename_i disk first sectors here
    exact inv.setPart (fun _ found => by cases here.symm.trans found) nofun
  | unregister disk =>
    simp only [World.step] at stepped
    split at stepped <;> cases stepped
    rename_i serial here
    refine inv.setDevs (fun d other found => ?_) fun d => ?_
    · split at found
      · cases found
      · rename_i stays
        rw [Function.update_of_ne fun same => stays (.inl same)]
        exact inv.staying d other found
    by_cases same : d = disk
    · subst same
      simp only [unit, Function.update_self, here, true_or, if_true]
    simp only [unit, same, false_or, Function.update_of_ne same]
    cases found : w.devs d with
    | none => simp
    | some dev =>
      cases dev with
      | disk other => simp [partOf]
      | part parent first sectors => by_cases mine : parent = disk <;> simp [partOf, mine]
  | forget disk =>
    exact guarded stepped fun leaving => inv.forget leaving (beq_iff_eq.mp met)
  | release =>
    cases stepped
    refine ⟨inv.staying, inv.fresh, inv.apart, fun _ member => (by cases member), fun op o found => ?_, inv.alone⟩
    exact Fits.later (inv.ops op o found) rfl rfl rfl
  | read op dev lba len sectors =>
    obtain ⟨guard, made⟩ := Option.ite_none_right_eq_some.mp stepped
    refine mapped made fun s resolved => ?_
    have free := Option.isNone_iff_eq_none.mp guard.1
    refine inv.put ⟨(onDisk_unit resolved).1, fun _ _ _ copied => (by cases copied), ?_⟩
      (fun _ _ _ same => by cases same) (fun _ _ _ found => by cases free.symm.trans found)
    split <;> trivial
  | write op dev lba len buf =>
    obtain ⟨guard, made⟩ := Option.ite_none_right_eq_some.mp stepped
    refine mapped made fun s resolved => ?_
    have free := Option.isNone_iff_eq_none.mp guard.1
    obtain ⟨named, length⟩ := onDisk_unit resolved
    exact inv.put ⟨named, length ▸ guard.2.1, fun sent => (by cases sent)⟩
      (fun _ _ _ same => by cases same) (fun _ _ _ found => by cases free.symm.trans found)
  | next op ok mask => exact inv.next met stepped

theorem reach_coherent (w : World) (reachable : system.Reach (fun w event => w.meets event = true) w) :
    w.Coherent := by
  have inv : w.Inv := reachable.invariant (fun _ boot => Inv.boot boot) fun _ _ _ inv met stepped => inv.step met stepped
  exact inv.coherent

def boot : World := ⟨fun _ => none, fun _ => none, 0, fun _ _ => 0, [], 0, 0, 4, ∅⟩

theorem boot_boots : boot.Boot := ⟨fun _ => rfl, fun _ => rfl, rfl, rfl⟩

def cached : List Event :=
  [.register 0 (fun _ => 0), .read 0 0 0 512 (some 8)] ++ List.replicate 8 (.next 0 true fun _ => false)

/-- A write to a kept chunk, and a read of it after. -/
theorem reach_coherent_hit : ∃ w buf held, system.Reach (fun w event => w.meets event = true) w ∧ w.Coherent ∧
    w.ops.lookup 2 = some (.read ⟨0, 0, 0, 512⟩ 1 buf held (.look 1)) ∧ buf 3 = some 7 ∧ held 3 = some 7 := by
  have booted : system.Reach (fun w event => w.meets event = true) boot := .start boot_boots
  have reached := booted.runMeeting (cached ++
    [.write 1 0 0 512 (fun _ => 7), .next 1 true fun _ => false, .next 1 true fun _ => false,
      .read 2 0 0 512 (some 8), .next 2 true fun _ => false]) rfl
  exact ⟨_, _, _, reached, reach_coherent _ reached, rfl, rfl, rfl⟩

/-- The device refuses a write to a kept chunk; the cache has the bytes it did not take. -/
theorem failed_write_cached : ¬ ∀ w, system.Reach System.Any w → w.Coherent := by
  intro holds
  have booted : system.Reach System.Any boot := .start boot_boots
  have reached := booted.run (cached ++
    [.write 1 0 0 512 (fun _ => 7), .next 1 false fun _ => false, .next 1 true fun _ => false]) rfl
  have kept := (holds _ reached).kept _ (.head _) 0 rfl rfl 0 (by decide)
  exact absurd kept (by decide)

end World
end Myos.Blk
