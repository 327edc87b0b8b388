import Myos.User.MmapTableReach

namespace Myos.User.MmapTable
open Lib Checked Myos.Task
open Machine (Arith)
open MappedProgram (USER_WINDOW)

variable {device : Node → Nat → Option DeviceFrame} {s : State}

structure Called (s next : State) (op : Op) (result : Option Nat) : Prop where
  inv : next.Inv
  ref : next.ref = op.meaning s.ref result
  areaLo : next.p.areaLo = s.p.areaLo
  areaHi : next.p.areaHi = s.p.areaHi

theorem State.Inv.call {op : Op} (inv : s.Inv) (fits : op.Fits s) :
    ∃ next result, s.call op = .ok (next, result) ∧ Called s next op result := by
  have ran : ∃ vm result, Ran s op vm result := by
    cases op with
    | add va pages prot file => exact Ran.add inv fits
    | addFree areaLo areaHi pages prot file => exact Ran.addFree inv fits
    | remove va pages => exact Ran.remove inv fits
    | setProt va pages prot => exact Ran.setProt inv fits
  obtain ⟨vm, result, ran, ok, agrees, narrow, good⟩ := ran
  refine ⟨{ s with p := { s.p with vm }, ref := op.meaning s.ref result, calls := ⟨op, s.p.vm, vm, result⟩ :: s.calls },
    result, by rw [State.call, ran]; rfl, ⟨ok, agrees, narrow, inv.areaLo, inv.areaHi, inv.base, inv.pending,
      ?_, inv.running⟩, rfl, rfl, rfl⟩
  intro c member
  rcases List.mem_cons.mp member with rfl | earlier
  · exact good
  · exact inv.calls c earlier

section Requests

variable {p : Process} {len prot flags fd offset : Word} {anonNode : Option Node} {req : Request}

theorem mmapRequest_eq_some (made : mmapRequest device p len prot flags fd offset anonNode = some req) :
    ∃ file, mmapFile p flags fd offset = some file ∧
      mmapFileBacking file flags offset anonNode = some req.backing ∧ req.pages = (len.toNat + PAGE - 1) / PAGE ∧
      0 < req.pages ∧ req.pages ≤ MMAP_AREA_PAGES := by
  obtain ⟨_, -, made⟩ := Option.bind_eq_some_iff.mp made
  obtain ⟨file, found, made⟩ := Option.bind_eq_some_iff.mp made
  obtain ⟨shared, -, made⟩ := Option.bind_eq_some_iff.mp made
  obtain ⟨_, -, made⟩ := Option.bind_eq_some_iff.mp made
  obtain ⟨_, sized, made⟩ := Option.bind_eq_some_iff.mp made
  obtain ⟨backing, backed, made⟩ := Option.bind_eq_some_iff.mp made
  obtain ⟨_, -, made⟩ := Option.bind_eq_some_iff.mp made
  obtain ⟨_, -, same⟩ := Option.bind_eq_some_iff.mp made
  have size : (len.toNat + PAGE - 1) / PAGE ≠ 0 ∧ (len.toNat + PAGE - 1) / PAGE ≤ MMAP_AREA_PAGES := by
    by_contra wrong
    have refused : guard _ = (none : Option Unit) := if_neg wrong
    cases refused.symm.trans sized
  cases same
  exact ⟨file, found, backed, rfl, Nat.pos_of_ne_zero size.1, size.2⟩

theorem mmapRequest_fits (made : mmapRequest device p len prot flags fd offset anonNode = some req)
    (file : hasBit flags MAP_ANON = false → offset.toNat / PAGE + (len.toNat + PAGE - 1) / PAGE ≤ U32_MAX) :
    Request.Fits req := by
  have most : MMAP_AREA_PAGES = 2 ^ 24 := rfl
  have largest : U32_MAX = 2 ^ 32 - 1 := rfl
  obtain ⟨opened, found, backed, sized, positive, few⟩ := mmapRequest_eq_some made
  refine ⟨positive, few, fun back same => ?_⟩
  rw [same] at backed
  unfold mmapFileBacking at backed
  split at backed
  · obtain ⟨node, _, made⟩ := Option.map_eq_some_iff.mp backed
    cases made
    rw [Nat.zero_div]
    omega
  refine mapped (Option.some.inj backed) fun f isOpen => ?_
  rw [sized]
  refine file (Bool.eq_false_iff.mpr fun anonymous => ?_)
  rw [mmapFile, if_pos anonymous, isOpen] at found
  cases found

end Requests

/-- No region has a page of the range. -/
def State.free (s : State) (va pages : Nat) : Bool :=
  s.p.vm.mmap.all fun r => regionEnd r ≤ va || va + pages * PAGE ≤ r.va

/-- The condition on the calls: the file pages of a mapping are numbers that fit, `mprotect` asks for no bit of the
kernel's, and nothing was mapped in the range of a `MAP_FIXED` call since it emptied it. -/
def Event.meets (s : State) : Event → Bool
  | .mmap _ _ len _ flags _ offset _ =>
    hasBit flags MAP_ANON || decide (offset.toNat / PAGE + (len.toNat + PAGE - 1) / PAGE ≤ U32_MAX)
  | .mprotect _ _ _ prot => (prot.truncate 32 : Prot) &&& kernelBits == 0
  | .turn tid =>
    match s.pending.lookup tid with
    | some (.record (some hint) req) | some (.readIn (some hint) req) => s.free hint req.pages
    | _ => true
  | _ => true

theorem State.Inv.free {va pages : Nat} (inv : s.Inv) (aligned : PAGE ∣ va) (isFree : s.free va pages = true) :
    ∀ n, va / PAGE ≤ n ∧ n < va / PAGE + pages → s.ref n = none := by
  refine free_of_vacant inv aligned fun r member => ?_
  have apart := List.all_eq_true.mp isFree r member
  rw [Bool.or_eq_true, decide_eq_true_eq, decide_eq_true_eq] at apart
  exact apart

theorem FileFits.none (pages : Nat) : FileFits none pages := fun _ same => by cases same

section Perform

variable {fixed : Option Nat} {req : Request}

theorem State.Inv.record {file : Option (Node × Nat)} (inv : s.Inv) (fits : Request.Fits req)
    (hint : ∀ hint, fixed = some hint → InWindow hint req.pages ∧ s.free hint req.pages = true)
    (backing : FileFits file req.pages) (prot : Prot) :
    ∃ next result, s.record fixed req.pages prot file = .ok (next, result) ∧ next.Inv := by
  cases fixed with
  | some va =>
    obtain ⟨⟨aligned, top⟩, isFree⟩ := hint va rfl
    obtain ⟨next, result, made, called⟩ := inv.call (show (Op.add va req.pages prot file).Fits s from
      ⟨fits.positive, aligned, top, backing, inv.free aligned isFree⟩)
    exact ⟨next, result, made, called.inv⟩
  | none =>
    obtain ⟨next, result, made, called⟩ := inv.call (show (Op.addFree s.p.areaLo s.p.areaHi req.pages prot file).Fits s from
      ⟨rfl, rfl, fits.positive, fits.few, backing⟩)
    exact ⟨next, result, made, called.inv⟩

/-- An operation that was checked and, for one at a fixed address, finds its range free, neither overflows nor
leaves its call with an unchecked one. -/
theorem State.Inv.perform {todo : Todo} (inv : s.Inv) (fits : todo.Fits)
    (isFree : ∀ hint req, todo = .record (some hint) req ∨ todo = .readIn (some hint) req → s.free hint req.pages = true) :
    ∃ next rest, s.perform todo = .ok (next, rest) ∧ next.Inv ∧ ∀ later, rest = some later → later.Fits := by
  cases todo with
  | remove va pages =>
    obtain ⟨next, result, made, called⟩ := inv.call (show (Op.remove va pages).Fits s from fits)
    exact ⟨next, none, by rw [State.perform, made]; rfl, called.inv, fun _ same => by cases same⟩
  | setProt va pages prot =>
    obtain ⟨positive, ⟨aligned, top⟩, plain⟩ := fits
    obtain ⟨next, result, made, called⟩ := inv.call (show (Op.setProt va pages prot).Fits s from
      ⟨positive, aligned, top, plain⟩)
    exact ⟨next, none, by rw [State.perform, made]; rfl, called.inv, fun _ same => by cases same⟩
  | replace hint req =>
    obtain ⟨next, result, made, called⟩ := inv.call (show (Op.remove hint req.pages).Fits s from
      ⟨fits.1.positive, fits.2⟩)
    refine ⟨next, _, by rw [State.perform, made]; rfl, called.inv, fun later same => ?_⟩
    refine guarded same fun _ => ⟨fits.1, fun va isHint => ?_⟩
    cases isHint
    exact fits.2
  | record fixed req =>
    have ready : ∀ hint, fixed = some hint → InWindow hint req.pages ∧ s.free hint req.pages = true :=
      fun hint isHint => ⟨fits.2 hint isHint, isFree hint req (.inl (by rw [isHint]))⟩
    cases isDevice : req.kind with
    | some kind =>
      obtain ⟨next, result, made, nextInv⟩ := inv.record fits.1 ready (.none _) (req.prot ||| kind)
      exact ⟨next, none, by simp only [State.perform, isDevice, made]; rfl, nextInv, fun _ same => by cases same⟩
    | none =>
      obtain ⟨next, result, made, nextInv⟩ := inv.record fits.1 ready fits.1.backing (req.prot ||| req.shared)
      refine ⟨next, _, by simp only [State.perform, isDevice, made]; rfl, nextInv, fun later same => ?_⟩
      exact guarded same fun _ => fits
  | readIn fixed req =>
    obtain ⟨next, result, made, nextInv⟩ := inv.record fits.1
      (fun hint isHint => ⟨fits.2 hint isHint, isFree hint req (.inr (by rw [isHint]))⟩) (.none _) req.prot
    exact ⟨next, none, by rw [State.perform, made]; rfl, nextInv, fun _ same => by cases same⟩

end Perform

theorem State.Inv.leave {todo : Option Todo} (inv : s.Inv) (tid : Nat) (fits : ∀ later, todo = some later → later.Fits) :
    (s.leave tid todo).Inv := by
  cases todo with
  | some later =>
    refine ⟨inv.ok, inv.agrees, inv.narrow, inv.areaLo, inv.areaHi, inv.base, fun other found lookup => ?_, inv.calls,
      inv.running⟩
    rcases Table.lookup_insert_some lookup with ⟨_, rfl⟩ | ⟨_, before⟩
    · exact fits _ rfl
    · exact inv.pending other found before
  | none =>
    exact ⟨inv.ok, inv.agrees, inv.narrow, inv.areaLo, inv.areaHi, inv.base,
      fun other found lookup => inv.pending other found (Table.lookup_erase_some lookup).2, inv.calls, inv.running⟩

theorem State.Inv.enter {tid : Nat} {todo : Option Todo} {made : Arith State} (inv : s.Inv)
    (entered : s.enter tid todo = some made) (fits : ∀ later, todo = some later → later.Fits) :
    ∃ next, made = .ok next ∧ next.Inv := by
  refine unguarded entered fun _ => ⟨_, rfl, inv.leave tid fits⟩

theorem State.Inv.doMmap {hint len prot flags fd offset : Word} {anonNode : Option Node} {todo : Todo} (inv : s.Inv)
    (file : hasBit flags MAP_ANON = false → offset.toNat / PAGE + (len.toNat + PAGE - 1) / PAGE ≤ U32_MAX)
    (checked : s.doMmap device hint len prot flags fd offset anonNode = some todo) : todo.Fits := by
  have window : USER_WINDOW = 2 ^ 39 := rfl
  have largest : USIZE_MAX = 2 ^ 64 - 1 := rfl
  have areaHi := inv.areaHi
  unfold State.doMmap at checked
  cases made : mmapRequest device s.p len prot flags fd offset anonNode with
  | none =>
    rw [made] at checked
    cases checked
  | some req =>
    rw [made] at checked
    have fits := mmapRequest_fits made file
    dsimp only at checked
    split at checked
    · refine unguarded checked fun inside => ⟨fits, ?_⟩
      exact ⟨Nat.dvd_of_mod_eq_zero (by omega), by omega⟩
    · cases checked
      exact ⟨fits, fun _ same => by cases same⟩

theorem pageRange_fits {lo va pages : Nat} {addr len : Word} (inv : s.Inv)
    (ranged : s.pageRange lo addr len = some (va, pages)) : 0 < pages ∧ InWindow va pages := by
  have window : USER_WINDOW = 2 ^ 39 := rfl
  have largest : USIZE_MAX = 2 ^ 64 - 1 := rfl
  have areaHi := inv.areaHi
  have base := inv.base
  unfold State.pageRange at ranged
  dsimp only at ranged
  split at ranged
  · cases ranged
  rename_i shape
  split at ranged
  · cases ranged
  rename_i inside
  cases ranged
  have positive : len.toNat ≠ 0 := fun zero => shape (.inr (.inl (BitVec.eq_of_toNat_eq zero)))
  refine ⟨?_, Nat.dvd_of_mod_eq_zero (by omega), ?_⟩
  · have page : PAGE = 4096 := rfl
    rw [page]
    omega
  cases below : s.mappedBelowImage addr.toNat ((len.toNat + PAGE - 1) / PAGE * PAGE) with
  | true =>
    have bound : addr.toNat + (len.toNat + PAGE - 1) / PAGE * PAGE ≤ s.base := by
      simp only [State.mappedBelowImage, Bool.and_eq_true, decide_eq_true_eq] at below
      exact below.1.2
    omega
  | false =>
    rw [below] at inside
    simp only [and_true] at inside
    omega

theorem State.Inv.syscall {event : Event} {made : Arith State} (inv : s.Inv) (met : event.meets s = true)
    (happens : s.syscall device event = some made) : ∃ next, made = .ok next ∧ next.Inv := by
  cases event with
  | openFile fd file | closeFd fd =>
    cases happens
    exact ⟨_, rfl, inv.ok, inv.agrees, inv.narrow, inv.areaLo, inv.areaHi, inv.base, inv.pending, inv.calls, inv.running⟩
  | mmap tid hint len prot flags fd offset anonNode =>
    refine inv.enter happens fun later checked => inv.doMmap (fun named => ?_) checked
    rw [Event.meets, named, Bool.false_or] at met
    exact of_decide_eq_true met
  | munmap tid addr len =>
    refine inv.enter happens fun later checked => mapped checked fun range ranged => ?_
    exact pageRange_fits inv ranged
  | mprotect tid addr len prot =>
    refine inv.enter happens fun later checked => mapped checked fun range ranged => ?_
    obtain ⟨positive, inWindow⟩ := pageRange_fits inv ranged
    exact ⟨positive, inWindow, beq_iff_eq.mp met⟩
  | turn tid =>
    refine mapped happens fun todo isNext => ?_
    obtain ⟨next, rest, performed, nextInv, later⟩ := inv.perform (inv.pending tid todo isNext) fun hint req isFixed => by
      rw [Event.meets, isNext] at met
      rcases isFixed with rfl | rfl
      · exact met
      · exact met
    exact ⟨next.leave tid rest, by rw [performed]; rfl, nextInv.leave tid later⟩

theorem State.Inv.boot (boot : s.Boot) : s.Inv :=
  ⟨boot.ok, boot.agrees, boot.narrow, boot.areaLo, boot.areaHi, boot.base,
    fun tid todo isNext => (by rw [boot.pending] at isNext; cases isNext),
    fun c member => (by rw [boot.calls] at member; cases member), boot.running⟩

theorem State.Inv.step {event : Event} {next : State} (inv : s.Inv) (met : event.meets s = true)
    (stepped : s.step device event = some next) : next.Inv := by
  unfold State.step at stepped
  rw [inv.running] at stepped
  refine mapped stepped fun made happens => ?_
  obtain ⟨next, rfl, nextInv⟩ := inv.syscall met happens
  exact nextInv

/-- In every run whose calls meet the condition, threads' calls interleaved, the table is the reference. -/
theorem reach_refines (device : Node → Nat → Option DeviceFrame) (s : State)
    (reachable : (State.system device).Reach (fun s event => event.meets s = true) s) : s.Refines := by
  have inv : s.Inv := reachable.invariant (fun _ boot => .boot boot) fun _ _ _ inv met stepped => inv.step met stepped
  exact inv.refines

def fresh : State := ⟨⟨⟨[], []⟩, ∅, 2 ^ 32, 2 ^ 36⟩, 2 ^ 30, fun _ => none, ∅, [], false⟩

theorem fresh_boot : fresh.Boot where
  ok := ⟨⟨.nil, fun _ member => by cases member⟩, Nat.zero_le _, fun _ member => by cases member⟩
  agrees := by
    intro va prot file
    constructor
    · rintro ⟨_, ⟨_, member, _⟩, _⟩
      cases member
    · intro found
      cases found
  narrow := fun _ _ _ found => by cases found
  areaLo := ⟨2 ^ 20, rfl⟩
  areaHi := by decide
  base := by decide
  pending := rfl
  calls := rfl
  running := rfl

/-- A file mapping, half of it made read-only, and a `MAP_FIXED` call inside it that another thread's `munmap` above
its range comes between. -/
theorem reach_refines_split : ∃ s, (State.system fun _ _ => none).Reach (fun s event => event.meets s = true) s ∧
    s.Refines ∧ s.p.vm.mmap.length = 4 := by
  have ran : ((State.system fun _ _ => none).runMeeting (fun s event => event.meets s = true) fresh
      [.openFile 3 ⟨7, true, false⟩, .mmap 1 0 0x6000 3 MAP_PRIVATE 3 0x2000 none, .turn 1,
        .mprotect 1 0x100003000 0x3000 1, .turn 1,
        .mmap 1 0x100001000 0x1000 3 (MAP_PRIVATE ||| MAP_FIXED ||| MAP_ANON) 0 0 none, .turn 1,
        .munmap 2 0x100004000 0x2000, .turn 2, .turn 1]).map (·.p.vm.mmap.length) = some 4 := by decide +kernel
  obtain ⟨s, ran, four⟩ := Option.map_eq_some_iff.mp ran
  have reached := System.Reach.runMeeting (.start fresh_boot) _ ran
  exact ⟨s, reached, reach_refines _ _ reached, four⟩

/-- A page of a file at the last number a `u32` holds, and a second mapping of the file after it. -/
theorem last_page_overflows : ¬ ∀ device s, (State.system device).Reach System.Any s → s.Refines := by
  intro holds
  have booted : (State.system fun _ _ => none).Reach System.Any fresh := .start fresh_boot
  have reached := booted.run [.openFile 3 ⟨7, true, false⟩, .mmap 1 0 0x1000 1 MAP_PRIVATE 3 0xffffffff000 none, .turn 1,
    .mmap 1 0 0x1000 1 MAP_PRIVATE 3 0 none, .turn 1] rfl
  exact absurd (holds _ _ reached).arithmetic (by decide)

end Myos.User.MmapTable
