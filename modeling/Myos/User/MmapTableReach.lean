import Myos.User.MmapTableSpec

namespace Myos.User.MmapTable
open Lib Checked Myos.Task
open Machine (Arith NarrowPages)
open MappedProgram (USER_WINDOW)

/-- No page is past the end of user addresses, and every file page but the last a `u32` can number. -/
def PageMap.Narrow (ref : PageMap) : Prop :=
  ∀ n prot file, ref n = some (prot, file) → (n + 1) * PAGE ≤ USER_WINDOW ∧ ∀ back, file = some back → back.2 < U32_MAX

def FileFits (file : Option (Node × Nat)) (pages : Nat) : Prop := ∀ back, file = some back → back.2 / PAGE + pages ≤ U32_MAX

structure Request.Fits (req : Request) : Prop where
  positive : 0 < req.pages
  few : req.pages ≤ MMAP_AREA_PAGES
  backing : FileFits req.backing req.pages

def InWindow (va pages : Nat) : Prop := PAGE ∣ va ∧ va + pages * PAGE ≤ USER_WINDOW

/-- What was checked of an operation before its call got to the table. -/
def Todo.Fits : Todo → Prop
  | .remove va pages => 0 < pages ∧ InWindow va pages
  | .setProt va pages prot => 0 < pages ∧ InWindow va pages ∧ prot &&& kernelBits = 0
  | .replace hint req => Request.Fits req ∧ InWindow hint req.pages
  | .record fixed req | .readIn fixed req => Request.Fits req ∧ ∀ hint, fixed = some hint → InWindow hint req.pages

structure State.Inv (s : State) : Prop where
  ok : s.p.vm.Ok
  agrees : Agrees s.p.vm s.ref
  narrow : s.ref.Narrow
  areaLo : PAGE ∣ s.p.areaLo
  areaHi : s.p.areaHi ≤ USER_WINDOW
  base : s.base ≤ USER_WINDOW
  pending : ∀ tid todo, s.pending.lookup tid = some todo → todo.Fits
  calls : ∀ c ∈ s.calls, c.Good
  running : s.overflowed = false

def Op.Fits (s : State) : Op → Prop
  | .add va pages _ file => 0 < pages ∧ PAGE ∣ va ∧ va + pages * PAGE ≤ USER_WINDOW ∧ FileFits file pages ∧
      ∀ n, va / PAGE ≤ n ∧ n < va / PAGE + pages → s.ref n = none
  | .addFree areaLo areaHi pages _ file => areaLo = s.p.areaLo ∧ areaHi = s.p.areaHi ∧ 0 < pages ∧
      pages ≤ MMAP_AREA_PAGES ∧ FileFits file pages
  | .remove va pages => 0 < pages ∧ PAGE ∣ va ∧ va + pages * PAGE ≤ USER_WINDOW
  | .setProt va pages prot => 0 < pages ∧ PAGE ∣ va ∧ va + pages * PAGE ≤ USER_WINDOW ∧ prot &&& kernelBits = 0

section Narrow

variable {ref : PageMap} {va pages : Nat} {prot : Prot} {file : Option (Node × Nat)}

theorem PageMap.Narrow.add (narrow : ref.Narrow) (top : va + pages * PAGE ≤ USER_WINDOW)
    (fits : FileFits file pages) : (ref.add va pages prot file).Narrow := by
  intro n p f found
  unfold PageMap.add at found
  split at found
  · rename_i inside
    cases found
    constructor
    · have page : PAGE = 4096 := rfl
      rw [page] at inside top ⊢
      omega
    intro back same
    refine mapped same fun source rfl => ?_
    have bound := fits source rfl
    omega
  · exact narrow n p f found

theorem PageMap.Narrow.remove (narrow : ref.Narrow) (va pages : Nat) : (ref.remove va pages).Narrow := by
  intro n p f found
  unfold PageMap.remove at found
  split at found
  · cases found
  · exact narrow n p f found

theorem PageMap.Narrow.setProt (narrow : ref.Narrow) (va pages : Nat) (prot : Prot) :
    (ref.setProt va pages prot).Narrow := by
  intro n p f found
  unfold PageMap.setProt at found
  split at found
  · obtain ⟨⟨old, file⟩, before, same⟩ := Option.map_eq_some_iff.mp found
    cases same
    exact narrow n old file before
  · exact narrow n p f found

end Narrow

namespace State.Inv

variable {s : State}

theorem narrowPages (inv : s.Inv) : NarrowPages s.p.vm.mmap := by
  intro va x covered
  have page : PAGE = 4096 := rfl
  have window : USER_WINDOW = 2 ^ 39 := rfl
  have largest : U32_MAX = 2 ^ 32 - 1 := rfl
  have found := (inv.agrees va x.1 _).mp ⟨x, covered, rfl, rfl⟩
  obtain ⟨top, file⟩ := inv.narrow _ _ _ found
  rw [page] at top
  refine ⟨by omega, fun named => ?_⟩
  obtain ⟨r, member, contains, rfl⟩ := covered
  obtain ⟨node, held⟩ := Option.isSome_iff_exists.mp (inv.ok.files r member named)
  have held : Vm.fileAt s.p.vm.files (r.entry va).2.1 = some node := held
  have bound := file (node, (r.entry va).2.2) (by rw [held]; rfl)
  omega

theorem regions (inv : s.Inv) : ∀ r ∈ s.p.vm.mmap, Machine.Narrow r := inv.narrowPages.narrow inv.ok.laid

theorem refines (inv : s.Inv) : s.Refines := by
  have laid := inv.ok.laid
  refine ⟨inv.running, ?_, ?_, inv.ok.length, ?_, inv.calls⟩
  · refine laid.sorted.imp_of_mem fun {a b} left _ order => ?_
    have nonempty := (laid.placed a left).va_lt_end
    omega
  · refine laid.sorted.imp fun {a b} order va both => ?_
    have upper := both.1.2
    have lower := both.2.1
    omega
  intro va
  rw [Machine.mmapBacking_eq inv.ok inv.regions]
  refine congrArg Except.ok ?_
  cases backed : s.p.vm.mmapBacking va with
  | none =>
    cases found : s.ref (va / PAGE) with
    | none => rfl
    | some page =>
      obtain ⟨left, same⟩ := Vm.maps_mmapBacking inv.ok ((inv.agrees va page.1 page.2).mpr found)
      rw [backed] at same
      cases same
  | some back =>
    obtain ⟨prot, file, left⟩ := back
    rw [(inv.agrees va prot file).mp (Vm.mmapBacking_maps inv.ok backed)]
    rfl

end State.Inv

structure Ran (s : State) (op : Op) (vm : Vm) (result : Option Nat) : Prop where
  ran : op.run s.p.vm = .ok (vm, result)
  ok : vm.Ok
  agrees : Agrees vm (op.meaning s.ref result)
  narrow : (op.meaning s.ref result).Narrow
  good : Call.Good ⟨op, s.p.vm, vm, result⟩

section Ran

variable {s : State} (inv : s.Inv)

include inv

variable {pages va : Nat} {prot : Prot}

/-- A call whose result is its own address or none, by whether the table took it. -/
theorem Ran.of_taken {op : Op} {p : Vm × Bool} (ran : op.run s.p.vm = .ok (p.1, if p.2 then some va else none))
    (fixed : ∀ areaLo areaHi pages prot file, op ≠ .addFree areaLo areaHi pages prot file)
    (failed : p.2 = false → s.p.vm.Stays p.1)
    (taken : p.2 = true → p.1.Ok ∧ Agrees p.1 (op.meaning s.ref (some va)) ∧ (op.meaning s.ref (some va)).Narrow) :
    ∃ vm result, Ran s op vm result := by
  obtain ⟨next, success⟩ := p
  cases success with
  | false =>
    obtain ⟨ok, mmap, maps⟩ := failed rfl
    have same : op.meaning s.ref none = s.ref := by cases op <;> rfl
    exact ⟨next, none, ran, ok, same ▸ inv.agrees.congr maps, same ▸ inv.narrow, fun _ => mmap,
      fun _ _ _ _ _ free => (fixed _ _ _ _ _ free).elim⟩
  | true =>
    obtain ⟨ok, agrees, narrow⟩ := taken rfl
    exact ⟨next, some va, ran, ok, agrees, narrow, fun failed => (by cases failed),
      fun _ _ _ _ _ free => (fixed _ _ _ _ _ free).elim⟩

theorem Ran.add {file : Option (Node × Nat)} (fits : (Op.add va pages prot file).Fits s) :
    ∃ vm result, Ran s (.add va pages prot file) vm result := by
  obtain ⟨positive, aligned, top, fileFits, free⟩ := fits
  have window : USER_WINDOW = 2 ^ 39 := rfl
  have largest : U32_MAX = 2 ^ 32 - 1 := rfl
  have machine : Machine.addRegion s.p.vm va pages prot file = .ok (s.p.vm.addRegion va pages prot file) := by
    refine Machine.addRegion_eq inv.ok inv.regions (by omega) fun back same => ?_
    have bound := fileFits back same
    omega
  refine Ran.of_taken inv (p := s.p.vm.addRegion va pages prot file) (by rw [Op.run, machine]; rfl) nofun
    (fun failed => Vm.addRegion_false inv.ok (Prod.ext rfl failed)) fun taken => ?_
  have vacant := inv.agrees.vacant inv.ok aligned positive free
  have bounded : va + pages * PAGE ≤ USIZE_MAX := top.trans (by decide)
  obtain ⟨ok, maps⟩ := Vm.addRegion_true inv.ok positive aligned bounded vacant (Prod.ext rfl taken)
  exact ⟨ok, inv.agrees.add aligned free maps, inv.narrow.add top fileFits⟩

theorem free_of_vacant (aligned : PAGE ∣ va) (vacant : Vacant s.p.vm.mmap va (va + pages * PAGE)) :
    ∀ n, va / PAGE ≤ n ∧ n < va / PAGE + pages → s.ref n = none := by
  intro n inside
  cases found : s.ref n with
  | none => rfl
  | some page =>
    have page_eq : n * PAGE / PAGE = n := Nat.mul_div_cancel n (by decide)
    obtain ⟨x, ⟨r, member, contains, _⟩, _⟩ := (inv.agrees (n * PAGE) page.1 page.2).mpr (page_eq.symm ▸ found)
    have range := (page_range aligned).mpr (page_eq.symm ▸ inside)
    have lower := contains.1
    have upper := contains.2
    rcases vacant r member with below | above
    · omega
    · omega

theorem Ran.addFree {areaLo areaHi : Nat} {file : Option (Node × Nat)}
    (fits : (Op.addFree areaLo areaHi pages prot file).Fits s) :
    ∃ vm result, Ran s (.addFree areaLo areaHi pages prot file) vm result := by
  obtain ⟨rfl, rfl, positive, few, fileFits⟩ := fits
  have window : USER_WINDOW = 2 ^ 39 := rfl
  have largest : U32_MAX = 2 ^ 32 - 1 := rfl
  have most : MMAP_AREA_PAGES = 2 ^ 24 := rfl
  have areaHi := inv.areaHi
  have within : s.p.areaHi ≤ USIZE_MAX := areaHi.trans (by decide)
  have ran : (Op.addFree s.p.areaLo s.p.areaHi pages prot file).run s.p.vm =
      .ok (s.p.vm.mmapAddFree s.p.areaLo s.p.areaHi pages prot file) := by
    refine Machine.mmapAddFree_eq inv.ok inv.regions (by omega) (by omega) fun back same => ?_
    have bound := fileFits back same
    omega
  unfold Vm.mmapAddFree freeGap at ran
  cases found : freeGapFrom s.p.areaHi (pages * PAGE) s.p.areaLo s.p.vm.mmap with
  | none =>
    rw [found] at ran
    refine ⟨s.p.vm, none, ran, inv.ok, inv.agrees, inv.narrow, fun _ => rfl, fun _ _ _ _ _ same => ?_⟩
    cases same
    exact .inl (freeGap_none inv.ok.laid within found)
  | some va =>
    rw [found] at ran
    have lowest := freeGap_some inv.ok.laid within found
    have aligned := (freeGapFrom_spec inv.ok.laid found).2.2.2.2 inv.areaLo
    have bounded := (freeGapFrom_spec inv.ok.laid found).2.2.1
    obtain ⟨_, upper, vacant⟩ := lowest.1
    dsimp only at ran
    cases added : s.p.vm.addRegion va pages prot file with
    | mk next success =>
      rw [added] at ran
      cases success with
      | false =>
        obtain ⟨ok, mmap, maps⟩ := Vm.addRegion_false inv.ok added
        refine ⟨next, none, ran, ok, inv.agrees.congr maps, inv.narrow, fun _ => mmap, fun _ _ _ _ _ same => ?_⟩
        cases same
        exact .inr ⟨va, lowest, congrArg Prod.snd added⟩
      | true =>
        obtain ⟨ok, maps⟩ := Vm.addRegion_true inv.ok positive aligned bounded vacant added
        refine ⟨next, some va, ran, ok, inv.agrees.add aligned (free_of_vacant inv aligned vacant) maps,
          inv.narrow.add (upper.trans areaHi) fileFits, fun failed => (by cases failed),
          fun _ _ _ _ _ same => ?_⟩
        cases same
        exact lowest

theorem Ran.remove (fits : (Op.remove va pages).Fits s) : ∃ vm result, Ran s (.remove va pages) vm result := by
  obtain ⟨positive, aligned, top⟩ := fits
  have window : USER_WINDOW = 2 ^ 39 := rfl
  have bytes : 0 < pages * PAGE := Nat.mul_pos positive (by decide)
  have range : Range va (va + pages * PAGE) := ⟨by omega, aligned, Nat.dvd_add aligned (Nat.dvd_mul_left _ _)⟩
  have machine := Machine.mmapRemove_eq inv.ok inv.regions range (by omega)
  refine Ran.of_taken inv (p := s.p.vm.mmapRemove va pages) (by rw [Op.run, machine]; rfl) nofun
    (fun failed => Vm.mmapRemove_false inv.ok (Prod.ext rfl failed)) fun taken => ?_
  obtain ⟨ok, _, maps⟩ := Vm.mmapRemove_true inv.ok range (Prod.ext rfl taken)
  exact ⟨ok, inv.agrees.remove aligned maps, inv.narrow.remove va pages⟩

theorem Ran.setProt (fits : (Op.setProt va pages prot).Fits s) :
    ∃ vm result, Ran s (.setProt va pages prot) vm result := by
  obtain ⟨positive, aligned, top, plain⟩ := fits
  have window : USER_WINDOW = 2 ^ 39 := rfl
  have bytes : 0 < pages * PAGE := Nat.mul_pos positive (by decide)
  have range : Range va (va + pages * PAGE) := ⟨by omega, aligned, Nat.dvd_add aligned (Nat.dvd_mul_left _ _)⟩
  have machine : Machine.mmapSetProt s.p.vm va pages prot = .ok (s.p.vm.mmapSetProt va pages prot) :=
    Machine.mmapSetProt_eq inv.ok inv.narrowPages range (by omega)
  refine Ran.of_taken inv (p := s.p.vm.mmapSetProt va pages prot) (by rw [Op.run, machine]; rfl) nofun (fun failed => ?_)
    fun taken => ?_
  · have same : (s.p.vm.mmapSetProt va pages prot).1 = s.p.vm := Vm.mmapSetProt_false (Prod.ext rfl failed)
    rw [same]
    exact Vm.stays_of_sameFiles inv.ok rfl fun _ _ => rfl
  obtain ⟨ok, maps⟩ := Vm.mmapSetProt_true inv.ok range (Prod.ext rfl taken)
  exact ⟨ok, inv.agrees.setProt aligned plain maps, inv.narrow.setProt va pages prot⟩

end Ran

end Myos.User.MmapTable
