import Myos.User.MappedProgram

namespace Myos.User.MappedProgram
open Lib Checked Myos.Task
open Modules.Elf hiding Node

def USER_WINDOW : Nat := 2 ^ 39

def pageUp (a : Nat) : Nat := (a + (PAGE - 1)) / PAGE * PAGE

section Segment

variable (seg : LoadSegment)

def lo : Nat := pageDown seg.vaddr
def fileEnd : Nat := if seg.filesz = 0 then lo seg else seg.vaddr + seg.filesz
def wholeEnd : Nat := pageDown (fileEnd seg)
def next : Nat := if wholeEnd seg < fileEnd seg then wholeEnd seg + PAGE else wholeEnd seg
def memEnd : Nat := pageUp (seg.vaddr + seg.memsz)
def fileOff : Nat := seg.offset - seg.vaddr % PAGE

structure InFile : Prop where
  start : seg.vaddr % PAGE ≤ seg.offset
  tail : wholeEnd seg < fileEnd seg → fileOff seg + (wholeEnd seg - lo seg) < 2 ^ 64

def Congruent : Prop := lo seg < wholeEnd seg → seg.offset % PAGE = seg.vaddr % PAGE ∧ fileOff seg / PAGE < 2 ^ 32

structure Fits (bias : Nat) : Prop where
  filesz : seg.filesz ≤ seg.memsz
  top : seg.vaddr + seg.memsz ≤ IMAGE_VADDR_MAX
  offset : seg.offset < 2 ^ 64
  window : bias + memEnd seg ≤ USER_WINDOW

end Segment

structure Piece where
  first : Nat
  last : Nat
  prot : Prot
  back : Option Nat

def pieces (seg : LoadSegment) : List Piece :=
  (if lo seg < wholeEnd seg then
    [⟨lo seg, wholeEnd seg, pfToProt seg.flags, some (fileOff seg % (PAGE * 2 ^ 32))⟩] else []) ++
  (if wholeEnd seg < fileEnd seg then [⟨wholeEnd seg, wholeEnd seg + PAGE, pfToProt seg.flags, none⟩] else []) ++
  (if next seg < memEnd seg then [⟨next seg, memEnd seg, pfToProt seg.flags, none⟩] else [])

def Mapped.tryAdd (node : Node) (bias : Nat) (m : Mapped) (p : Piece) : Result Mapped :=
  m.record (bias + p.first) ((p.last - p.first) / PAGE) p.prot (p.back.map fun off => (node, off))

/-- The same on numbers without a bound. -/
def Mapped.add (node : Node) (bias : Nat) (m : Mapped) (p : Piece) : Mapped :=
  let (vm, added) := m.vm.mmapAdd (bias + p.first) ((p.last - p.first) / PAGE) p.prot (p.back.map fun off => (node, off))
  { m with vm, ok := m.ok && added }

def fillOf (bias : Nat) (seg : LoadSegment) : List Fill :=
  if wholeEnd seg < fileEnd seg then
    [⟨bias + wholeEnd seg, fileOff seg + (wholeEnd seg - lo seg), fileEnd seg - wholeEnd seg⟩]
  else []

variable {node : Node} {bias : Nat} {seg : LoadSegment} {m : Mapped}

structure Ordered (seg : LoadSegment) : Prop where
  down : lo seg ≤ seg.vaddr
  near : seg.vaddr < lo seg + PAGE
  whole : lo seg ≤ wholeEnd seg
  file : wholeEnd seg ≤ fileEnd seg
  page : fileEnd seg < wholeEnd seg + PAGE
  nextWhole : wholeEnd seg ≤ next seg
  nextFile : fileEnd seg ≤ next seg
  mem : next seg ≤ memEnd seg
  data : seg.filesz ≠ 0 → fileEnd seg = seg.vaddr + seg.filesz
  alignedLo : PAGE ∣ lo seg
  alignedWhole : PAGE ∣ wholeEnd seg
  alignedNext : PAGE ∣ next seg
  alignedMem : PAGE ∣ memEnd seg

theorem ordered (fits : seg.filesz ≤ seg.memsz) : Ordered seg := by
  have down : lo seg = seg.vaddr / 4096 * 4096 := rfl
  have file : fileEnd seg = if seg.filesz = 0 then lo seg else seg.vaddr + seg.filesz := rfl
  have whole : wholeEnd seg = fileEnd seg / 4096 * 4096 := rfl
  have after : next seg = if wholeEnd seg < fileEnd seg then wholeEnd seg + 4096 else wholeEnd seg := rfl
  have mem : memEnd seg = (seg.vaddr + seg.memsz + 4095) / 4096 * 4096 := rfl
  have page : PAGE = 4096 := rfl
  have alignedWhole : PAGE ∣ wholeEnd seg := ⟨fileEnd seg / 4096, by rw [whole, page]; omega⟩
  refine ⟨?_, ?_, ?_, ?_, ?_, ?_, ?_, ?_, ?_, ⟨seg.vaddr / 4096, by rw [down, page]; omega⟩, alignedWhole, ?_,
    ⟨(seg.vaddr + seg.memsz + 4095) / 4096, by rw [mem, page]; omega⟩⟩
  · omega
  · omega
  · split at file <;> omega
  · omega
  · omega
  · split at after <;> omega
  · split at after <;> omega
  · split at file <;> split at after <;> omega
  · intro positive
    rw [file, if_neg positive]
  rw [after]
  split
  · exact Nat.dvd_add alignedWhole ⟨1, rfl⟩
  · exact alignedWhole

theorem Ordered.chain (order : Ordered seg) : lo seg ≤ wholeEnd seg ∧ wholeEnd seg ≤ next seg ∧ next seg ≤ memEnd seg :=
  ⟨order.whole, order.nextWhole, order.mem⟩

def place (node : Node) (bias : Nat) (m : Mapped) (seg : LoadSegment) : Mapped :=
  (pieces seg).foldl (Mapped.add node bias) { m with fills := fillOf bias seg ++ m.fills }

def tryPlace (node : Node) (bias : Nat) (m : Mapped) (seg : LoadSegment) : Result Mapped :=
  (pieces seg).foldlM (Mapped.tryAdd node bias) { m with fills := fillOf bias seg ++ m.fills }

theorem pages_eq {a c : Nat} (below : a ≤ c) (small : c ≤ USER_WINDOW) : pages a c = .ok ((c - a) / PAGE) := by
  have page : PAGE = 4096 := rfl
  have window : USER_WINDOW = 2 ^ 39 := rfl
  have difference : (sub c a : Result Nat) = .ok (c - a) := if_pos below
  rw [pages, difference, ok_bind]
  refine congrArg Except.ok (Nat.mod_eq_of_lt ?_)
  rw [page]
  omega

theorem mapSegment_unfold (fits : Fits seg bias) (start : seg.vaddr % PAGE ≤ seg.offset) :
    mapSegment node bias m seg = (do
      let m ← mapWhole node bias (lo seg) (wholeEnd seg) (fileOff seg) (pfToProt seg.flags) m
      let (m, next) ← mapTail bias (lo seg) (wholeEnd seg) (fileEnd seg) (fileOff seg) (pfToProt seg.flags) m
      mapRest bias next (memEnd seg) (pfToProt seg.flags) m) := by
  have order := ordered fits.filesz
  have top := fits.top
  have filesz := fits.filesz
  have limit : IMAGE_VADDR_MAX = 2 ^ 46 := rfl
  have down : seg.vaddr - lo seg = seg.vaddr % PAGE := (Nat.mod_eq_sub_div_mul).symm
  have first : (sub seg.vaddr (pageDown seg.vaddr) : Result Nat) = .ok (seg.vaddr % PAGE) := by
    rw [← down]
    exact if_pos order.down
  have second : (sub seg.offset (seg.vaddr % PAGE) : Result Nat) = .ok (fileOff seg) := if_pos start
  have third : dataEnd seg (pageDown seg.vaddr) = .ok (fileEnd seg) := by
    unfold dataEnd fileEnd
    split
    · rfl
    · exact add_ok (by omega)
  have fourth : (add 64 seg.vaddr seg.memsz : Result Nat) = .ok (seg.vaddr + seg.memsz) := add_ok (by omega)
  have fifth : (mul 64 ((seg.vaddr + seg.memsz + (PAGE - 1)) / PAGE) PAGE : Result Nat) = .ok (memEnd seg) := by
    have page : PAGE = 4096 := rfl
    exact if_pos (by rw [page]; omega)
  unfold mapSegment
  simp only [first, ok_bind, second, third, fourth, fifth]
  rfl

theorem foldlM_one {p : Piece} {guard : Prop} [Decidable guard] :
    (if guard then [p] else []).foldlM (Mapped.tryAdd node bias) m = if guard then m.tryAdd node bias p else .ok m := by
  split
  · exact bind_pure _
  · rfl

theorem record_mod (va pages : Nat) (prot : Prot) (off : Nat) :
    m.record va pages prot (some (node, off % (PAGE * 2 ^ 32))) = m.record va pages prot (some (node, off)) := by
  unfold Mapped.record Machine.addRegion
  dsimp only
  rw [Nat.mod_mul_right_div_self, Nat.mod_mod]

theorem mapWhole_eq (fits : Fits seg bias) :
    mapWhole node bias (lo seg) (wholeEnd seg) (fileOff seg) (pfToProt seg.flags) m =
      (if lo seg < wholeEnd seg then
        [⟨lo seg, wholeEnd seg, pfToProt seg.flags, some (fileOff seg % (PAGE * 2 ^ 32))⟩] else []).foldlM
        (Mapped.tryAdd node bias) m := by
  obtain ⟨whole, next, mem⟩ := (ordered fits.filesz).chain
  have window := fits.window
  have limit : USER_WINDOW = 2 ^ 39 := rfl
  rw [foldlM_one]
  unfold mapWhole
  split
  · rw [add_ok (by omega), ok_bind, pages_eq whole (by omega), ok_bind]
    exact (record_mod ..).symm
  · rfl

theorem mapTail_eq (node : Node) (fits : Fits seg bias) (inFile : InFile seg) :
    mapTail bias (lo seg) (wholeEnd seg) (fileEnd seg) (fileOff seg) (pfToProt seg.flags) m = (do
      let m ← (if wholeEnd seg < fileEnd seg then
        [⟨wholeEnd seg, wholeEnd seg + PAGE, pfToProt seg.flags, none⟩] else []).foldlM (Mapped.tryAdd node bias)
        { m with fills := fillOf bias seg ++ m.fills }
      return (m, next seg)) := by
  obtain ⟨whole, nextWhole, mem⟩ := (ordered fits.filesz).chain
  have window := fits.window
  have limit : USER_WINDOW = 2 ^ 39 := rfl
  have page : PAGE = 4096 := rfl
  rw [foldlM_one]
  unfold mapTail fillOf next
  split
  · rename_i partly
    have difference : (sub (wholeEnd seg) (lo seg) : Result Nat) = .ok (wholeEnd seg - lo seg) := if_pos whole
    have one : (wholeEnd seg + PAGE - wholeEnd seg) / PAGE = 1 := by
      rw [Nat.add_sub_cancel_left]
      rfl
    rw [difference, ok_bind, add_ok (inFile.tail partly), ok_bind, add_ok (by omega), ok_bind, add_ok (by omega)]
    simp only [Mapped.tryAdd, one, Option.map_none, List.cons_append, List.nil_append]
    rfl
  · rfl

theorem mapRest_eq (node : Node) (fits : Fits seg bias) :
    mapRest bias (next seg) (memEnd seg) (pfToProt seg.flags) m =
      (if next seg < memEnd seg then [⟨next seg, memEnd seg, pfToProt seg.flags, none⟩] else []).foldlM
        (Mapped.tryAdd node bias) m := by
  have mem := (ordered fits.filesz).mem
  have window := fits.window
  have limit : USER_WINDOW = 2 ^ 39 := rfl
  rw [foldlM_one]
  unfold mapRest
  split
  · rw [add_ok (by omega), ok_bind, pages_eq mem (by omega), ok_bind]
    rfl
  · rfl

theorem foldl_fills (ps : List Piece) (fills : List Fill) (m : Mapped) :
    ps.foldl (Mapped.add node bias) { m with fills := fills } =
      { ps.foldl (Mapped.add node bias) m with fills := fills } := by
  induction ps generalizing m with
  | nil => rfl
  | cons p ps ih => exact ih (m.add node bias p)

theorem foldlM_fills (ps : List Piece) (fills : List Fill) (m : Mapped) :
    ps.foldlM (Mapped.tryAdd node bias) { m with fills } = (do
      let m ← ps.foldlM (Mapped.tryAdd node bias) m
      return { m with fills }) := by
  induction ps generalizing m with
  | nil => rfl
  | cons p ps ih =>
    have first : Mapped.tryAdd node bias { m with fills } p = (do
        let m ← m.tryAdd node bias p
        return { m with fills }) := by
      simp only [Mapped.tryAdd, Mapped.record, bind_assoc, pure_bind]
    rw [List.foldlM_cons, List.foldlM_cons, first, bind_assoc, bind_assoc]
    simp only [pure_bind, ih]

theorem foldlM_tryAdd_fills {ps : List Piece} {next : Mapped} (added : ps.foldlM (Mapped.tryAdd node bias) m = .ok next) :
    next.fills = m.fills := by
  have kept := @foldlM_fills node bias ps m.fills m
  rw [added] at kept
  have same : next = { next with fills := m.fills } := Except.ok.inj kept
  rw [same]

theorem settles_tryAdd (m : Mapped) (p : Piece) : Settles (m.tryAdd node bias p) :=
  (settles_lift _).bind fun _ => .inl ⟨_, rfl⟩

theorem mapSegment_eq (fits : Fits seg bias) (inFile : InFile seg) :
    mapSegment node bias m seg = tryPlace node bias m seg := by
  rw [mapSegment_unfold fits inFile.start, mapWhole_eq fits, tryPlace, pieces, List.foldlM_append, List.foldlM_append,
    foldlM_fills _ (fillOf bias seg ++ m.fills), bind_assoc, bind_assoc]
  refine bind_congr_ok fun whole mapped => ?_
  rw [mapTail_eq node fits inFile, foldlM_tryAdd_fills mapped, bind_assoc]
  simp only [pure_bind, mapRest_eq node fits]

theorem mapSegment_overflows (fits : Fits seg bias) (outside : ¬ InFile seg) :
    Overflows (mapSegment node bias m seg) := by
  have order := ordered fits.filesz
  by_cases start : seg.vaddr % PAGE ≤ seg.offset
  · rw [mapSegment_unfold fits start, mapWhole_eq fits]
    have tail : wholeEnd seg < fileEnd seg ∧ ¬ fileOff seg + (wholeEnd seg - lo seg) < 2 ^ 64 := by
      by_contra fine
      exact outside ⟨start, fun partly => Decidable.not_not.mp fun far => fine ⟨partly, far⟩⟩
    have difference : (sub (wholeEnd seg) (lo seg) : Result Nat) = .ok (wholeEnd seg - lo seg) := if_pos order.whole
    have overflow : (add 64 (fileOff seg) (wholeEnd seg - lo seg) : Result Nat) = .error .overflow := if_neg tail.2
    refine (settles_foldlM settles_tryAdd _ m).elim ?_ fun early => overflows_bind.mpr (.inl early)
    rintro ⟨whole, mapped⟩
    rw [mapped, ok_bind, mapTail, if_pos tail.1, difference, ok_bind, overflow]
    rfl
  · have down : seg.vaddr - lo seg = seg.vaddr % PAGE := (Nat.mod_eq_sub_div_mul).symm
    have first : (sub seg.vaddr (pageDown seg.vaddr) : Result Nat) = .ok (seg.vaddr % PAGE) := by
      rw [← down]
      exact if_pos order.down
    have second : (sub seg.offset (seg.vaddr % PAGE) : Result Nat) = .error .overflow := if_neg start
    unfold mapSegment
    simp only [first, ok_bind, second]
    rfl

theorem mapSegments_spec {segs : List LoadSegment} (fits : ∀ seg ∈ segs, Fits seg bias) (m : Mapped) :
    ((∃ seg ∈ segs, ¬ InFile seg) → Overflows (segs.foldlM (mapSegment node bias) m)) ∧
      ((∀ seg ∈ segs, InFile seg) → segs.foldlM (mapSegment node bias) m = segs.foldlM (tryPlace node bias) m) := by
  induction segs generalizing m with
  | nil =>
    refine ⟨?_, fun _ => rfl⟩
    rintro ⟨seg, member, _⟩
    cases member
  | cons seg segs ih =>
    have here := fits seg (.head _)
    have later := ih fun seg member => fits seg (.tail _ member)
    rw [List.foldlM_cons, List.foldlM_cons]
    by_cases inFile : InFile seg
    · rw [mapSegment_eq here inFile]
      refine ⟨?_, fun all => bind_congr_ok fun next _ => (later next).2 fun seg member => all seg (.tail _ member)⟩
      rintro ⟨other, member, outside⟩
      have rest : ∃ seg ∈ segs, ¬ InFile seg := by
        rcases List.mem_cons.mp member with rfl | rest
        · exact absurd inFile outside
        · exact ⟨other, rest, outside⟩
      refine (settles_foldlM settles_tryAdd (pieces seg) _).elim ?_ fun early => overflows_bind.mpr (.inl early)
      rintro ⟨next, placed⟩
      rw [tryPlace, placed]
      exact (later next).1 rest
    · exact ⟨fun _ => overflows_bind.mpr (.inl (mapSegment_overflows here inFile)),
        fun all => absurd (all seg (.head _)) inFile⟩

theorem foldlM_tryPlace (segs : List LoadSegment) (m : Mapped) : segs.foldlM (tryPlace node bias) m = (do
    let placed ← (segs.flatMap pieces).foldlM (Mapped.tryAdd node bias) m
    return { placed with fills := segs.reverse.flatMap (fillOf bias) ++ m.fills }) := by
  induction segs generalizing m with
  | nil => rfl
  | cons seg segs ih =>
    rw [List.foldlM_cons, tryPlace, foldlM_fills, List.flatMap_cons, List.foldlM_append, List.reverse_cons,
      List.flatMap_append, List.flatMap_singleton, bind_assoc, bind_assoc]
    simp only [pure_bind, ih, foldlM_fills, bind_assoc, List.append_assoc]

end Myos.User.MappedProgram
