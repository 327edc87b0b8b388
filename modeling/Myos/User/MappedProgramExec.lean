import Myos.User.MappedProgramJoins

namespace Myos.User.MappedProgram
open Lib Checked Myos.Task
open Modules.Elf hiding Node

variable {node : Node} {bias : Nat} {seg : LoadSegment} {segs : List LoadSegment}

theorem mem_fills {fill : Fill} :
    fill ∈ (segs.foldl (place node bias) empty).fills ↔ ∃ seg ∈ segs, fill ∈ fillOf bias seg := by
  rw [foldl_place]
  simp [empty]

theorem mem_fillOf {fill : Fill} : fill ∈ fillOf bias seg ↔ wholeEnd seg < fileEnd seg ∧
    fill = ⟨bias + wholeEnd seg, fileOff seg + (wholeEnd seg - lo seg), fileEnd seg - wholeEnd seg⟩ := by
  unfold fillOf
  split
  · rename_i partly
    exact ⟨fun member => ⟨partly, List.mem_singleton.mp member⟩, fun both => List.mem_singleton.mpr both.2⟩
  · rename_i missing
    exact ⟨fun member => (by cases member), fun both => absurd both.1 missing⟩

def covering (a : Nat) (fill : Fill) : Bool := fill.va ≤ a && a < fill.va + PAGE

theorem covering_eq (a : Nat) : covering a = fun fill => fill.va ≤ a && a < fill.va + PAGE := rfl

theorem covering_inPages {fill : Fill} {a : Nat} (filesz : seg.filesz ≤ seg.memsz) (member : fill ∈ fillOf bias seg)
    (covers : covering (bias + a) fill = true) : wholeEnd seg ≤ a ∧ inPages a seg = true := by
  obtain ⟨partly, rfl⟩ := mem_fillOf.mp member
  have order := ordered filesz
  have whole := order.whole
  have mem := order.mem
  have after : next seg = wholeEnd seg + PAGE := if_pos partly
  have bounds : bias + wholeEnd seg ≤ bias + a ∧ bias + a < bias + wholeEnd seg + PAGE := by
    simpa [covering] using covers
  exact ⟨by omega, decide_eq_true ⟨by omega, by omega⟩⟩

section Backing

variable (aligned : PAGE ∣ bias) (fits : ∀ seg ∈ segs, Fits seg bias) (apart : segs.Pairwise Apart)
  (ok : (segs.foldl (place node bias) empty).ok = true) (member : seg ∈ segs) {i : Nat} (data : i < seg.filesz)

include fits apart member data in
theorem backing_fill (tail : wholeEnd seg ≤ seg.vaddr + i) (start : seg.vaddr % PAGE ≤ seg.offset) :
    (segs.foldl (place node bias) empty).backing (bias + seg.vaddr + i) = some (seg.offset + i) := by
  have order := ordered (fits seg member).filesz
  have whole := order.whole
  have mem := order.mem
  have nextFile := order.nextFile
  have page := order.page
  have file := order.data (by omega)
  have down : seg.vaddr - lo seg = seg.vaddr % PAGE := (Nat.mod_eq_sub_div_mul).symm
  have off : fileOff seg = seg.offset - seg.vaddr % PAGE := rfl
  have below := order.down
  have here : inPages (seg.vaddr + i) seg = true := decide_eq_true ⟨by omega, by omega⟩
  have own : ⟨bias + wholeEnd seg, fileOff seg + (wholeEnd seg - lo seg), fileEnd seg - wholeEnd seg⟩ ∈ fillOf bias seg :=
    mem_fillOf.mpr ⟨by omega, rfl⟩
  rw [Nat.add_assoc, Mapped.backing, ← covering_eq]
  cases found : (segs.foldl (place node bias) empty).fills.find? (covering (bias + (seg.vaddr + i))) with
  | none =>
    refine absurd ?_ (List.find?_eq_none.mp found _ (mem_fills.mpr ⟨seg, member, own⟩))
    simp only [covering, Bool.and_eq_true, decide_eq_true_eq]
    omega
  | some fill =>
    have covers := List.find?_some found
    obtain ⟨other, otherMember, otherFill⟩ := mem_fills.mp (List.mem_of_find?_eq_some found)
    have there := (covering_inPages (fits other otherMember).filesz otherFill covers).2
    obtain rfl := Apart.same apart member otherMember here there
    obtain ⟨_, rfl⟩ := mem_fillOf.mp otherFill
    have inside : bias + (seg.vaddr + i) - (bias + wholeEnd seg) < fileEnd seg - wholeEnd seg := by omega
    dsimp only
    rw [if_pos inside]
    exact congrArg some (by omega)

include aligned fits apart ok member in
theorem backing_whole (early : seg.vaddr + i < wholeEnd seg) :
    (segs.foldl (place node bias) empty).backing (bias + seg.vaddr + i) =
      some (fileOff seg % (PAGE * 2 ^ 32) / PAGE * PAGE + (seg.vaddr + i - lo seg)) := by
  have order := ordered (fits seg member).filesz
  have down := order.down
  have mem := order.mem
  have nextWhole := order.nextWhole
  have here : inPages (seg.vaddr + i) seg = true := decide_eq_true ⟨by omega, by omega⟩
  obtain ⟨vmOk, maps⟩ := place_maps aligned fits apart ok
  have run : ⟨lo seg, wholeEnd seg, pfToProt seg.flags, some (fileOff seg % (PAGE * 2 ^ 32))⟩ ∈ pieces seg := by
    unfold pieces
    rw [if_pos (by omega)]
    simp
  have pages : (wholeEnd seg - lo seg) / PAGE * PAGE = wholeEnd seg - lo seg :=
    (pieces_whole (fits seg member) _ run).pages
  have mapped := (maps (bias + (seg.vaddr + i)) (pfToProt seg.flags) _).mpr ⟨seg, member, _, run,
    by dsimp only; omega, by dsimp only; rw [pages]; omega, rfl, rfl⟩
  obtain ⟨left, backed⟩ := Vm.maps_mmapBacking vmOk mapped
  rw [Nat.add_assoc, Mapped.backing, ← covering_eq]
  cases found : (segs.foldl (place node bias) empty).fills.find? (covering (bias + (seg.vaddr + i))) with
  | some fill =>
    obtain ⟨other, otherMember, otherFill⟩ := mem_fills.mp (List.mem_of_find?_eq_some found)
    have there := covering_inPages (fits other otherMember).filesz otherFill (List.find?_some found)
    obtain rfl := Apart.same apart member otherMember here there.2
    omega
  | none =>
    rw [backed]
    simp only [Option.bind_some, Option.map_some, Option.some.injEq]
    have offset : bias + (seg.vaddr + i) - (bias + lo seg) = seg.vaddr + i - lo seg := by omega
    have start : PAGE ∣ bias + lo seg := Nat.dvd_add aligned order.alignedLo
    have within : (bias + (seg.vaddr + i)) % PAGE = (seg.vaddr + i - lo seg) % PAGE := by
      obtain ⟨k, start⟩ := start
      rw [← offset, start]
      exact (Nat.sub_mul_mod (by omega)).symm
    rw [offset, within, Nat.add_mul, Nat.add_assoc, Nat.div_add_mod']

end Backing

structure Sound (m : Mapped) (segs : List LoadSegment) (bias first last : Nat) : Prop where
  disjoint : m.vm.mmap.Pairwise fun r s => ∀ a, ¬ (contains a r = true ∧ contains a s = true)
  aligned : ∀ r ∈ m.vm.mmap, PAGE ∣ r.va
  inside : ∀ r ∈ m.vm.mmap, first ≤ r.va ∧ r.va + r.pages * PAGE ≤ last
  backed : ∀ seg ∈ segs, ∀ i < seg.filesz, m.backing (bias + seg.vaddr + i) = some (seg.offset + i)

section Sound

variable (aligned : PAGE ∣ bias) (fits : ∀ seg ∈ segs, Fits seg bias)
  (ok : (segs.foldl (place node bias) empty).ok = true) {first last : Nat}

include fits ok in
theorem Sound.apart (sound : Sound (segs.foldl (place node bias) empty) segs bias first last) : segs.Pairwise Apart := by
  apply apart_iff.mpr
  intro a
  rw [← cover_place fits ok]
  exact (pairwise_iff_countP_le_one _ _).mp (sound.disjoint.imp fun both => both (bias + a))

include aligned fits ok in
theorem Sound.congruent (sound : Sound (segs.foldl (place node bias) empty) segs bias first last)
    (member : seg ∈ segs) (inFile : InFile seg) : Congruent seg := by
  intro positive
  have order := ordered (fits seg member).filesz
  have file := order.file
  have near := order.near
  have start := inFile.start
  have page : PAGE = 4096 := rfl
  have off : fileOff seg = seg.offset - seg.vaddr % PAGE := rfl
  have offset : seg.vaddr - lo seg = seg.vaddr % PAGE := (Nat.mod_eq_sub_div_mul).symm
  have data : 0 < seg.filesz := by
    by_contra none
    have zero : fileEnd seg = lo seg := if_pos (by omega)
    omega
  have step : lo seg + PAGE ≤ wholeEnd seg := by
    obtain ⟨j, left⟩ := order.alignedLo
    obtain ⟨k, right⟩ := order.alignedWhole
    rw [page] at left right ⊢
    omega
  have backed := sound.backed seg member 0 data
  rw [backing_whole aligned fits (sound.apart fits ok) ok member (by omega)] at backed
  have same := Option.some.inj backed
  rw [page] at same start off offset ⊢
  omega

theorem Congruent.offset (congruent : Congruent seg) (inFile : InFile seg) {i : Nat} (down : lo seg ≤ seg.vaddr)
    (early : seg.vaddr + i < wholeEnd seg) :
    fileOff seg % (PAGE * 2 ^ 32) / PAGE * PAGE + (seg.vaddr + i - lo seg) = seg.offset + i := by
  have start := inFile.start
  have offset : seg.vaddr - lo seg = seg.vaddr % PAGE := (Nat.mod_eq_sub_div_mul).symm
  have off : fileOff seg = seg.offset - seg.vaddr % PAGE := rfl
  obtain ⟨same, small⟩ := congruent (by omega)
  have page : PAGE = 4096 := rfl
  rw [page] at start offset off same small ⊢
  omega

theorem inPages_of_piece {p : Piece} {a : Nat} (filesz : seg.filesz ≤ seg.memsz) (member : p ∈ pieces seg)
    (holds : p.holds a = true) : inPages a seg = true := by
  have positive : 0 < (pieces seg).countP (Piece.holds a) := List.countP_pos_iff.mpr ⟨p, member, holds⟩
  rw [countP_pieces filesz, ← inPages] at positive
  cases here : inPages a seg with
  | true => rfl
  | false =>
    rw [here] at positive
    cases positive

include aligned fits ok in
theorem sound_iff (inFile : ∀ seg ∈ segs, InFile seg)
    (inside : ∀ seg ∈ segs, first ≤ bias + lo seg ∧ bias + memEnd seg ≤ last) :
    Sound (segs.foldl (place node bias) empty) segs bias first last ↔
      segs.Pairwise Apart ∧ ∀ seg ∈ segs, Congruent seg := by
  constructor
  · intro sound
    exact ⟨sound.apart fits ok, fun seg member => sound.congruent aligned fits ok member (inFile seg member)⟩
  rintro ⟨apart, congruent⟩
  obtain ⟨vmOk, maps⟩ := place_maps aligned fits apart ok
  have placed := vmOk.laid.placed
  -- an address of a region is an address of some segment's pages
  have within : ∀ r ∈ (segs.foldl (place node bias) empty).vm.mmap, ∀ v, r.Contains v →
      ∃ seg ∈ segs, bias + lo seg ≤ v ∧ v < bias + memEnd seg := by
    intro r member v holds
    obtain ⟨seg, segMember, p, piece, lower, upper, _⟩ := (maps v _ _).mp ⟨r.entry v, ⟨r, member, holds, rfl⟩, rfl, rfl⟩
    have nonempty := (pieces_whole (fits seg segMember) p piece).nonempty
    rw [(pieces_whole (fits seg segMember) p piece).pages] at upper
    have here := inPages_of_piece (fits seg segMember).filesz piece (a := v - bias) (decide_eq_true ⟨by omega, by omega⟩)
    have range := of_decide_eq_true here
    exact ⟨seg, segMember, by omega, by omega⟩
  refine ⟨?_, fun r member => (placed r member).aligned, ?_, ?_⟩
  · refine vmOk.laid.sorted.imp_of_mem fun {r s} left right order a both => ?_
    have first := of_decide_eq_true both.1
    have second := of_decide_eq_true both.2
    rw [(placed r left).end_eq] at order
    omega
  · intro r member
    have nonempty := (placed r member).va_lt_end
    obtain ⟨s, sMember, lower, _⟩ := within r member r.va ⟨Nat.le_refl _, nonempty⟩
    obtain ⟨t, tMember, _, upper⟩ := within r member (regionEnd r - 1) ⟨by omega, by omega⟩
    have low := (inside s sMember).1
    have high := (inside t tMember).2
    rw [← (placed r member).end_eq]
    exact ⟨by omega, by omega⟩
  · intro seg member i data
    by_cases early : seg.vaddr + i < wholeEnd seg
    · rw [backing_whole aligned fits apart ok member early]
      exact congrArg some ((congruent seg member).offset (inFile seg member) (ordered (fits seg member).filesz).down early)
    · exact backing_fill fits apart member data (Nat.le_of_not_lt early) (inFile seg member).start

end Sound

def PROGRAM_HEAD_MAX : Nat := 64 * 1024

def segmentsOf (arch : Arch) (head : Bytes) : List LoadSegment :=
  match loadSegments arch head with
  | .ok segs => segs
  | .error _ => []

theorem pieces_length (seg : LoadSegment) : (pieces seg).length ≤ 3 := by
  unfold pieces
  rw [List.length_append, List.length_append]
  split <;> split <;> split <;> simp

theorem flatMap_pieces_length : (segs.flatMap pieces).length ≤ 3 * segs.length := by
  induction segs with
  | nil => exact Nat.le_refl _
  | cons seg segs ih =>
    have here := pieces_length seg
    rw [List.flatMap_cons, List.length_append, List.length_cons]
    omega

theorem place_ok (few : segs.length * 56 ≤ PROGRAM_HEAD_MAX + 8) : (segs.foldl (place node bias) empty).ok = true := by
  have most := @flatMap_pieces_length segs
  have head : PROGRAM_HEAD_MAX = 65536 := rfl
  have table : MAX_MMAP_REGIONS = 4096 := rfl
  rw [foldl_place]
  refine (foldl_room (.inl rfl) ?_ : _ = empty.ok)
  rw [show empty.vm.mmap.length = 0 from rfl]
  omega

section Map

variable {arch : Arch} {head : Bytes} {at_ : Nat} {span : ImageSpan}

theorem fits_of_span (bounds : span.Bounds seg) (aligned : PAGE ∣ span.minVaddr) (above : span.minVaddr ≤ at_)
    (window : at_ + pageUp span.span ≤ USER_WINDOW) :
    Fits seg (at_ - span.minVaddr) ∧ at_ ≤ at_ - span.minVaddr + lo seg ∧
      at_ - span.minVaddr + memEnd seg ≤ at_ + pageUp span.span := by
  have page : PAGE = 4096 := rfl
  have lower := bounds.lower
  have upper := bounds.upper
  have down : lo seg = seg.vaddr / 4096 * 4096 := rfl
  have mem : memEnd seg = (seg.vaddr + seg.memsz + 4095) / 4096 * 4096 := rfl
  have up : pageUp span.span = (span.span + 4095) / 4096 * 4096 := rfl
  obtain ⟨k, start⟩ := aligned
  rw [page] at start
  have last : at_ - span.minVaddr + memEnd seg ≤ at_ + pageUp span.span := by omega
  exact ⟨⟨bounds.filesz, bounds.top, bounds.offset, last.trans window⟩, by omega, last⟩

def WellFormed (segs : List LoadSegment) : Prop :=
  (∀ seg ∈ segs, InFile seg ∧ Congruent seg) ∧ segs.Pairwise Apart ∧ PagesFit segs

theorem clear_pieces (fits : ∀ seg ∈ segs, Fits seg bias) (apart : segs.Pairwise Apart) :
    (segs.flatMap pieces).Pairwise Clear := by
  refine pairwise_forall fun a => (pairwise_iff_countP_le_one (Piece.holds a) _).mpr ?_
  rw [countP_flatMap_pieces fun seg member => (fits seg member).filesz]
  exact apart_iff.mp apart a

theorem tryPlace_spec (fits : ∀ seg ∈ segs, Fits seg bias) (apart : segs.Pairwise Apart)
    (ok : (segs.foldl (place node bias) empty).ok = true) :
    (PagesFit segs → segs.foldlM (tryPlace node bias) empty = .ok (segs.foldl (place node bias) empty)) ∧
      (¬ PagesFit segs → Overflows (segs.foldlM (tryPlace node bias) empty)) := by
  rw [foldl_place] at ok ⊢
  rw [foldlM_tryPlace]
  obtain ⟨_, placed, overflows⟩ := foldlM_tryAdd (.inl rfl) rfl (flatMap_pieces_whole fits) (clear_pieces fits apart) ok
  refine ⟨fun fit => by rw [placed fit]; rfl, fun broken => overflows_bind.mpr (.inl (overflows broken))⟩

theorem tryPlace_cases (fits : ∀ seg ∈ segs, Fits seg bias) :
    segs.foldlM (tryPlace node bias) empty = .ok (segs.foldl (place node bias) empty) ∨
      Overflows (segs.foldlM (tryPlace node bias) empty) := by
  rw [foldlM_tryPlace, foldl_place]
  rcases settles_foldlM (@settles_tryAdd node bias) (segs.flatMap pieces) empty with ⟨next, added⟩ | overflow
  · left
    rw [added, foldlM_tryAdd_ok (flatMap_pieces_whole fits) added]
    rfl
  · exact .inr (overflows_bind.mpr (.inl overflow))

theorem map_below (node : Node) (accepted : imageSpan arch head = .ok span) (below : at_ < pageDown span.minVaddr) :
    map arch head node at_ = .ok { empty with ok := false } := by
  unfold map
  rw [accepted]
  exact if_pos below

theorem map_above {segs : List LoadSegment} (node : Node) (accepted : imageSpan arch head = .ok span)
    (above : pageDown span.minVaddr ≤ at_) (loaded : loadSegments arch head = .ok segs) :
    map arch head node at_ = segs.foldlM (mapSegment node (at_ - pageDown span.minVaddr)) empty := by
  unfold map
  rw [accepted]
  dsimp only
  rw [if_neg (by omega), loaded]

theorem pageDown_of_dvd {a : Nat} (aligned : PAGE ∣ a) : pageDown a = a := Nat.div_mul_cancel aligned

theorem map_iff (node : Node) (short : head.length ≤ PROGRAM_HEAD_MAX) (accepted : imageSpan arch head = .ok span)
    (aligned : PAGE ∣ at_) (window : at_ + pageUp span.span ≤ USER_WINDOW) :
    (¬ Overflows (map arch head node at_) ∧ ∀ m, map arch head node at_ = .ok m → m.ok = true →
      Sound m (segmentsOf arch head) (at_ - span.minVaddr) at_ (at_ + pageUp span.span)) ↔
      at_ < span.minVaddr ∨ WellFormed (segmentsOf arch head) := by
  have limit : PROGRAM_HEAD_MAX = 65536 := rfl
  have length : Short head := by
    omega
  obtain ⟨lowest, segs, loaded, few, bounds⟩ := imageSpan_segments length accepted
  have same : segmentsOf arch head = segs := by rw [segmentsOf, loaded]
  have down : pageDown span.minVaddr = span.minVaddr := pageDown_of_dvd lowest
  rw [same]
  by_cases below : at_ < span.minVaddr
  · rw [map_below node accepted (by omega)]
    refine iff_of_true ⟨fun overflow => (by cases overflow), fun m returned ok => ?_⟩ (.inl below)
    cases returned
    cases ok
  have above : span.minVaddr ≤ at_ := Nat.le_of_not_lt below
  have placed : ∀ seg ∈ segs, _ := fun seg member => fits_of_span (bounds seg member) lowest above window
  have fits : ∀ seg ∈ segs, Fits seg (at_ - span.minVaddr) := fun seg member => (placed seg member).1
  have ok : (segs.foldl (place node (at_ - span.minVaddr)) empty).ok = true := place_ok (by omega)
  obtain ⟨overflows, returns⟩ := @mapSegments_spec node (at_ - span.minVaddr) segs fits empty
  rw [map_above node accepted (by omega) loaded, down, or_iff_right below]
  by_cases inFile : ∀ seg ∈ segs, InFile seg
  · rw [returns inFile]
    have sound := sound_iff (Nat.dvd_sub aligned lowest) fits ok inFile fun seg member => (placed seg member).2
    constructor
    · rintro ⟨safe, all⟩
      have returned := (tryPlace_cases fits).resolve_right safe
      obtain ⟨apart, congruent⟩ := sound.mp (all _ returned ok)
      refine ⟨fun seg member => ⟨inFile seg member, congruent seg member⟩, apart, ?_⟩
      by_contra broken
      exact safe ((tryPlace_spec fits apart ok).2 broken)
    rintro ⟨both, apart, fit⟩
    rw [(tryPlace_spec fits apart ok).1 fit]
    refine ⟨fun overflow => (by cases overflow), fun m returned _ => ?_⟩
    cases returned
    exact sound.mpr ⟨apart, fun seg member => (both seg member).2⟩
  · have outside : ∃ seg ∈ segs, ¬ InFile seg := by
      push Not at inFile
      exact inFile
    refine iff_of_false (fun sound => sound.1 (overflows outside)) fun wellFormed => ?_
    exact inFile fun seg member => (wellFormed.1 seg member).1

end Map

/-- What loading a file promises: nothing overflows, and a program that is mapped is mapped as it says. -/
structure LoadsSafely (arch : Arch) (file : Bytes) (node : Node) (at_ : Nat) (span : ImageSpan) (bias : Nat) : Prop where
  map : ¬ Overflows (map arch (file.take PROGRAM_HEAD_MAX) node at_)
  realize : ∀ relocate, ¬ Overflows (realizeAs arch file bias relocate)
  relocate : ∀ gives heap, heap < 2 ^ 63 → ∀ {σ : Type} (store : σ → Nat → (Nat → Nat) → Option σ) (s : σ),
    ¬ Overflows (relocate arch (nodeSrc ⟨file, gives, heap⟩) bias store s)
  load : ¬ Overflows (load arch file bias)
  mapped : ∀ m, MappedProgram.map arch (file.take PROGRAM_HEAD_MAX) node at_ = .ok m → m.ok = true →
    Sound m (segmentsOf arch (file.take PROGRAM_HEAD_MAX)) (at_ - span.minVaddr) at_ (at_ + pageUp span.span)

def SymbolsFit (arch : Arch) (file : Bytes) (bias : Nat) : Prop :=
  ∀ hdr info img, parseEhdr arch file = .ok hdr → spanFrom hdr file = .ok info →
    realizeInto arch file hdr info bias true = .ok img →
    ∀ v ∈ (namedSymbols file hdr.eShoff hdr.eShentsize hdr.eShnum hdr.eShnum 0).1, bias + v < 2 ^ 64

theorem symbolsFit_iff {file : Bytes} (short : Short file) (arch : Arch) (bias : Nat) :
    ¬ Overflows (load arch file bias) ↔ SymbolsFit arch file bias := by
  rw [load_overflows_iff short]
  constructor
  · intro missing hdr info img parsed spanned realized v member
    by_contra large
    exact missing ⟨hdr, info, img, parsed, spanned, realized, v, member, Nat.le_of_not_lt large⟩
  · rintro fits ⟨hdr, info, img, parsed, spanned, realized, v, member, large⟩
    exact Nat.not_lt.mpr large (fits hdr info img parsed spanned realized v member)

def oneSegment (machine offset vaddr filesz memsz : Nat) : Bytes :=
  ELFMAG ++ [2, 1, 1] ++ toLe 9 0 ++ toLe 2 ET_DYN ++ toLe 2 machine ++ toLe 4 1 ++ toLe 8 vaddr ++ toLe 8 64 ++ toLe 8 0 ++
    toLe 4 0 ++ toLe 2 64 ++ toLe 2 56 ++ toLe 2 1 ++ toLe 2 64 ++ toLe 2 0 ++ toLe 2 0 ++
    toLe 4 PT_LOAD ++ toLe 4 5 ++ toLe 8 offset ++ toLe 8 vaddr ++ toLe 8 vaddr ++ toLe 8 filesz ++ toLe 8 memsz ++
    toLe 8 4096

def x86 : Arch := ⟨62, 1, 6, 7, 8⟩

theorem toLe_length (n v : Nat) : (toLe n v).length = n := by
  induction n generalizing v with
  | zero => rfl
  | succ n ih => rw [toLe, List.length_cons, ih]

theorem oneSegment_length (machine offset vaddr filesz memsz : Nat) :
    (oneSegment machine offset vaddr filesz memsz).length = 120 := by
  unfold oneSegment
  simp only [List.length_append, toLe_length, ELFMAG, List.length_cons, List.length_nil]

theorem oneSegment_head (machine offset vaddr filesz memsz : Nat) :
    (oneSegment machine offset vaddr filesz memsz).take PROGRAM_HEAD_MAX = oneSegment machine offset vaddr filesz memsz :=
  List.take_of_length_le (by rw [oneSegment_length]; decide)

end Myos.User.MappedProgram
