import Mathlib.Data.List.Pairwise
import Myos.User.MappedProgramTable

namespace Myos.User.MappedProgram
open Lib Checked Myos.Task
open Modules.Elf hiding Node

variable {node : Node} {bias : Nat} {seg : LoadSegment} {m : Mapped} {ps : List Piece}

def Only (node : Node) (vm : Vm) : Prop := vm.files = [] ∨ vm.files = [some node]

theorem mappedFileSlot_only {vm : Vm} (only : Only node vm) :
    ∃ next, vm.mappedFileSlot node = (next, some 0) ∧ next.mmap = vm.mmap ∧ Only node next := by
  obtain ⟨mmap, files⟩ := vm
  rcases only with unused | one
  · cases unused
    exact ⟨⟨mmap, [some node]⟩, rfl, rfl, .inr rfl⟩
  · cases one
    refine ⟨⟨mmap, [some node]⟩, ?_, rfl, .inr rfl⟩
    simp [Vm.mappedFileSlot]

theorem insertRegion_room {vm : Vm} (region : MmapRegion) (room : vm.mmap.length < MAX_MMAP_REGIONS) :
    ∃ next, vm.insertRegion region = (next, true) ∧ next.mmap.length ≤ vm.mmap.length + 1 ∧ next.files = vm.files := by
  have within : partitionPoint (fun r => decide (r.va < region.va)) vm.mmap ≤ vm.mmap.length :=
    (List.takeWhile_sublist _).length_le
  have longer := List.length_insertIdx_of_le_length within region
  have shorter : (coalesce (vm.mmap.insertIdx (partitionPoint (fun r => r.va < region.va) vm.mmap) region)).length ≤
      vm.mmap.length + 1 := by
    cases inserted : vm.mmap.insertIdx (partitionPoint (fun r => r.va < region.va) vm.mmap) region with
    | nil => exact Nat.zero_le _
    | cons a rest =>
      rw [inserted, List.length_cons] at longer
      have bound := (coalesceFrom_length a rest).1
      rw [coalesce]
      omega
  refine ⟨{ vm with mmap := coalesce (vm.mmap.insertIdx (partitionPoint (fun r => r.va < region.va) vm.mmap) region) },
    ?_, shorter, rfl⟩
  unfold Vm.insertRegion
  rw [if_neg (by omega)]

theorem add_room {p : Piece} (only : Only node m.vm) (room : m.vm.mmap.length < MAX_MMAP_REGIONS) :
    (m.add node bias p).ok = m.ok ∧ (m.add node bias p).vm.mmap.length ≤ m.vm.mmap.length + 1 ∧
      Only node (m.add node bias p).vm := by
  have added : ∃ next, m.vm.mmapAdd (bias + p.first) ((p.last - p.first) / PAGE) p.prot
      (p.back.map fun off => (node, off)) = (next, true) ∧ next.mmap.length ≤ m.vm.mmap.length + 1 ∧ Only node next := by
    cases back : p.back with
    | none =>
      obtain ⟨next, inserted, length, files⟩ :=
        insertRegion_room ⟨bias + p.first, (p.last - p.first) / PAGE, p.prot, 0, 0⟩ room
      refine ⟨next, inserted, length, ?_⟩
      unfold Only
      rw [files]
      exact only
    | some off =>
      obtain ⟨kept, found, same, keptOnly⟩ := mappedFileSlot_only only
      rw [← same] at room
      obtain ⟨next, inserted, length, files⟩ :=
        insertRegion_room ⟨bias + p.first, (p.last - p.first) / PAGE, p.prot, 1, off / PAGE⟩ room
      rw [same] at length
      refine ⟨next, ?_, length, ?_⟩
      · simp only [Vm.mmapAdd, Vm.addRegion, Option.map_some, found]
        exact inserted
      · unfold Only
        rw [files]
        exact keptOnly
  obtain ⟨next, added, length, nextOnly⟩ := added
  unfold Mapped.add
  rw [added]
  exact ⟨Bool.and_true _, length, nextOnly⟩

theorem foldl_room (only : Only node m.vm) (room : m.vm.mmap.length + ps.length ≤ MAX_MMAP_REGIONS) :
    (ps.foldl (Mapped.add node bias) m).ok = m.ok := by
  induction ps generalizing m with
  | nil => rfl
  | cons p ps ih =>
    rw [List.length_cons] at room
    obtain ⟨ok, length, nextOnly⟩ := @add_room node bias m p only (by omega)
    rw [List.foldl_cons, ih nextOnly (by omega), ok]

theorem vacant_of_cover {vm : Vm} (ok : vm.Ok) {first last : Nat} (nonempty : first < last)
    (free : ∀ a, first ≤ a → a < last → cover vm.mmap a = 0) : Vacant vm.mmap first last := by
  intro r member
  by_contra meets
  rw [not_or, not_le, not_le] at meets
  have placed := ok.laid.placed r member
  have nonempty' := placed.va_lt_end
  have zero := free (max r.va first) (le_max_right _ _) (max_lt meets.2 nonempty)
  apply List.countP_eq_zero.mp zero r member
  rw [contains, ← placed.end_eq]
  exact decide_eq_true ⟨le_max_left _ _, max_lt nonempty' meets.1⟩

theorem foldl_maps (vmOk : m.vm.Ok) (aligned : PAGE ∣ bias) (whole : ∀ p ∈ ps, p.Whole bias)
    (once : ∀ a, cover m.vm.mmap (bias + a) + ps.countP (Piece.holds a) ≤ 1)
    (ok : (ps.foldl (Mapped.add node bias) m).ok = true) :
    (ps.foldl (Mapped.add node bias) m).vm.Ok ∧ ∀ v p f, (ps.foldl (Mapped.add node bias) m).vm.Maps v p f ↔
      (∃ q ∈ ps, Vm.New (bias + q.first) ((q.last - q.first) / PAGE) q.prot (q.back.map fun off => (node, off)) v p f) ∨
        m.vm.Maps v p f := by
  induction ps generalizing m with
  | nil =>
    refine ⟨vmOk, fun v p f => ⟨.inr, ?_⟩⟩
    rintro (⟨q, member, _⟩ | old)
    · cases member
    · exact old
  | cons p ps ih =>
    have here := whole p (.head _)
    have nonempty := here.nonempty
    have window := here.window
    have pages := here.pages
    have limit : USER_WINDOW = 2 ^ 39 := rfl
    have largest : USIZE_MAX = 2 ^ 64 - 1 := rfl
    have first : (m.add node bias p).ok = true := foldl_ok_before ok
    obtain ⟨_, next, added, same⟩ := add_ok_before first
    have positive : 0 < (p.last - p.first) / PAGE := by
      rcases Nat.eq_zero_or_pos ((p.last - p.first) / PAGE) with zero | positive
      · rw [zero] at pages
        omega
      · exact positive
    have free : ∀ a, bias + p.first ≤ a → a < bias + p.last → cover m.vm.mmap a = 0 := by
      intro a lower upper
      have total := once (a - bias)
      have held : p.holds (a - bias) = true := decide_eq_true ⟨by omega, by omega⟩
      rw [List.countP_cons, if_pos held, Nat.add_sub_cancel' (by omega)] at total
      omega
    have vacant : Vacant m.vm.mmap (bias + p.first) (bias + p.first + (p.last - p.first) / PAGE * PAGE) := by
      rw [pages, Nat.add_assoc, Nat.add_sub_cancel' nonempty.le]
      exact vacant_of_cover vmOk (by omega) free
    obtain ⟨nextOk, maps⟩ := Vm.addRegion_true vmOk positive (Nat.dvd_add aligned here.alignedFirst)
      (by rw [pages]; omega) vacant added
    have once : ∀ a, cover (m.add node bias p).vm.mmap (bias + a) + ps.countP (Piece.holds a) ≤ 1 := by
      intro a
      have total := once a
      rw [cover_add here first]
      rw [List.countP_cons] at total
      cases held : p.holds a with
      | true =>
        rw [if_pos held] at total
        rw [Bool.toNat_true]
        omega
      | false =>
        rw [Bool.toNat_false]
        omega
    obtain ⟨lastOk, all⟩ := ih (same ▸ nextOk) (fun q member => whole q (.tail _ member)) once ok
    refine ⟨lastOk, fun v prot f => ?_⟩
    rw [List.foldl_cons, all, same, maps, ← or_assoc]
    refine or_congr_left ?_
    simp only [List.mem_cons, exists_eq_or_imp]
    exact or_comm

section Segments

variable {segs : List LoadSegment}

theorem foldl_place (m : Mapped) : segs.foldl (place node bias) m =
    { (segs.flatMap pieces).foldl (Mapped.add node bias) m with
      fills := segs.reverse.flatMap (fillOf bias) ++ m.fills } := by
  induction segs generalizing m with
  | nil => rfl
  | cons seg segs ih =>
    have first : place node bias m seg =
        { (pieces seg).foldl (Mapped.add node bias) m with fills := fillOf bias seg ++ m.fills } :=
      foldl_fills (pieces seg) (fillOf bias seg ++ m.fills) m
    have rest : (segs.flatMap pieces).foldl (Mapped.add node bias) (place node bias m seg) = _ :=
      first ▸ foldl_fills (segs.flatMap pieces) (fillOf bias seg ++ m.fills) ((pieces seg).foldl (Mapped.add node bias) m)
    have fills : (place node bias m seg).fills = fillOf bias seg ++ m.fills := by rw [first]
    rw [List.foldl_cons, ih, rest, fills, List.flatMap_cons, List.foldl_append, List.reverse_cons,
      List.flatMap_append, List.append_assoc, List.flatMap_singleton]

def inPages (a : Nat) (seg : LoadSegment) : Bool := decide (lo seg ≤ a ∧ a < memEnd seg)

def Apart (s t : LoadSegment) : Prop := ∀ a, ¬ (inPages a s = true ∧ inPages a t = true)

instance : Std.Symm Apart := ⟨fun _ _ apart a both => apart a both.symm⟩

theorem countP_flatMap_pieces (fits : ∀ seg ∈ segs, seg.filesz ≤ seg.memsz) (a : Nat) :
    (segs.flatMap pieces).countP (Piece.holds a) = segs.countP (inPages a) := by
  induction segs with
  | nil => rfl
  | cons seg segs ih =>
    rw [List.flatMap_cons, List.countP_append, countP_pieces (fits seg (.head _)),
      ih fun seg member => fits seg (.tail _ member), List.countP_cons, ← inPages]
    cases inPages a seg with
    | true => exact Nat.add_comm _ _
    | false => exact Nat.zero_add _

theorem pairwise_forall {α ι : Type*} {R : ι → α → α → Prop} {l : List α} (each : ∀ i, l.Pairwise (R i)) :
    l.Pairwise fun a b => ∀ i, R i a b := by
  induction l with
  | nil => exact .nil
  | cons a l ih =>
    refine List.pairwise_cons.mpr ⟨fun b member i => ?_, ih fun i => (each i).of_cons⟩
    exact (List.pairwise_cons.mp (each i)).1 b member

theorem apart_iff : segs.Pairwise Apart ↔ ∀ a, segs.countP (inPages a) ≤ 1 := by
  constructor
  · intro apart a
    exact (pairwise_iff_countP_le_one (inPages a) segs).mp (apart.imp fun both => both a)
  · intro once
    exact pairwise_forall fun a => (pairwise_iff_countP_le_one (inPages a) segs).mpr (once a)

theorem Apart.same (apart : segs.Pairwise Apart) {s t : LoadSegment} (left : s ∈ segs) (right : t ∈ segs) {a : Nat}
    (here : inPages a s = true) (there : inPages a t = true) : s = t := by
  by_contra other
  exact apart.forall left right other a ⟨here, there⟩

theorem flatMap_pieces_whole (fits : ∀ seg ∈ segs, Fits seg bias) : ∀ p ∈ segs.flatMap pieces, p.Whole bias := by
  intro p member
  obtain ⟨seg, segMember, member⟩ := List.mem_flatMap.mp member
  exact pieces_whole (fits seg segMember) p member

theorem cover_place (fits : ∀ seg ∈ segs, Fits seg bias) (ok : (segs.foldl (place node bias) empty).ok = true) (a : Nat) :
    cover (segs.foldl (place node bias) empty).vm.mmap (bias + a) = segs.countP (inPages a) := by
  rw [foldl_place] at ok ⊢
  rw [← countP_flatMap_pieces (fun seg member => (fits seg member).filesz) a]
  exact (cover_foldl (flatMap_pieces_whole fits) ok a).trans (Nat.zero_add _)

theorem place_maps (aligned : PAGE ∣ bias) (fits : ∀ seg ∈ segs, Fits seg bias) (apart : segs.Pairwise Apart)
    (ok : (segs.foldl (place node bias) empty).ok = true) :
    (segs.foldl (place node bias) empty).vm.Ok ∧ ∀ v p f, (segs.foldl (place node bias) empty).vm.Maps v p f ↔
      ∃ seg ∈ segs, ∃ q ∈ pieces seg, Vm.New (bias + q.first) ((q.last - q.first) / PAGE) q.prot
        (q.back.map fun off => (node, off)) v p f := by
  rw [foldl_place] at ok ⊢
  have emptyOk : empty.vm.Ok := ⟨⟨.nil, fun _ member => by cases member⟩, Nat.zero_le _, fun _ member => by cases member⟩
  have once : ∀ a, cover empty.vm.mmap (bias + a) + (segs.flatMap pieces).countP (Piece.holds a) ≤ 1 := by
    intro a
    rw [countP_flatMap_pieces (fun seg member => (fits seg member).filesz) a]
    exact le_of_eq_of_le (Nat.zero_add _) (apart_iff.mp apart a)
  obtain ⟨vmOk, maps⟩ := foldl_maps emptyOk aligned (flatMap_pieces_whole fits) once ok
  refine ⟨vmOk, fun v p f => (maps v p f).trans ?_⟩
  constructor
  · rintro (⟨q, member, new⟩ | ⟨_, ⟨_, member, _⟩, _⟩)
    · obtain ⟨seg, segMember, member⟩ := List.mem_flatMap.mp member
      exact ⟨seg, segMember, q, member, new⟩
    · cases member
  · rintro ⟨seg, segMember, q, member, new⟩
    exact .inl ⟨q, List.mem_flatMap.mpr ⟨seg, segMember, member⟩, new⟩

end Segments

end Myos.User.MappedProgram
