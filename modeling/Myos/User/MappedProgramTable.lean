import Myos.User.MappedProgramSpec

namespace Myos.User.MappedProgram
open Lib Checked Myos.Task
open Modules.Elf hiding Node

theorem pairwise_iff_countP_le_one {α : Type*} (p : α → Bool) (l : List α) :
    l.Pairwise (fun a b => ¬ (p a = true ∧ p b = true)) ↔ l.countP p ≤ 1 := by
  induction l with
  | nil => simp
  | cons a l ih =>
    rw [List.pairwise_cons, ih, List.countP_cons]
    cases here : p a with
    | false => simp
    | true =>
      have zero_iff : l.countP p = 0 ↔ ∀ b ∈ l, ¬ p b = true := List.countP_eq_zero
      simp only [true_and, if_true]
      constructor
      · intro both
        have zero := zero_iff.mpr both.1
        omega
      · intro few
        have zero : l.countP p = 0 := by omega
        exact ⟨zero_iff.mp zero, by omega⟩

def contains (a : Nat) (r : MmapRegion) : Bool := decide (r.va ≤ a ∧ a < r.va + r.pages * PAGE)

def cover (mmap : List MmapRegion) (a : Nat) : Nat := mmap.countP (contains a)

theorem run_split {first mid last : Nat} (lower : first ≤ mid) (upper : mid ≤ last) (a : Nat) :
    (decide (first ≤ a ∧ a < mid)).toNat + (decide (mid ≤ a ∧ a < last)).toNat =
      (decide (first ≤ a ∧ a < last)).toNat := by
  have toNat (p : Prop) [Decidable p] : (decide p).toNat = if p then 1 else 0 := apply_ite Bool.toNat p true false
  simp only [toNat]
  split_ifs <;> omega

theorem cover_coalesceFrom (r : MmapRegion) (rest : List MmapRegion) (a : Nat) :
    cover (coalesceFrom r rest) a = cover (r :: rest) a := by
  induction rest generalizing r with
  | nil => rfl
  | cons s rest ih =>
    unfold coalesceFrom
    split
    · rename_i joins
      rw [ih]
      have next := (joinable_iff.mp joins).2.2.2
      have joined : (contains a r).toNat + (contains a s).toNat =
          (contains a { r with pages := r.pages + s.pages }).toNat := by
        have sum : r.va + (r.pages + s.pages) * PAGE = s.va + s.pages * PAGE := by
          rw [Nat.add_mul]
          omega
        simp only [contains]
        rw [sum, next]
        exact run_split (by omega) (by omega) a
      simp only [cover, List.countP_cons]
      cases hr : contains a r <;> cases hs : contains a s <;>
        cases hj : contains a { r with pages := r.pages + s.pages } <;> simp_all
    · simp only [cover, List.countP_cons] at ih ⊢
      rw [ih s]

theorem cover_coalesce (mmap : List MmapRegion) (a : Nat) : cover (coalesce mmap) a = cover mmap a := by
  cases mmap with
  | nil => rfl
  | cons r rest => exact cover_coalesceFrom r rest a

theorem cover_insertRegion {vm next : Vm} {region : MmapRegion} (inserted : vm.insertRegion region = (next, true))
    (a : Nat) : cover next.mmap a = cover vm.mmap a + (contains a region).toNat := by
  unfold Vm.insertRegion at inserted
  dsimp only at inserted
  split at inserted
  · cases inserted
  cases inserted
  have within : partitionPoint (fun r => decide (r.va < region.va)) vm.mmap ≤ vm.mmap.length :=
    (List.takeWhile_sublist _).length_le
  rw [cover_coalesce, cover, (List.perm_insertIdx region vm.mmap within).countP_eq, List.countP_cons]
  cases contains a region <;> rfl

theorem mappedFileSlot_mmap (vm : Vm) (node : Node) : (vm.mappedFileSlot node).1.mmap = vm.mmap := by
  unfold Vm.mappedFileSlot
  split
  · rfl
  dsimp only
  have same : (if MAX_MAPPED_FILES ≤ vm.files.length then vm.pruneFiles else vm).mmap = vm.mmap := by
    split <;> rfl
  generalize (if MAX_MAPPED_FILES ≤ vm.files.length then vm.pruneFiles else vm) = pruned at same ⊢
  split
  · exact same
  · split <;> exact same

theorem cover_mmapAdd {vm next : Vm} {va pages : Nat} {prot : Prot} {file : Option (Node × Nat)}
    (added : vm.mmapAdd va pages prot file = (next, true)) (a : Nat) :
    cover next.mmap a = cover vm.mmap a + (decide (va ≤ a ∧ a < va + pages * PAGE)).toNat := by
  unfold Vm.mmapAdd Vm.addRegion at added
  split at added
  · exact cover_insertRegion added a
  rename_i node off
  split at added
  · rename_i kept slot found
    have same : kept.mmap = vm.mmap := by rw [← mappedFileSlot_mmap vm node, found]
    rw [cover_insertRegion added a, same]
    rfl
  · cases added

variable {node : Node} {bias : Nat} {seg : LoadSegment} {m : Mapped}

structure Piece.Whole (bias : Nat) (p : Piece) : Prop where
  nonempty : p.first < p.last
  alignedFirst : PAGE ∣ p.first
  alignedLast : PAGE ∣ p.last
  window : bias + p.last ≤ USER_WINDOW
  page : ∀ off, p.back = some off → off / PAGE < 2 ^ 32

theorem Piece.Whole.pages {p : Piece} (whole : p.Whole bias) : (p.last - p.first) / PAGE * PAGE = p.last - p.first :=
  Nat.div_mul_cancel (Nat.dvd_sub whole.alignedLast whole.alignedFirst)

theorem pieces_whole (fits : Fits seg bias) : ∀ p ∈ pieces seg, p.Whole bias := by
  have order := ordered fits.filesz
  have window := fits.window
  have mem := order.mem
  have nextWhole := order.nextWhole
  have anonymous : ∀ off, (none : Option Nat) = some off → off / PAGE < 2 ^ 32 := fun _ same => by cases same
  intro p member
  rcases List.mem_append.mp member with member | member
  · rcases List.mem_append.mp member with member | member
    · split at member
      · rename_i nonempty
        cases List.mem_singleton.mp member
        refine ⟨nonempty, order.alignedLo, order.alignedWhole, by dsimp only; omega, fun off same => ?_⟩
        cases same
        rw [Nat.mod_mul_right_div_self]
        exact Nat.mod_lt _ (by decide)
      · cases member
    split at member
    · rename_i partly
      cases List.mem_singleton.mp member
      have after : next seg = wholeEnd seg + PAGE := if_pos partly
      exact ⟨Nat.lt_add_of_pos_right (by decide), order.alignedWhole, after ▸ order.alignedNext, by dsimp only; omega,
        anonymous⟩
    · cases member
  · split at member
    · rename_i nonempty
      cases List.mem_singleton.mp member
      exact ⟨nonempty, order.alignedNext, order.alignedMem, window, anonymous⟩
    · cases member

def Piece.holds (a : Nat) (p : Piece) : Bool := decide (p.first ≤ a ∧ a < p.last)

theorem countP_run (first last : Nat) (prot : Prot) (back : Option Nat) (a : Nat) :
    (if first < last then [(⟨first, last, prot, back⟩ : Piece)] else []).countP (Piece.holds a) =
      (decide (first ≤ a ∧ a < last)).toNat := by
  split
  · by_cases inside : first ≤ a ∧ a < last <;> simp [Piece.holds, inside]
  · have missed : ¬ (first ≤ a ∧ a < last) := by omega
    simp [missed]

theorem countP_pieces (fits : seg.filesz ≤ seg.memsz) (a : Nat) :
    (pieces seg).countP (Piece.holds a) = (decide (lo seg ≤ a ∧ a < memEnd seg)).toNat := by
  obtain ⟨whole, nextWhole, mem⟩ := (ordered fits).chain
  have tail : (if wholeEnd seg < fileEnd seg then
        [(⟨wholeEnd seg, wholeEnd seg + PAGE, pfToProt seg.flags, none⟩ : Piece)] else []) =
      if wholeEnd seg < next seg then [⟨wholeEnd seg, next seg, pfToProt seg.flags, none⟩] else [] := by
    unfold next
    split
    · rw [if_pos (Nat.lt_add_of_pos_right (by decide))]
    · rw [if_neg (Nat.lt_irrefl _)]
  rw [pieces, tail, List.countP_append, List.countP_append, countP_run, countP_run, countP_run]
  rw [run_split whole nextWhole, run_split (whole.trans nextWhole) mem]

theorem add_ok_before {p : Piece} (ok : (m.add node bias p).ok = true) : m.ok = true ∧
    ∃ next, m.vm.mmapAdd (bias + p.first) ((p.last - p.first) / PAGE) p.prot (p.back.map fun off => (node, off)) =
      (next, true) ∧ (m.add node bias p).vm = next := by
  have both : m.ok = true ∧ (m.vm.mmapAdd (bias + p.first) ((p.last - p.first) / PAGE) p.prot
      (p.back.map fun off => (node, off))).2 = true := Bool.and_eq_true _ _ ▸ ok
  exact ⟨both.1, _, Prod.ext rfl both.2, rfl⟩

theorem foldl_ok_before {ps : List Piece} (ok : (ps.foldl (Mapped.add node bias) m).ok = true) : m.ok = true := by
  induction ps generalizing m with
  | nil => exact ok
  | cons p ps ih => exact (add_ok_before (ih ok)).1

theorem cover_add {p : Piece} (whole : p.Whole bias) (ok : (m.add node bias p).ok = true) (a : Nat) :
    cover (m.add node bias p).vm.mmap (bias + a) = cover m.vm.mmap (bias + a) + (p.holds a).toNat := by
  obtain ⟨_, next, added, same⟩ := add_ok_before ok
  rw [same, cover_mmapAdd added, whole.pages]
  have shift : decide (bias + p.first ≤ bias + a ∧ bias + a < bias + p.first + (p.last - p.first)) = p.holds a := by
    congr 1
    exact propext ⟨fun inside => by omega, fun inside => by omega⟩
  rw [shift]

theorem cover_foldl {ps : List Piece} (whole : ∀ p ∈ ps, p.Whole bias)
    (ok : (ps.foldl (Mapped.add node bias) m).ok = true) (a : Nat) :
    cover (ps.foldl (Mapped.add node bias) m).vm.mmap (bias + a) =
      cover m.vm.mmap (bias + a) + ps.countP (Piece.holds a) := by
  induction ps generalizing m with
  | nil => rfl
  | cons p ps ih =>
    have first : (m.add node bias p).ok = true := foldl_ok_before ok
    rw [List.foldl_cons, ih (fun q member => whole q (.tail _ member)) ok,
      cover_add (whole p (.head _)) first, List.countP_cons]
    cases p.holds a <;> simp
    omega

end Myos.User.MappedProgram
