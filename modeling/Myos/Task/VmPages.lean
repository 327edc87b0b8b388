import Myos.Task.Vm

namespace Myos.Task

abbrev PageEntry := Prot × Nat × Nat

namespace MmapRegion

def Contains (r : MmapRegion) (va : Nat) : Prop := r.va ≤ va ∧ va < regionEnd r

def entry (r : MmapRegion) (va : Nat) : PageEntry :=
  (r.prot, r.file, if r.file ≠ 0 then r.fpage + (va - r.va) / PAGE else 0)

structure Placed (r : MmapRegion) : Prop where
  pages : 0 < r.pages
  aligned : PAGE ∣ r.va
  bounded : r.va + r.pages * PAGE ≤ USIZE_MAX

variable {r : MmapRegion}

theorem Placed.end_eq (placed : r.Placed) : regionEnd r = r.va + r.pages * PAGE :=
  min_eq_left placed.bounded

theorem Placed.va_lt_end (placed : r.Placed) : r.va < regionEnd r := by
  rw [placed.end_eq]
  have := placed.pages
  simp only [PAGE]
  omega

theorem Placed.end_aligned (placed : r.Placed) : PAGE ∣ regionEnd r := by
  rw [placed.end_eq]
  exact Nat.dvd_add placed.aligned (Nat.dvd_mul_left _ _)

structure Part (r : MmapRegion) (a b : Nat) : Prop where
  lower : r.va ≤ a
  nonempty : a < b
  upper : b ≤ regionEnd r
  alignedLower : PAGE ∣ a
  alignedUpper : PAGE ∣ b

variable {a b : Nat}

theorem Part.piece_end (part : r.Part a b) : (piece r a b).va + (piece r a b).pages * PAGE = b := by
  have := Nat.div_mul_cancel (Nat.dvd_sub part.alignedUpper part.alignedLower)
  have := part.nonempty
  simp only [piece]
  omega

theorem Part.piece_placed (part : r.Part a b) : (piece r a b).Placed := by
  refine ⟨?_, part.alignedLower, ?_⟩
  · exact Nat.div_pos (Nat.le_of_dvd (Nat.sub_pos_of_lt part.nonempty)
      (Nat.dvd_sub part.alignedUpper part.alignedLower)) (by decide)
  · rw [part.piece_end]
    exact part.upper.trans (min_le_right _ _)

theorem Part.piece_contains (part : r.Part a b) (va : Nat) :
    (piece r a b).Contains va ↔ a ≤ va ∧ va < b := by
  rw [Contains, part.piece_placed.end_eq, part.piece_end]
  rfl

theorem Part.piece_entry (placed : r.Placed) (part : r.Part a b) {va : Nat} (lower : a ≤ va) :
    (piece r a b).entry va = r.entry va := by
  obtain ⟨q, hq⟩ := placed.aligned
  obtain ⟨p, hp⟩ := part.alignedLower
  have := part.lower
  simp only [entry, piece, PAGE] at *
  by_cases anonymous : r.file = 0
  · simp [anonymous]
  · simp only [anonymous, ne_eq, not_false_eq_true, if_true, Prod.mk.injEq, true_and]
    omega

end MmapRegion

def Covers (mmap : List MmapRegion) (va : Nat) (x : PageEntry) : Prop :=
  ∃ r ∈ mmap, r.Contains va ∧ r.entry va = x

structure Laid (mmap : List MmapRegion) : Prop where
  sorted : mmap.Pairwise fun a b => regionEnd a ≤ b.va
  placed : ∀ r ∈ mmap, r.Placed

variable {mmap : List MmapRegion}

theorem Laid.regionAt_eq_some (laid : Laid mmap) {va : Nat} {r : MmapRegion} :
    regionAt mmap va = some r ↔ r ∈ mmap ∧ r.Contains va := by
  obtain ⟨sorted, placed⟩ := laid
  induction mmap with
  | nil => simp [regionAt]
  | cons head rest ih =>
    rw [List.pairwise_cons] at sorted
    have ih := ih sorted.2 fun r member => placed r (.tail _ member)
    by_cases before : regionEnd head ≤ va
    · have shifted : regionAt (head :: rest) va = regionAt rest va := by
        simp [regionAt, partitionPoint, before]
      rw [shifted, ih, List.mem_cons]
      constructor
      · rintro ⟨member, contains⟩
        exact ⟨.inr member, contains⟩
      · rintro ⟨rfl | member, contains⟩
        · exact absurd contains.2 (by omega)
        · exact ⟨member, contains⟩
    · have first : regionAt (head :: rest) va = (some head).filter fun r => r.va ≤ va := by
        simp [regionAt, partitionPoint, before]
      rw [first, Option.filter_eq_some_iff, List.mem_cons]
      constructor
      · rintro ⟨same, lower⟩
        cases same
        exact ⟨.inl rfl, by simpa using lower, by omega⟩
      rintro ⟨rfl | member, contains⟩
      · exact ⟨rfl, by simpa using contains.1⟩
      · have := sorted.1 r member
        have := contains.1
        omega

theorem Covers.append {left right : List MmapRegion} {va : Nat} {x : PageEntry} :
    Covers (left ++ right) va x ↔ Covers left va x ∨ Covers right va x := by
  simp only [Covers, List.mem_append, or_and_right, exists_or]

theorem Laid.append {left right : List MmapRegion} (leftLaid : Laid left) (rightLaid : Laid right)
    (apart : ∀ a ∈ left, ∀ b ∈ right, regionEnd a ≤ b.va) : Laid (left ++ right) := by
  refine ⟨List.pairwise_append.mpr ⟨leftLaid.sorted, rightLaid.sorted, apart⟩, ?_⟩
  intro r member
  rcases List.mem_append.mp member with member | member
  · exact leftLaid.placed r member
  · exact rightLaid.placed r member

theorem Laid.sublist {part : List MmapRegion} (laid : Laid mmap) (sublist : part.Sublist mmap) : Laid part :=
  ⟨laid.sorted.sublist sublist, fun r member => laid.placed r (sublist.subset member)⟩

structure Cut (mmap below cut above : List MmapRegion) (lo hi : Nat) : Prop where
  split : mmap = below ++ cut ++ above
  isBelow : ∀ r ∈ below, regionEnd r ≤ lo
  isCut : ∀ r ∈ cut, lo < regionEnd r ∧ r.va < hi
  isAbove : ∀ r ∈ above, hi ≤ r.va

theorem not_of_mem_dropWhile {α : Type*} {p : α → Bool} {l : List α} (sorted : l.Pairwise fun a b => p b → p a) {x : α}
    (member : x ∈ l.dropWhile p) : ¬p x := by
  induction l with
  | nil => cases member
  | cons head rest ih =>
    rw [List.dropWhile_cons] at member
    split at member
    · exact ih sorted.of_cons member
    rename_i after
    rcases List.mem_cons.mp member with rfl | member
    · exact after
    · exact fun holds => after (List.rel_of_pairwise_cons sorted member holds)

theorem mem_dropWhile_of_sorted (laid : Laid mmap) {lo : Nat} :
    ∀ r ∈ mmap.dropWhile (fun r => regionEnd r ≤ lo), lo < regionEnd r := by
  intro r member
  have left := not_of_mem_dropWhile (laid.sorted.imp_of_mem fun {a b} _ inside before => ?_) member
  · simpa using left
  · have := (laid.placed b inside).va_lt_end
    simp only [decide_eq_true_eq]
    omega

theorem mem_dropWhile_va_of_sorted (laid : Laid mmap) {hi : Nat} :
    ∀ r ∈ mmap.dropWhile (fun r => r.va < hi), hi ≤ r.va := by
  intro r member
  have left := not_of_mem_dropWhile (laid.sorted.imp_of_mem fun {a b} inside _ before => ?_) member
  · simpa using left
  · have := (laid.placed a inside).va_lt_end
    simp only [decide_eq_true_eq]
    omega

theorem drop_partitionPoint {α : Type*} (p : α → Bool) (l : List α) : l.drop (partitionPoint p l) = l.dropWhile p := by
  have whole := congrArg (List.drop (partitionPoint p l)) (List.takeWhile_append_dropWhile (p := p) (l := l))
  exact whole.symm.trans List.drop_left

theorem take_partitionPoint {α : Type*} (p : α → Bool) (l : List α) : l.take (partitionPoint p l) = l.takeWhile p :=
  (List.prefix_iff_eq_take.mp (List.takeWhile_prefix p)).symm

theorem Laid.cut (laid : Laid mmap) (lo hi : Nat) :
    Cut mmap (mmap.takeWhile fun r => regionEnd r ≤ lo)
      ((mmap.dropWhile fun r => regionEnd r ≤ lo).takeWhile fun r => r.va < hi)
      ((mmap.dropWhile fun r => regionEnd r ≤ lo).dropWhile fun r => r.va < hi) lo hi := by
  have restLaid := laid.sublist (List.dropWhile_sublist (l := mmap) fun r => regionEnd r ≤ lo)
  refine ⟨?_, ?_, ?_, mem_dropWhile_va_of_sorted restLaid⟩
  · rw [List.append_assoc, List.takeWhile_append_dropWhile, List.takeWhile_append_dropWhile]
  · intro r member
    simpa using List.mem_takeWhile_imp member
  · intro r member
    refine ⟨mem_dropWhile_of_sorted laid r (List.takeWhile_subset _ member), ?_⟩
    simpa using List.mem_takeWhile_imp member

theorem carve_eq (mmap : List MmapRegion) (lo hi : Nat) :
    carve mmap lo hi =
      let below := mmap.takeWhile fun r => regionEnd r ≤ lo
      let cut := (mmap.dropWhile fun r => regionEnd r ≤ lo).takeWhile fun r => r.va < hi
      let above := (mmap.dropWhile fun r => regionEnd r ≤ lo).dropWhile fun r => r.va < hi
      let kept := cut.flatMap (leftovers lo hi)
      if MAX_MMAP_REGIONS < mmap.length - cut.length + kept.length then none
      else some (below ++ kept ++ above, cut.map fun r => piece r (max r.va lo) (min (regionEnd r) hi)) := by
  simp only [carve, drop_partitionPoint, take_partitionPoint, Nat.add_sub_cancel_left, ← List.drop_drop]
  rfl

end Myos.Task
