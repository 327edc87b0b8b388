import Mathlib.Order.MinMax
import Myos.Task.VmPages

namespace Myos.Task

variable {mmap : List MmapRegion} {lo hi : Nat}

variable {va : Nat} {x : PageEntry}

theorem Covers.flatMap {f : MmapRegion → List MmapRegion} :
    Covers (mmap.flatMap f) va x ↔ ∃ r ∈ mmap, Covers (f r) va x := by
  simp only [Covers, List.mem_flatMap]
  constructor
  · rintro ⟨s, ⟨r, member, part⟩, covered⟩
    exact ⟨r, member, s, part, covered⟩
  · rintro ⟨r, member, s, part, covered⟩
    exact ⟨s, ⟨r, member, part⟩, covered⟩

theorem Laid.flatMap {f : MmapRegion → List MmapRegion} (laid : Laid mmap) (parts : ∀ r ∈ mmap, Laid (f r))
    (within : ∀ r ∈ mmap, ∀ s ∈ f r, r.va ≤ s.va ∧ regionEnd s ≤ regionEnd r) : Laid (mmap.flatMap f) := by
  induction mmap with
  | nil => exact ⟨List.Pairwise.nil, by simp⟩
  | cons head rest ih =>
    rw [List.flatMap_cons]
    apply (parts head (.head _)).append
    · exact ih (laid.sublist (List.sublist_cons_self head rest))
        (fun r member => parts r (.tail _ member))
        (fun r member => within r (.tail _ member))
    intro a aMember b bMember
    obtain ⟨r, member, part⟩ := List.mem_flatMap.mp bMember
    have := (within head (.head _) a aMember).2
    have := List.rel_of_pairwise_cons laid.sorted member
    have := (within r (.tail _ member) b part).1
    omega

theorem Covers.singleton {r : MmapRegion} :
    Covers [r] va x ↔ r.Contains va ∧ r.entry va = x := by
  simp [Covers]

theorem Laid.singleton {r : MmapRegion} (placed : r.Placed) : Laid [r] :=
  ⟨List.pairwise_singleton _ _, by simpa using placed⟩

structure Range (lo hi : Nat) : Prop where
  nonempty : lo < hi
  alignedLower : PAGE ∣ lo
  alignedUpper : PAGE ∣ hi

section Meets

variable {r : MmapRegion} (placed : r.Placed) (range : Range lo hi) (meets : lo < regionEnd r ∧ r.va < hi)
include placed range meets

theorem part_below (cut : r.va < lo) : r.Part r.va lo :=
  ⟨le_rfl, cut, meets.1.le, placed.aligned, range.alignedLower⟩

theorem part_above (cut : hi < regionEnd r) : r.Part hi (regionEnd r) :=
  ⟨meets.2.le, cut, le_rfl, range.alignedUpper, placed.end_aligned⟩

theorem part_inside : r.Part (max r.va lo) (min (regionEnd r) hi) := by
  have := placed.va_lt_end
  have := range.nonempty
  refine ⟨le_max_left _ _, by omega, min_le_left _ _, ?_, ?_⟩
  · rcases max_choice r.va lo with same | same <;> rw [same]
    exacts [placed.aligned, range.alignedLower]
  · rcases min_choice (regionEnd r) hi with same | same <;> rw [same]
    exacts [placed.end_aligned, range.alignedUpper]

theorem leftovers_within : ∀ s ∈ leftovers lo hi r, r.va ≤ s.va ∧ regionEnd s ≤ regionEnd r ∧
    (regionEnd s ≤ lo ∨ hi ≤ s.va) := by
  intro s member
  rcases List.mem_append.mp member with member | member <;> split at member <;>
    simp only [List.mem_singleton, List.not_mem_nil] at member <;> subst member
  · rename_i cut
    have part := part_below placed range meets cut
    rw [part.piece_placed.end_eq, part.piece_end]
    exact ⟨le_rfl, part.upper, .inl le_rfl⟩
  · rename_i cut
    have part := part_above placed range meets cut
    rw [part.piece_placed.end_eq, part.piece_end]
    exact ⟨part.lower, le_rfl, .inr le_rfl⟩

theorem leftovers_laid : Laid (leftovers lo hi r) := by
  have nonempty := range.nonempty
  apply Laid.append
  · split
    · exact .singleton ((part_below placed range meets ‹_›).piece_placed)
    · exact ⟨List.Pairwise.nil, by simp⟩
  · split
    · exact .singleton ((part_above placed range meets ‹_›).piece_placed)
    · exact ⟨List.Pairwise.nil, by simp⟩
  intro a aMember b bMember
  split at aMember <;> split at bMember <;> simp only [List.mem_singleton, List.not_mem_nil] at aMember bMember
  subst aMember bMember
  have part := part_below placed range meets ‹_›
  rw [part.piece_placed.end_eq, part.piece_end]
  exact nonempty.le

omit range meets in
theorem part_covers {low high : Nat} (part : r.Part low high) (va : Nat) (x : PageEntry) :
    Covers [piece r low high] va x ↔ r.Contains va ∧ r.entry va = x ∧ low ≤ va ∧ va < high := by
  have lower := part.lower
  have upper := part.upper
  rw [Covers.singleton, part.piece_contains, MmapRegion.Contains]
  constructor
  · rintro ⟨inside, same⟩
    exact ⟨by omega, part.piece_entry placed inside.1 ▸ same, inside⟩
  · rintro ⟨_, same, inside⟩
    exact ⟨inside, (part.piece_entry placed inside.1).trans same⟩

theorem leftovers_covers (va : Nat) (x : PageEntry) :
    Covers (leftovers lo hi r) va x ↔ r.Contains va ∧ r.entry va = x ∧ ¬(lo ≤ va ∧ va < hi) := by
  have below : Covers (if r.va < lo then [piece r r.va lo] else []) va x ↔
      r.Contains va ∧ r.entry va = x ∧ va < lo := by
    split
    · rw [part_covers placed (part_below placed range meets ‹_›)]
      exact and_congr_right fun inside => by simp [inside.1]
    · simp only [Covers, List.not_mem_nil, false_and, exists_false, false_iff, MmapRegion.Contains]
      omega
  have above : Covers (if hi < regionEnd r then [piece r hi (regionEnd r)] else []) va x ↔
      r.Contains va ∧ r.entry va = x ∧ hi ≤ va := by
    split
    · rw [part_covers placed (part_above placed range meets ‹_›)]
      exact and_congr_right fun inside => by simp [inside.2]
    · simp only [Covers, List.not_mem_nil, false_and, exists_false, false_iff, MmapRegion.Contains]
      omega
  rw [leftovers, Covers.append, below, above, ← and_or_left, ← and_or_left]
  have outside : (va < lo ∨ hi ≤ va) ↔ ¬(lo ≤ va ∧ va < hi) := by omega
  rw [outside]

theorem inside_covers (va : Nat) (x : PageEntry) :
    Covers [piece r (max r.va lo) (min (regionEnd r) hi)] va x ↔
      r.Contains va ∧ r.entry va = x ∧ lo ≤ va ∧ va < hi := by
  rw [part_covers placed (part_inside placed range meets)]
  refine and_congr_right fun inside => and_congr_right fun _ => ?_
  unfold MmapRegion.Contains at inside
  omega

end Meets

theorem Covers.lt_of_below (covered : Covers mmap va x)
    (below : ∀ r ∈ mmap, regionEnd r ≤ lo) : va < lo := by
  obtain ⟨r, member, contains, -⟩ := covered
  exact lt_of_lt_of_le contains.2 (below r member)

theorem Covers.le_of_above (covered : Covers mmap va x)
    (above : ∀ r ∈ mmap, hi ≤ r.va) : hi ≤ va := by
  obtain ⟨r, member, contains, -⟩ := covered
  exact (above r member).trans contains.1

structure Carved (mmap next removed : List MmapRegion) (lo hi : Nat) : Prop where
  laid : Laid next
  removedLaid : Laid removed
  covers : ∀ va x, Covers next va x ↔ Covers mmap va x ∧ ¬(lo ≤ va ∧ va < hi)
  removedCovers : ∀ va x, Covers removed va x ↔ Covers mmap va x ∧ lo ≤ va ∧ va < hi
  outside : ∀ r ∈ next, regionEnd r ≤ lo ∨ hi ≤ r.va
  inside : ∀ r ∈ removed, lo ≤ r.va ∧ regionEnd r ≤ hi
  length : next.length ≤ MAX_MMAP_REGIONS

theorem carve_spec {next removed : List MmapRegion} (laid : Laid mmap) (range : Range lo hi)
    (carved : carve mmap lo hi = some (next, removed)) : Carved mmap next removed lo hi := by
  rw [carve_eq] at carved
  have cut := laid.cut lo hi
  generalize mmap.takeWhile (fun r => regionEnd r ≤ lo) = below at carved cut
  generalize (mmap.dropWhile fun r => regionEnd r ≤ lo).takeWhile (fun r => r.va < hi) = middle at carved cut
  generalize (mmap.dropWhile fun r => regionEnd r ≤ lo).dropWhile (fun r => r.va < hi) = above at carved cut
  simp only at carved
  split at carved
  · cases carved
  rename_i fits
  obtain ⟨rfl, rfl⟩ := carved
  obtain ⟨rfl, isBelow, isCut, isAbove⟩ := cut
  have placed : ∀ r ∈ middle, r.Placed := fun r member => laid.placed r (by simp [member])
  have belowLaid : Laid (below ++ middle) := laid.sublist (List.sublist_append_left _ _)
  have sorted := List.pairwise_append.mp laid.sorted
  have belowSorted := List.pairwise_append.mp belowLaid.sorted
  have middleLaid : Laid middle := belowLaid.sublist (List.sublist_append_right _ _)
  have aboveLaid : Laid above := laid.sublist (List.sublist_append_right _ _)
  have within := fun r member => leftovers_within (placed r member) range (isCut r member)
  have keptLaid : Laid (middle.flatMap (leftovers lo hi)) :=
    middleLaid.flatMap (fun r member => leftovers_laid (placed r member) range (isCut r member))
      (fun r member s part => ⟨(within r member s part).1, (within r member s part).2.1⟩)
  have removedEq : (middle.map fun r => piece r (max r.va lo) (min (regionEnd r) hi)) =
      middle.flatMap fun r => [piece r (max r.va lo) (min (regionEnd r) hi)] := List.map_eq_flatMap
  refine ⟨?_, ?_, ?_, ?_, ?_, ?_, ?_⟩
  · apply Laid.append
    · apply (belowLaid.sublist (List.sublist_append_left _ _)).append keptLaid
      intro a aMember b bMember
      obtain ⟨r, member, part⟩ := List.mem_flatMap.mp bMember
      exact (belowSorted.2.2 a aMember r member).trans (within r member b part).1
    · exact aboveLaid
    intro a aMember b bMember
    rcases List.mem_append.mp aMember with aMember | aMember
    · exact sorted.2.2 a (List.mem_append_left _ aMember) b bMember
    · obtain ⟨r, member, part⟩ := List.mem_flatMap.mp aMember
      exact (within r member a part).2.1.trans (sorted.2.2 r (List.mem_append_right _ member) b bMember)
  · rw [removedEq]
    apply middleLaid.flatMap
    · intro r member
      exact .singleton (part_inside (placed r member) range (isCut r member)).piece_placed
    intro r member s part
    have inside := part_inside (placed r member) range (isCut r member)
    rw [List.mem_singleton.mp part, inside.piece_placed.end_eq, inside.piece_end]
    exact ⟨inside.lower, inside.upper⟩
  · intro va x
    have kept : (∃ r ∈ middle, Covers (leftovers lo hi r) va x) ↔ Covers middle va x ∧ ¬(lo ≤ va ∧ va < hi) := by
      simp only [Covers]
      constructor
      · rintro ⟨r, member, covered⟩
        obtain ⟨contains, same, out⟩ := (leftovers_covers (placed r member) range (isCut r member) va x).mp covered
        exact ⟨⟨r, member, contains, same⟩, out⟩
      · rintro ⟨⟨r, member, contains, same⟩, out⟩
        exact ⟨r, member, (leftovers_covers (placed r member) range (isCut r member) va x).mpr ⟨contains, same, out⟩⟩
    have belowOut : Covers below va x → va < lo := fun covered => covered.lt_of_below isBelow
    have aboveOut : Covers above va x → hi ≤ va := fun covered => covered.le_of_above isAbove
    simp only [Covers.append, Covers.flatMap, kept]
    constructor
    · rintro ((covered | covered) | covered)
      · exact ⟨.inl (.inl covered), by have := belowOut covered; omega⟩
      · exact ⟨.inl (.inr covered.1), covered.2⟩
      · exact ⟨.inr covered, by have := aboveOut covered; omega⟩
    · rintro ⟨(covered | covered) | covered, out⟩
      exacts [.inl (.inl covered), .inl (.inr ⟨covered, out⟩), .inr covered]
  · intro va x
    have belowOut : Covers below va x → va < lo := fun covered => covered.lt_of_below isBelow
    have aboveOut : Covers above va x → hi ≤ va := fun covered => covered.le_of_above isAbove
    rw [removedEq]
    simp only [Covers.append, Covers.flatMap]
    constructor
    · rintro ⟨r, member, covered⟩
      obtain ⟨contains, same, into⟩ := (inside_covers (placed r member) range (isCut r member) va x).mp covered
      exact ⟨.inl (.inr ⟨r, member, contains, same⟩), into⟩
    rintro ⟨(covered | ⟨r, member, contains, same⟩) | covered, into⟩
    · exact absurd (belowOut covered) (by omega)
    · exact ⟨r, member, (inside_covers (placed r member) range (isCut r member) va x).mpr ⟨contains, same, into⟩⟩
    · exact absurd (aboveOut covered) (by omega)
  · intro r member
    rcases List.mem_append.mp member with member | member
    · rcases List.mem_append.mp member with member | member
      · exact .inl (isBelow r member)
      · obtain ⟨s, member, part⟩ := List.mem_flatMap.mp member
        exact (within s member r part).2.2
    · exact .inr (isAbove r member)
  · intro r member
    obtain ⟨s, source, rfl⟩ := List.mem_map.mp member
    have part := part_inside (placed s source) range (isCut s source)
    rw [part.piece_placed.end_eq, part.piece_end]
    exact ⟨le_max_right _ _, min_le_right _ _⟩
  · simp only [List.length_append] at fits ⊢
    omega

end Myos.Task
