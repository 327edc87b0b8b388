import Myos.Task.VmTable

namespace Myos.Task

variable {mmap : List MmapRegion} {a b : MmapRegion}

theorem joinable_iff : joinable a b = true ↔ a.prot = b.prot ∧ a.file = b.file ∧
    (a.file = 0 ∨ a.fpage + a.pages = b.fpage) ∧ a.va + a.pages * PAGE = b.va := by
  simp [joinable, and_assoc]

def join (a b : MmapRegion) : MmapRegion := { a with pages := a.pages + b.pages }

theorem join_end (joins : joinable a b = true) : regionEnd (join a b) = regionEnd b := by
  have adjacent := (joinable_iff.mp joins).2.2.2
  have total : a.va + (a.pages + b.pages) * PAGE = b.va + b.pages * PAGE := by
    rw [← adjacent, Nat.add_mul, Nat.add_assoc]
  simp only [regionEnd, join, total]

section Join

variable (aPlaced : a.Placed) (bPlaced : b.Placed) (joins : joinable a b = true)
include aPlaced bPlaced joins

theorem join_placed : (join a b).Placed := by
  have adjacent := (joinable_iff.mp joins).2.2.2
  refine ⟨Nat.add_pos_left aPlaced.pages _, aPlaced.aligned, ?_⟩
  have bounded := bPlaced.bounded
  simp only [join, Nat.add_mul]
  omega

theorem join_covers (va : Nat) (x : PageEntry) : Covers [join a b] va x ↔ Covers [a, b] va x := by
  obtain ⟨prot, file, offset, adjacent⟩ := joinable_iff.mp joins
  have aEnd := aPlaced.end_eq
  have contains : (join a b).Contains va ↔ a.Contains va ∨ b.Contains va := by
    have := bPlaced.va_lt_end
    simp only [MmapRegion.Contains, join_end joins]
    simp only [join]
    omega
  have entryB : b.Contains va → (join a b).entry va = b.entry va := by
    intro inside
    simp only [MmapRegion.entry, join, prot, file, Prod.mk.injEq, true_and]
    rcases offset with anonymous | offset
    · simp [← file, anonymous]
    split
    · have := inside.1
      have shifted : (va - a.va) / PAGE = a.pages + (va - b.va) / PAGE := by
        rw [show va - a.va = va - b.va + a.pages * PAGE by omega, Nat.add_mul_div_right _ _ (by decide)]
        omega
      omega
    · rfl
  simp only [Covers, List.mem_cons, List.not_mem_nil, or_false, exists_eq_left, contains, exists_eq_or_imp]
  constructor
  · rintro ⟨inside | inside, same⟩
    · exact .inl ⟨inside, same⟩
    · exact .inr ⟨inside, (entryB inside).symm.trans same⟩
  · rintro (⟨inside, same⟩ | ⟨inside, same⟩)
    · exact ⟨.inl inside, same⟩
    · exact ⟨.inr inside, (entryB inside).trans same⟩

end Join

theorem Covers.cons {r : MmapRegion} {va : Nat} {x : PageEntry} :
    Covers (r :: mmap) va x ↔ Covers [r] va x ∨ Covers mmap va x := by
  rw [← Covers.append]
  rfl

theorem coalesceFrom_spec {a : MmapRegion} (laid : Laid (a :: mmap)) :
    Laid (coalesceFrom a mmap) ∧ (∀ s ∈ coalesceFrom a mmap, a.va ≤ s.va) ∧
      ∀ va x, Covers (coalesceFrom a mmap) va x ↔ Covers (a :: mmap) va x := by
  induction mmap generalizing a with
  | nil => exact ⟨laid, by simp [coalesceFrom], fun _ _ => Iff.rfl⟩
  | cons b rest ih =>
    have aPlaced := laid.placed a (.head _)
    have bPlaced := laid.placed b (by simp)
    have restLaid : Laid (b :: rest) := laid.sublist (List.sublist_cons_self _ _)
    have order := List.rel_of_pairwise_cons laid.sorted (.head _)
    have := aPlaced.va_lt_end
    unfold coalesceFrom
    split
    · rename_i joins
      have joined : Laid (join a b :: rest) := by
        refine ⟨List.pairwise_cons.mpr ⟨?_, (List.pairwise_cons.mp restLaid.sorted).2⟩, ?_⟩
        · intro r member
          rw [join_end joins]
          exact List.rel_of_pairwise_cons restLaid.sorted member
        intro r member
        rcases List.mem_cons.mp member with rfl | member
        · exact join_placed aPlaced bPlaced joins
        · exact restLaid.placed r (.tail _ member)
      obtain ⟨merged, lower, covers⟩ := ih joined
      refine ⟨merged, lower, fun va x => ?_⟩
      rw [show ({ a with pages := a.pages + b.pages } : MmapRegion) = join a b from rfl, covers, Covers.cons,
        join_covers aPlaced bPlaced joins, ← Covers.append]
      rfl
    · obtain ⟨merged, lower, covers⟩ := ih restLaid
      have lower' : ∀ s ∈ coalesceFrom b rest, regionEnd a ≤ s.va := fun s member => order.trans (lower s member)
      refine ⟨?_, ?_, fun va x => ?_⟩
      · exact (Laid.singleton aPlaced).append merged (by simpa using lower')
      · intro s member
        rcases List.mem_cons.mp member with rfl | member
        · exact le_rfl
        · have := lower' s member
          omega
      · rw [Covers.cons, covers, ← Covers.append]
        rfl

theorem coalesce_laid (laid : Laid mmap) : Laid (coalesce mmap) := by
  cases mmap with
  | nil => exact laid
  | cons a rest => exact (coalesceFrom_spec laid).1

theorem coalesce_covers (laid : Laid mmap) (va : Nat) (x : PageEntry) :
    Covers (coalesce mmap) va x ↔ Covers mmap va x := by
  cases mmap with
  | nil => exact Iff.rfl
  | cons a rest => exact (coalesceFrom_spec laid).2.2 va x

theorem coalesceFrom_length (a : MmapRegion) (mmap : List MmapRegion) :
    (coalesceFrom a mmap).length ≤ mmap.length + 1 ∧
      (mmap.length + 1 ≤ (coalesceFrom a mmap).length → coalesceFrom a mmap = a :: mmap) := by
  induction mmap generalizing a with
  | nil => exact ⟨le_rfl, fun _ => rfl⟩
  | cons b rest ih =>
    unfold coalesceFrom
    split
    · have := (ih { a with pages := a.pages + b.pages }).1
      simp only [List.length_cons]
      exact ⟨by omega, fun full => by omega⟩
    obtain ⟨shorter, full⟩ := ih b
    simp only [List.length_cons]
    refine ⟨by omega, fun long => ?_⟩
    rw [full (by omega)]

theorem coalesce_of_length (full : mmap.length ≤ (coalesce mmap).length) : coalesce mmap = mmap := by
  cases mmap with
  | nil => rfl
  | cons a rest => exact (coalesceFrom_length a rest).2 full

def Vacant (mmap : List MmapRegion) (lo hi : Nat) : Prop := ∀ r ∈ mmap, regionEnd r ≤ lo ∨ hi ≤ r.va

theorem Laid.splice {parts : List MmapRegion} {lo hi : Nat} (laid : Laid mmap) (partsLaid : Laid parts)
    (nonempty : lo < hi) (vacant : Vacant mmap lo hi) (inside : ∀ r ∈ parts, lo ≤ r.va ∧ regionEnd r ≤ hi) :
    Laid (mmap.takeWhile (fun r => r.va < lo) ++ parts ++ mmap.dropWhile fun r => r.va < lo) := by
  have below : ∀ r ∈ mmap.takeWhile (fun r => r.va < lo), regionEnd r ≤ lo := by
    intro r member
    have lower : r.va < lo := by simpa using List.mem_takeWhile_imp member
    rcases vacant r (List.takeWhile_subset _ member) with before | after
    · exact before
    · omega
  have above : ∀ r ∈ mmap.dropWhile (fun r => r.va < lo), hi ≤ r.va := by
    intro r member
    have upper := mem_dropWhile_va_of_sorted laid r member
    have := (laid.placed r ((List.dropWhile_sublist _).subset member)).va_lt_end
    rcases vacant r ((List.dropWhile_sublist _).subset member) with before | after
    · omega
    · exact after
  apply Laid.append
  · apply (laid.sublist (List.takeWhile_sublist _)).append partsLaid
    intro a aMember b bMember
    exact (below a aMember).trans (inside b bMember).1
  · exact laid.sublist (List.dropWhile_sublist _)
  intro a aMember b bMember
  have := above b bMember
  rcases List.mem_append.mp aMember with aMember | aMember
  · have := below a aMember
    omega
  · have := (inside a aMember).2
    omega

theorem Covers.splice {parts : List MmapRegion} (p : MmapRegion → Bool) {va : Nat} {x : PageEntry} :
    Covers (mmap.takeWhile p ++ parts ++ mmap.dropWhile p) va x ↔ Covers mmap va x ∨ Covers parts va x := by
  have whole : Covers mmap va x ↔ Covers (mmap.takeWhile p) va x ∨ Covers (mmap.dropWhile p) va x := by
    rw [← Covers.append, List.takeWhile_append_dropWhile]
  rw [Covers.append, Covers.append, whole]
  exact or_right_comm

theorem insertIdx_partitionPoint {α : Type*} (p : α → Bool) (l : List α) (x : α) :
    l.insertIdx (partitionPoint p l) x = l.takeWhile p ++ [x] ++ l.dropWhile p := by
  induction l with
  | nil => rfl
  | cons head rest ih =>
    by_cases holds : p head = true
    · simpa [partitionPoint, holds] using ih
    · simp [partitionPoint, holds]

theorem freeGapFrom_spec {areaHi len cand va : Nat} (laid : Laid mmap)
    (found : freeGapFrom areaHi len cand mmap = some va) :
    cand ≤ va ∧ va + len ≤ areaHi ∧ va + len ≤ USIZE_MAX ∧ Vacant mmap va (va + len) ∧
      (PAGE ∣ cand → PAGE ∣ va) := by
  induction mmap generalizing cand with
  | nil =>
    simp only [freeGapFrom] at found
    split at found <;> cases found
    exact ⟨le_rfl, by omega, by omega, by simp [Vacant], id⟩
  | cons r rest ih =>
    have restLaid := laid.sublist (List.sublist_cons_self r rest)
    have placed := laid.placed r (.head _)
    have := placed.va_lt_end
    simp only [freeGapFrom] at found
    split at found
    · obtain ⟨lower, fits, bounded, vacant, aligned⟩ := ih restLaid found
      refine ⟨lower, fits, bounded, ?_, aligned⟩
      intro s member
      rcases List.mem_cons.mp member with rfl | member
      · omega
      · exact vacant s member
    split at found
    · split at found
      · split at found <;> cases found
        refine ⟨le_rfl, by omega, by omega, ?_, id⟩
        intro s member
        rcases List.mem_cons.mp member with rfl | member
        · omega
        · have := List.rel_of_pairwise_cons laid.sorted member
          omega
      · obtain ⟨lower, fits, bounded, vacant, aligned⟩ := ih restLaid found
        refine ⟨by omega, fits, bounded, ?_, fun _ => aligned placed.end_aligned⟩
        intro s member
        rcases List.mem_cons.mp member with rfl | member
        · omega
        · exact vacant s member
    · cases found

end Myos.Task
