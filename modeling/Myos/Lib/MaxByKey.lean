namespace Myos.Lib

variable {α : Type} {key : α → Nat}

def maxByKey (key : α → Nat) : List α → Option α
  | [] => none
  | x :: xs => some (xs.foldl (fun best y => if key best ≤ key y then y else best) x)

theorem foldl_best_mem (xs : List α) (x : α) :
    xs.foldl (fun best y => if key best ≤ key y then y else best) x ∈ x :: xs := by
  induction xs generalizing x with
  | nil => exact .head _
  | cons y xs ih =>
    rw [List.foldl_cons]
    rcases List.mem_cons.mp (ih (if key x ≤ key y then y else x)) with same | member
    · rw [same]
      split <;> simp
    · exact List.mem_cons_of_mem _ (.tail _ member)

theorem le_foldl_best (xs : List α) (x : α) :
    ∀ y ∈ x :: xs, key y ≤ key (xs.foldl (fun best y => if key best ≤ key y then y else best) x) := by
  induction xs generalizing x with
  | nil => simp
  | cons z xs ih =>
    intro y member
    rw [List.foldl_cons]
    by_cases longer : key x ≤ key z
    · rw [if_pos longer]
      rcases List.mem_cons.mp member with rfl | member
      · exact Nat.le_trans longer (ih z z (.head _))
      · exact ih z y member
    rw [if_neg longer]
    rcases List.mem_cons.mp member with rfl | member
    · exact ih y y (.head _)
    · rcases List.mem_cons.mp member with rfl | member
      · exact Nat.le_trans (by omega) (ih x x (.head _))
      · exact ih x y (.tail _ member)

theorem maxByKey_some {xs : List α} {x : α} (found : maxByKey key xs = some x) :
    x ∈ xs ∧ ∀ y ∈ xs, key y ≤ key x := by
  cases xs with
  | nil => cases found
  | cons y xs =>
    cases found
    exact ⟨foldl_best_mem xs y, le_foldl_best xs y⟩

theorem maxByKey_isSome (key : α → Nat) {xs : List α} {x : α} (member : x ∈ xs) : ∃ best, maxByKey key xs = some best := by
  cases xs with
  | nil => cases member
  | cons y xs => exact ⟨_, rfl⟩

end Myos.Lib
