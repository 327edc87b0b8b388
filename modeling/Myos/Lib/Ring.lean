import Mathlib.Data.Nat.ModEq

namespace Myos.Lib

structure Ring (α : Type*) (cap : Nat) where
  buf : Nat → α
  head : Nat
  len : Nat
  inside : head < cap
  bounded : len ≤ cap

namespace Ring

variable {α : Type*} {cap : Nat}

def empty (fill : α) (positive : 0 < cap) : Ring α cap := ⟨fun _ => fill, 0, 0, positive, Nat.zero_le _⟩

def contents (r : Ring α cap) : List α := (List.range r.len).map fun i => r.buf ((r.head + i) % cap)

@[simp] theorem length_contents (r : Ring α cap) : r.contents.length = r.len := by simp [contents]

theorem slot_ne {cap i j : Nat} (head : Nat) (before : i < j) (room : j < cap) : (head + i) % cap ≠ (head + j) % cap := by
  intro same
  have congruent : i ≡ j [MOD cap] := Nat.ModEq.add_left_cancel' head same
  rw [Nat.ModEq, Nat.mod_eq_of_lt (by omega), Nat.mod_eq_of_lt room] at congruent
  omega

theorem contents_append {r r' : Ring α cap} {data : List α} (head : r'.head = r.head) (len : r'.len = r.len + data.length)
    (kept : ∀ i < r.len, r'.buf ((r.head + i) % cap) = r.buf ((r.head + i) % cap))
    (filled : ∀ i (h : i < data.length), r'.buf ((r.head + (r.len + i)) % cap) = data[i]) :
    r'.contents = r.contents ++ data := by
  unfold contents
  rw [len, head, List.range_add, List.map_append, List.map_map]
  congr 1
  · exact List.map_congr_left fun i member => kept i (List.mem_range.mp member)
  · refine List.ext_getElem (by simp) fun i _ inside => ?_
    simpa using filled i inside

theorem contents_drop {r r' : Ring α cap} {n : Nat} (buf : r'.buf = r.buf) (head : r'.head = (r.head + n) % cap)
    (len : r'.len = r.len - n) : r'.contents = r.contents.drop n := by
  refine List.ext_getElem (by simp [len]) fun i _ _ => ?_
  simp [contents, buf, head, Nat.add_assoc]

end Ring
end Myos.Lib
