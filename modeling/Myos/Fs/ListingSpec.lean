import Myos.Fs.Listing

namespace Myos.Fs
open Myos.Sec (Name)

def text (names : List Name) : List UInt8 := names.flatMap (· ++ [NL])

def size (names : List Name) : Nat := (names.map fun name => name.length + 1).sum

variable {names : List Name} {cap : Nat}

theorem text_cons (name : Name) (rest : List Name) : text (name :: rest) = name ++ [NL] ++ text rest := by
  simp [text]

theorem text_length (names : List Name) : (text names).length = size names := by
  simp [text, size, List.length_flatMap]

theorem getLast?_text {names : List Name} (nonempty : names ≠ []) : (text names).getLast? = some NL := by
  obtain ⟨init, last, rfl⟩ := List.eq_nil_or_concat names |>.resolve_left nonempty
  simp [text]

theorem splitOn_append_line (line rest : List UInt8) (whole : NL ∉ line) :
    (line ++ [NL] ++ rest).splitOn NL = line :: rest.splitOn NL := by
  have single : List.splitOnP (· == NL) line = [line] :=
    List.splitOnP_eq_singleton fun b member => by
      rw [beq_eq_false_iff_ne]
      rintro rfl
      exact whole member
  rw [List.append_assoc, List.singleton_append, List.splitOn,
    List.splitOnP_append_cons (p := fun b => b == NL) line rest (beq_self_eq_true NL), single]
  rfl

theorem splitOn_text (whole : ∀ name ∈ names, NL ∉ name) : (text names).splitOn NL = names ++ [[]] := by
  induction names with
  | nil => rfl
  | cons name rest ih =>
    rw [text_cons, splitOn_append_line _ _ (whole name (.head _)),
      ih fun other member => whole other (.tail _ member)]
    rfl

theorem readNames_text (whole : ∀ name ∈ names, NL ∉ name) : readNames (text names) = names.filter fun name => name ≠ [] := by
  simp [readNames, splitOn_text whole]

theorem writeNames_spec (cap : Nat) (out : List UInt8) (names : List Name) :
    ∃ written left, names = written ++ left ∧ writeNames cap out names = out ++ text written ∧
      ∀ name rest, left = name :: rest → cap < out.length + size written + (name.length + 1) := by
  induction names generalizing out with
  | nil => exact ⟨[], [], rfl, by simp [writeNames, text], nofun⟩
  | cons name rest ih =>
    rw [writeNames]
    split
    · rename_i isOver
      refine ⟨[], name :: rest, rfl, by simp [text], ?_⟩
      rintro _ _ ⟨⟩
      simpa [size] using isOver
    obtain ⟨written, left, rfl, wrote, next⟩ := ih (out ++ (name ++ [NL]))
    refine ⟨name :: written, left, rfl, ?_, fun other others isNext => ?_⟩
    · rw [wrote, text_cons, List.append_assoc]
    · have := next other others isNext
      simp only [size, List.length_append, List.length_singleton, List.map_cons, List.sum_cons] at this ⊢
      omega

theorem writeNames_length_le (cap : Nat) {out : List UInt8} (names : List Name) (fits : out.length ≤ cap) :
    (writeNames cap out names).length ≤ cap := by
  induction names generalizing out with
  | nil => exact fits
  | cons name rest ih =>
    rw [writeNames]
    split
    · exact fits
    · refine ih ?_
      simp only [List.length_append, List.length_singleton]
      omega

theorem mergeNames_length_le (stops : Bool) (cap : Nat) {out : List UInt8} (names : List Name) (fits : out.length ≤ cap) :
    (mergeNames stops cap out names).length ≤ cap := by
  induction names generalizing out with
  | nil => exact fits
  | cons name rest ih =>
    rw [mergeNames]
    split
    · exact ih fits
    split
    · split
      · exact fits
      · exact ih fits
    · refine ih ?_
      simp only [List.length_append, List.length_singleton]
      omega

theorem keepLine_length_le (line : List UInt8) : (keepLine line).length ≤ line.length := by
  unfold keepLine
  split <;> simp

theorem dropHidden_length_le (line rest : List UInt8) : (dropHidden line rest).length ≤ line.length + rest.length := by
  induction rest generalizing line with
  | nil => exact keepLine_length_le line
  | cons b rest ih =>
    rw [dropHidden, List.length_cons]
    split
    · have kept := keepLine_length_le (line ++ [b])
      have others := ih []
      simp only [List.length_append, List.length_singleton, List.length_nil] at kept others ⊢
      omega
    · have := ih (line ++ [b])
      simp only [List.length_append, List.length_singleton] at this
      omega

theorem withoutHidden_length_le (out : List UInt8) : (withoutHidden out).length ≤ out.length := by
  unfold withoutHidden
  split
  · simpa using dropHidden_length_le [] out
  · exact Nat.le_refl _

theorem length_splitOn_le (out : List UInt8) : (out.splitOn NL).length ≤ out.length + 1 := by
  rw [List.splitOn]
  induction out with
  | nil => simp
  | cons b rest ih =>
    rw [List.splitOnP_cons_eq_if_modifyHead, List.length_cons]
    split
    · rw [List.length_cons]
      omega
    · rw [List.length_modifyHead]
      omega

theorem readNames_length_le (out : List UInt8) : (readNames out).length ≤ out.length + 1 :=
  Nat.le_trans (List.length_filter_le ..) (length_splitOn_le out)

theorem dropHidden_line (line rest : List UInt8) (whole : NL ∉ line) (start : List UInt8) :
    dropHidden start (line ++ [NL] ++ rest) = keepLine (start ++ (line ++ [NL])) ++ dropHidden [] rest := by
  induction line generalizing start with
  | nil => simp [dropHidden]
  | cons b line ih =>
    rw [List.mem_cons, not_or] at whole
    rw [List.cons_append, List.cons_append, dropHidden, if_neg (Ne.symm whole.1), ih whole.2]
    simp

theorem dropHidden_text (whole : ∀ name ∈ names, NL ∉ name) :
    dropHidden [] (text names) = text (names.filter fun name => 0 ∉ name) := by
  induction names with
  | nil => rfl
  | cons name rest ih =>
    have others := ih fun other member => whole other (.tail _ member)
    rw [text_cons, dropHidden_line _ _ (whole name (.head _)), others, List.filter_cons]
    by_cases hidden : 0 ∈ name
    · simp [keepLine, hidden]
    · simp [keepLine, hidden, text_cons, NL]

theorem mem_text {b : UInt8} (other : b ≠ NL) : b ∈ text names ↔ ∃ name ∈ names, b ∈ name := by
  simp [text, other]

theorem withoutHidden_text (whole : ∀ name ∈ names, NL ∉ name) :
    withoutHidden (text names) = text (names.filter fun name => 0 ∉ name) := by
  unfold withoutHidden
  split
  · exact dropHidden_text whole
  rename_i missing
  rw [mem_text (by decide)] at missing
  rw [List.filter_eq_self.mpr]
  intro name member
  have : ¬(0 : UInt8) ∈ name := fun hidden => missing ⟨name, member, hidden⟩
  simpa using this

end Myos.Fs
