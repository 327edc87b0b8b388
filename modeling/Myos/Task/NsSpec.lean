import Myos.Task.Ns

namespace Myos.Task.Ns
open Lib Myos.Sec

theorem below_eq_some {path above rest : Path} : below path above = some rest ↔ path = above ++ rest := by
  unfold below
  split
  · rename_i isPrefix
    obtain ⟨tail, rfl⟩ := isPrefix
    simp
  rename_i elsewhere
  simp only [reduceCtorEq, false_iff]
  rintro rfl
  exact elsewhere (List.prefix_append ..)

theorem below_isSome {path above : Path} : (below path above).isSome = true ↔ above <+: path := by
  rw [Option.isSome_iff_exists]
  constructor
  · rintro ⟨rest, found⟩
    exact ⟨rest, (below_eq_some.mp found).symm⟩
  · rintro ⟨rest, same⟩
    exact ⟨rest, below_eq_some.mpr same.symm⟩

namespace Namespace
variable {n : Namespace}

theorem mem_candidates {virt : Path} {b : Binding} {rest : Path} :
    (b, rest) ∈ n.candidates virt ↔ b ∈ n.binds ∧ virt = b.target ++ rest := by
  simp only [candidates, List.mem_filterMap, Option.map_eq_some_iff, Prod.mk.injEq, below_eq_some]
  constructor
  · rintro ⟨b', member, rest', same, rfl, rfl⟩
    exact ⟨member, same⟩
  · rintro ⟨member, same⟩
    exact ⟨b, member, rest, same, rfl, rfl⟩

theorem map_eq_real {virt p : Path} (mapped : n.map virt = some (.real p)) :
    ∃ b rest, b ∈ n.binds ∧ virt = b.target ++ rest ∧ p = b.source ++ rest ∧
      ∀ c ∈ n.binds, c.target <+: virt → pathLen c.target ≤ pathLen b.target := by
  unfold map at mapped
  split at mapped
  · rename_i b rest best
    simp only [Option.some.injEq, Mapped.real.injEq] at mapped
    obtain ⟨member, longest⟩ := maxByKey_some best
    obtain ⟨isBinding, same⟩ := mem_candidates.mp member
    refine ⟨b, rest, isBinding, same, mapped.symm, fun c isOther ⟨tail, isAbove⟩ => ?_⟩
    exact longest (c, tail) (mem_candidates.mpr ⟨isOther, isAbove.symm⟩)
  · split at mapped <;> cases mapped

def Flat (n : Namespace) : Prop := ∀ b ∈ n.binds, ∀ c ∈ n.binds, b.target <+: c.target → b = c

theorem Flat.map_below (flat : n.Flat) {b : Binding} (member : b ∈ n.binds) (rest : Path) :
    n.map (b.target ++ rest) = some (.real (b.source ++ rest)) := by
  have candidate := mem_candidates.mpr ⟨member, (rfl : b.target ++ rest = b.target ++ rest)⟩
  obtain ⟨⟨c, other⟩, best⟩ := maxByKey_isSome (fun entry => pathLen entry.1.target) candidate
  obtain ⟨isBinding, same⟩ := mem_candidates.mp (maxByKey_some best).1
  have isSame : b = c := by
    rcases List.prefix_or_prefix_of_prefix (List.prefix_append b.target rest)
      (same ▸ List.prefix_append c.target other) with above | below
    · exact flat b member c isBinding above
    · exact (flat c isBinding b member below).symm
  subst isSame
  obtain rfl := List.append_cancel_left same
  rw [map, best]
  rfl

theorem map_root (source rest : Path) (rights : Rights) :
    map ⟨[⟨[], source, rights⟩]⟩ rest = some (.real (source ++ rest)) := by
  have candidate : candidates ⟨[⟨[], source, rights⟩]⟩ rest = [(⟨[], source, rights⟩, rest)] := by
    simp [candidates, below]
  rw [map, candidate]
  rfl

theorem getElem_foldl_or (binds : List Binding) (start : Rights) (i : Nat) (inside : i < 16) :
    (binds.foldl (fun r b => r ||| b.rights) start)[i] = (start[i] || binds.any fun b => b.rights[i]) := by
  induction binds generalizing start with
  | nil => simp
  | cons b binds ih =>
    rw [List.foldl_cons, ih]
    simp [Bool.or_assoc]

theorem getElem_rights (real : Path) (i : Nat) (inside : i < 16) :
    (n.rights real)[i] = true ↔ ∃ b ∈ n.binds, b.source <+: real ∧ b.rights[i] = true := by
  have start : Rights.NONE[i] = false := by simp [Rights.NONE]
  rw [rights, getElem_foldl_or, start, Bool.false_or, List.any_eq_true]
  simp only [List.mem_filter, below_isSome]
  constructor
  · rintro ⟨b, ⟨member, above⟩, set⟩
    exact ⟨b, member, above, set⟩
  · rintro ⟨b, member, above, set⟩
    exact ⟨b, ⟨member, above⟩, set⟩

end Namespace

def Names (n : Option Namespace) (p : Path) : Prop := ∀ m, n = some m → ∃ virt, m.map virt = some (.real p)

def Narrows (n m : Option Namespace) : Prop :=
  ∀ p r, Names m p → Rights.contains (nsRights m p) r = true → Names n p ∧ Rights.contains (nsRights n p) r = true

theorem Narrows.refl (n : Option Namespace) : Narrows n n := fun _ _ named granted => ⟨named, granted⟩

theorem Narrows.trans {n m k : Option Namespace} (first : Narrows n m) (second : Narrows m k) : Narrows n k := by
  intro p r named granted
  obtain ⟨named, granted⟩ := second p r named granted
  exact first p r named granted

theorem nsRights_mono (n : Option Namespace) {above p : Path} (below : above <+: p) (i : Nat) (inside : i < 16)
    (set : (nsRights n above)[i] = true) : (nsRights n p)[i] = true := by
  cases n with
  | none => exact set
  | some m =>
    obtain ⟨b, member, isAbove, granted⟩ := Namespace.getElem_rights above i inside |>.mp set
    exact (Namespace.getElem_rights p i inside).mpr ⟨b, member, isAbove.trans below, granted⟩

end Myos.Task.Ns
