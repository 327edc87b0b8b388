import Mathlib.Data.List.AList

namespace Myos.Lib

abbrev Table (κ ν : Type*) := AList (fun _ : κ => ν)

namespace Table

variable {κ ν : Type*}

def count (table : Table κ ν) (pick : κ → ν → Bool) : Nat :=
  table.entries.countP fun entry => pick entry.1 entry.2

variable [DecidableEq κ]

def weight (table : Table κ ν) (pick : κ → ν → Bool) (key : κ) : Nat :=
  ((table.lookup key).map fun value => (pick key value).toNat).getD 0

variable {table : Table κ ν} {key other : κ} {value found : ν}

theorem weight_of_some (pick : κ → ν → Bool) (found : table.lookup key = some value) :
    table.weight pick key = (pick key value).toNat := by
  simp [weight, found]

theorem weight_of_none (pick : κ → ν → Bool) (missing : table.lookup key = none) : table.weight pick key = 0 := by
  simp [weight, missing]

private theorem countP_kerase (pick : κ → ν → Bool) (key : κ) (entries : List (Sigma fun _ : κ => ν)) :
    (entries.kerase key).countP (fun entry => pick entry.1 entry.2) +
      ((entries.dlookup key).map fun value => (pick key value).toNat).getD 0 =
    entries.countP fun entry => pick entry.1 entry.2 := by
  induction entries with
  | nil => rfl
  | cons entry rest ih =>
    obtain ⟨head, value⟩ := entry
    by_cases same : key = head
    · subst same
      cases h : pick key value <;> simp [h]
    · rw [List.kerase_cons_ne same, List.dlookup_cons_ne _ _ same]
      simp only [List.countP_cons]
      omega

theorem count_erase (table : Table κ ν) (pick : κ → ν → Bool) (key : κ) :
    count (table.erase key) pick + table.weight pick key = table.count pick :=
  countP_kerase pick key table.entries

theorem count_insert (table : Table κ ν) (pick : κ → ν → Bool) (key : κ) (value : ν) :
    count (table.insert key value) pick + table.weight pick key =
      table.count pick + (pick key value).toNat := by
  rw [← count_erase table pick key]
  unfold count
  rw [AList.entries_insert, List.countP_cons]
  have erased : (table.erase key).entries = table.entries.kerase key := rfl
  rw [erased]
  cases pick key value
  · simp
  · simp only [Bool.toNat_true, if_true]
    omega

variable {pick : κ → ν → Bool}

theorem count_pos_iff :
    0 < table.count pick ↔ ∃ key value, table.lookup key = some value ∧ pick key value = true := by
  rw [count, List.countP_pos_iff]
  constructor
  · rintro ⟨⟨key, value⟩, member, picked⟩
    exact ⟨key, value, AList.mem_lookup_iff.mpr member, picked⟩
  · rintro ⟨key, value, found, picked⟩
    exact ⟨⟨key, value⟩, AList.mem_lookup_iff.mp found, picked⟩

theorem count_eq_zero_iff :
    table.count pick = 0 ↔ ∀ key value, table.lookup key = some value → pick key value = false := by
  constructor
  · intro missing key value found
    by_contra picked
    have positive : 0 < table.count pick := count_pos_iff.mpr ⟨key, value, found, Bool.not_eq_false _ ▸ picked⟩
    omega
  intro noneLeft
  by_contra some
  obtain ⟨key, value, found, picked⟩ := count_pos_iff.mp (Nat.pos_of_ne_zero some)
  rw [noneLeft key value found] at picked
  cases picked

theorem any_keys_iff {pick : ν → Bool} :
    (table.keys.any fun key => (table.lookup key).any pick) = true ↔
      ∃ key value, table.lookup key = some value ∧ pick value = true := by
  rw [List.any_eq_true]
  constructor
  · rintro ⟨key, _, picked⟩
    obtain ⟨value, found, picked⟩ := Option.any_eq_true .. |>.mp picked
    exact ⟨key, value, found, picked⟩
  rintro ⟨key, value, found, picked⟩
  refine ⟨key, AList.mem_keys.mp (AList.lookup_isSome.mp (Option.isSome_of_eq_some found)), ?_⟩
  rw [found]
  exact picked

theorem update_some {f : κ → Option ν} {value : Option ν} (lookup : Function.update f key value other = some found) :
    other = key ∧ value = some found ∨ other ≠ key ∧ f other = some found := by
  by_cases same : other = key
  · subst same
    rw [Function.update_self] at lookup
    exact .inl ⟨rfl, lookup⟩
  · exact .inr ⟨same, (Function.update_of_ne same ..).symm.trans lookup⟩

theorem changed_some {changed : Table κ ν} {value : Option ν} (here : changed.lookup key = value)
    (there : ∀ other, other ≠ key → changed.lookup other = table.lookup other) (lookup : changed.lookup other = some found) :
    other = key ∧ value = some found ∨ other ≠ key ∧ table.lookup other = some found := by
  by_cases same : other = key
  · subst same
    exact .inl ⟨rfl, here.symm.trans lookup⟩
  · exact .inr ⟨same, (there other same).symm.trans lookup⟩

theorem lookup_insert_some (lookup : (table.insert key value).lookup other = some found) :
    other = key ∧ value = found ∨ other ≠ key ∧ table.lookup other = some found :=
  (changed_some (AList.lookup_insert table) (fun _ => AList.lookup_insert_ne) lookup).imp_left (.imp_right Option.some.inj)

theorem lookup_erase_some (lookup : (table.erase key).lookup other = some found) :
    other ≠ key ∧ table.lookup other = some found :=
  (changed_some (AList.lookup_erase key table) (fun _ => AList.lookup_erase_ne) lookup).resolve_left fun gone =>
    Option.some_ne_none _ gone.2.symm

def adjust (table : Table κ ν) (key : κ) (change : ν → Option ν) : Table κ ν :=
  match table.lookup key with
  | none => table
  | some value =>
    match change value with
    | some value => table.insert key value
    | none => table.erase key

@[simp] theorem lookup_adjust (table : Table κ ν) (key : κ) (change : ν → Option ν) :
    (table.adjust key change).lookup key = (table.lookup key).bind change := by
  unfold adjust
  cases found : table.lookup key with
  | none => exact found
  | some value =>
    cases changed : change value with
    | none => simp [changed]
    | some after => simp [changed]

theorem lookup_adjust_ne (apart : other ≠ key) (change : ν → Option ν) :
    (table.adjust key change).lookup other = table.lookup other := by
  unfold adjust
  split
  · rfl
  · split
    · exact AList.lookup_insert_ne apart
    · exact AList.lookup_erase_ne apart

theorem lookup_adjust_some {change : ν → Option ν}
    (lookup : (table.adjust key change).lookup other = some found) :
    (other = key ∧ ∃ value, table.lookup key = some value ∧ change value = some found) ∨
      other ≠ key ∧ table.lookup other = some found :=
  (changed_some (lookup_adjust ..) (fun _ apart => lookup_adjust_ne apart change) lookup).imp_left
    (.imp_right Option.bind_eq_some_iff.mp)

def free (table : Table κ ν) (keys : List κ) : Option κ := keys.find? fun key => (table.lookup key).isNone

theorem lookup_free {keys : List κ} (found : table.free keys = some key) :
    table.lookup key = none := Option.isNone_iff_eq_none.mp (by simpa using List.find?_some found)

def sift (table : Table κ ν) (pick : κ → ν → Bool) : Table κ ν where
  entries := table.entries.filter fun entry => pick entry.1 entry.2
  nodupKeys := table.nodupKeys.sublist List.filter_sublist

theorem lookup_sift :
    (table.sift pick).lookup key = some value ↔ table.lookup key = some value ∧ pick key value = true := by
  have member (kept : Table κ ν) : kept.lookup key = some value ↔ ⟨key, value⟩ ∈ kept.entries :=
    AList.mem_lookup_iff
  rw [member, member, sift, List.mem_filter]

def put (table : Table κ ν) (key : κ) : Option ν → Table κ ν
  | some value => table.insert key value
  | none => table.erase key

theorem lookup_put (table : Table κ ν) (key : κ) (value : Option ν) : (table.put key value).lookup key = value := by
  cases value with
  | some value => exact AList.lookup_insert _
  | none => exact AList.lookup_erase ..

theorem lookup_put_ne (apart : other ≠ key) (value : Option ν) :
    (table.put key value).lookup other = table.lookup other := by
  cases value with
  | some value => exact AList.lookup_insert_ne apart
  | none => exact AList.lookup_erase_ne apart

theorem lookup_put_some {value : Option ν} (lookup : (table.put key value).lookup other = some found) :
    other = key ∧ value = some found ∨ other ≠ key ∧ table.lookup other = some found :=
  changed_some (lookup_put ..) (fun _ apart => lookup_put_ne apart value) lookup

theorem count_put (table : Table κ ν) (pick : κ → ν → Bool) (key : κ) (value : Option ν) :
    count (table.put key value) pick + table.weight pick key =
    table.count pick + (value.map fun v => (pick key v).toNat).getD 0 := by
  cases value with
  | some value => exact count_insert ..
  | none => exact count_erase ..

theorem eq_of_count_le_one {value' : ν} (few : table.count pick ≤ 1)
    (found : table.lookup key = some value) (picked : pick key value = true) (found' : table.lookup other = some value')
    (picked' : pick other value' = true) : other = key := by
  by_contra apart
  have rest : 0 < count (table.erase key) pick :=
    count_pos_iff.mpr ⟨other, value', (AList.lookup_erase_ne apart).trans found', picked'⟩
  have whole := count_erase table pick key
  rw [weight_of_some pick found, picked, Bool.toNat_true] at whole
  omega

def mapValues (table : Table κ ν) (f : ν → ν) : Table κ ν where
  entries := table.entries.map (Sigma.map id fun _ => f)
  nodupKeys := by
    have keys := table.nodupKeys
    unfold List.NodupKeys List.keys at keys ⊢
    rwa [List.map_map]

theorem lookup_mapValues (table : Table κ ν) (f : ν → ν) (key : κ) : (table.mapValues f).lookup key = (table.lookup key).map f :=
  List.dlookup_map₂ key

omit [DecidableEq κ] in
theorem count_mapValues {f : ν → ν} (same : ∀ key value, pick key (f value) = pick key value) :
    (table.mapValues f).count pick = table.count pick := by
  unfold count mapValues
  rw [List.countP_map]
  congr 1
  funext entry
  exact same _ _

end Table
end Myos.Lib
