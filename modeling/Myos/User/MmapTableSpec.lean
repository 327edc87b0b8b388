import Myos.User.MmapTable

namespace Myos.User.MmapTable
open Lib Checked Myos.Task
open Machine (Arith NarrowPages)
open MappedProgram (USER_WINDOW)

def Gap (mmap : List MmapRegion) (areaLo areaHi len va : Nat) : Prop :=
  areaLo ≤ va ∧ va + len ≤ areaHi ∧ Vacant mmap va (va + len)

def Lowest (mmap : List MmapRegion) (areaLo areaHi len va : Nat) : Prop :=
  Gap mmap areaLo areaHi len va ∧ ∀ v, Gap mmap areaLo areaHi len v → va ≤ v

/-- What a call promises of the table: a failure leaves its regions, and a free search takes the lowest gap or has
none to take, unless the table is full. -/
structure Call.Good (c : Call) : Prop where
  failed : c.result = none → c.after.mmap = c.before.mmap
  lowest : ∀ areaLo areaHi pages prot file, c.op = .addFree areaLo areaHi pages prot file →
    match c.result with
    | some va => Lowest c.before.mmap areaLo areaHi (pages * PAGE) va
    | none => (∀ va, ¬ Gap c.before.mmap areaLo areaHi (pages * PAGE) va) ∨
        ∃ va, Lowest c.before.mmap areaLo areaHi (pages * PAGE) va ∧ (c.before.addRegion va pages prot file).2 = false

structure State.Refines (s : State) : Prop where
  arithmetic : s.overflowed = false
  sorted : s.p.vm.mmap.Pairwise fun a b => a.va < b.va
  disjoint : s.p.vm.mmap.Pairwise fun a b => ∀ va, ¬ (a.Contains va ∧ b.Contains va)
  length : s.p.vm.mmap.length ≤ MAX_MMAP_REGIONS
  backing : ∀ va, (Machine.mmapBacking s.p.vm va).map (Option.map fun backed => (backed.1, backed.2.1)) =
    .ok ((s.ref (va / PAGE)).map fun page => (page.1, page.2.map fun file => (file.1, file.2 * PAGE)))
  calls : ∀ c ∈ s.calls, c.Good

theorem freeGapFrom_lowest {mmap : List MmapRegion} {areaHi len cand v : Nat} (laid : Laid mmap)
    (window : areaHi ≤ USIZE_MAX) (lower : cand ≤ v) (upper : v + len ≤ areaHi) (vacant : Vacant mmap v (v + len)) :
    ∃ va, freeGapFrom areaHi len cand mmap = .some va ∧ va ≤ v := by
  induction mmap generalizing cand with
  | nil => exact ⟨cand, if_pos ⟨by omega, by omega⟩, lower⟩
  | cons r mmap ih =>
    have later : Laid mmap := laid.sublist (List.sublist_cons_self r mmap)
    have restVacant : Vacant mmap v (v + len) := fun s member => vacant s (.tail _ member)
    unfold freeGapFrom
    split
    · exact ih later lower restVacant
    rw [if_pos (by omega)]
    split
    · exact ⟨cand, if_pos (by omega), lower⟩
    · rcases vacant r (.head _) with below | above
      · exact ih later below restVacant
      · omega

theorem freeGap_some {mmap : List MmapRegion} {areaLo areaHi len va : Nat} (laid : Laid mmap)
    (window : areaHi ≤ USIZE_MAX) (found : freeGapFrom areaHi len areaLo mmap = .some va) :
    Lowest mmap areaLo areaHi len va := by
  obtain ⟨lower, upper, _, vacant, _⟩ := freeGapFrom_spec laid found
  refine ⟨⟨lower, upper, vacant⟩, ?_⟩
  rintro v ⟨lower, upper, vacant⟩
  obtain ⟨first, same, below⟩ := freeGapFrom_lowest laid window lower upper vacant
  rw [found] at same
  cases same
  exact below

theorem freeGap_none {mmap : List MmapRegion} {areaLo areaHi len : Nat} (laid : Laid mmap)
    (window : areaHi ≤ USIZE_MAX) (found : freeGapFrom areaHi len areaLo mmap = none) (va : Nat) :
    ¬ Gap mmap areaLo areaHi len va := by
  rintro ⟨lower, upper, vacant⟩
  obtain ⟨first, same, _⟩ := freeGapFrom_lowest laid window lower upper vacant
  rw [found] at same
  cases same

section Pages

variable {va pages v : Nat}

theorem page_range (aligned : PAGE ∣ va) :
    va ≤ v ∧ v < va + pages * PAGE ↔ va / PAGE ≤ v / PAGE ∧ v / PAGE < va / PAGE + pages := by
  obtain ⟨k, rfl⟩ := aligned
  have page : PAGE = 4096 := rfl
  rw [page]
  omega

theorem page_offset (aligned : PAGE ∣ va) : (v - va) / PAGE = v / PAGE - va / PAGE := by
  obtain ⟨k, rfl⟩ := aligned
  have page : PAGE = 4096 := rfl
  rw [page]
  omega

end Pages

def Agrees (vm : Vm) (ref : PageMap) : Prop := ∀ va prot file, vm.Maps va prot file ↔ ref (va / PAGE) = some (prot, file)

section Agrees

variable {vm next : Vm} {ref : PageMap} {va pages : Nat} {prot : Prot} {file : Option (Node × Nat)}

theorem Agrees.congr (agrees : Agrees vm ref) (same : ∀ v p f, next.Maps v p f ↔ vm.Maps v p f) : Agrees next ref :=
  fun v p f => (same v p f).trans (agrees v p f)

theorem Agrees.add (agrees : Agrees vm ref) (aligned : PAGE ∣ va)
    (free : ∀ n, va / PAGE ≤ n ∧ n < va / PAGE + pages → ref n = none)
    (maps : ∀ v p f, next.Maps v p f ↔ Vm.New va pages prot file v p f ∨ vm.Maps v p f) :
    Agrees next (ref.add va pages prot file) := by
  intro v p f
  rw [maps, agrees, Vm.New, page_offset aligned, ← and_assoc, page_range aligned, PageMap.add]
  split
  · rename_i inside
    rw [free _ inside]
    constructor
    · rintro (⟨_, rfl, rfl⟩ | absent)
      · rfl
      · cases absent
    · intro same
      cases same
      exact .inl ⟨inside, rfl, rfl⟩
  · rename_i outside
    exact ⟨fun either => either.resolve_left fun new => outside new.1, .inr⟩

theorem Agrees.remove (agrees : Agrees vm ref) (aligned : PAGE ∣ va)
    (maps : ∀ v p f, next.Maps v p f ↔ vm.Maps v p f ∧ ¬ (va ≤ v ∧ v < va + pages * PAGE)) :
    Agrees next (ref.remove va pages) := by
  intro v p f
  rw [maps, agrees, page_range aligned, PageMap.remove]
  split
  · rename_i inside
    exact ⟨fun both => absurd inside both.2, fun absent => by cases absent⟩
  · rename_i outside
    exact ⟨fun both => both.1, fun same => ⟨same, outside⟩⟩

theorem withProt_eq (plain : prot &&& kernelBits = 0) (old : Prot) : PageMap.withProt prot old = Vm.reprotect prot old := by
  have kept : prot &&& ~~~kernelBits = prot := by
    have split : prot = prot &&& kernelBits ||| prot &&& ~~~kernelBits := by
      rw [← BitVec.and_or_distrib_left, BitVec.or_not_self, BitVec.and_allOnes]
    have missing : prot &&& kernelBits = 0#32 := plain
    rw [missing, BitVec.zero_or] at split
    exact split.symm
  rw [PageMap.withProt, Vm.reprotect, kept]

theorem Agrees.setProt (agrees : Agrees vm ref) (aligned : PAGE ∣ va) (plain : prot &&& kernelBits = 0)
    (maps : ∀ v p f, next.Maps v p f ↔
      (va ≤ v ∧ v < va + pages * PAGE ∧ ∃ old, vm.Maps v old f ∧ p = Vm.reprotect prot old) ∨
        (vm.Maps v p f ∧ ¬ (va ≤ v ∧ v < va + pages * PAGE))) :
    Agrees next (ref.setProt va pages prot) := by
  intro v p f
  rw [maps, agrees, ← and_assoc, page_range aligned, PageMap.setProt]
  split
  · rename_i inside
    rw [Option.map_eq_some_iff]
    constructor
    · rintro (⟨_, old, mapped, rfl⟩ | ⟨_, outside⟩)
      · exact ⟨_, (agrees v old f).mp mapped, Prod.ext (withProt_eq plain old) rfl⟩
      · exact absurd inside outside
    · rintro ⟨⟨old, file⟩, found, same⟩
      cases same
      exact .inl ⟨inside, old, (agrees v old file).mpr found, withProt_eq plain old⟩
  · rename_i outside
    exact ⟨fun either => (either.resolve_left fun both => outside both.1).1, fun same => .inr ⟨same, outside⟩⟩

theorem Agrees.vacant (agrees : Agrees vm ref) (ok : vm.Ok) (aligned : PAGE ∣ va) (positive : 0 < pages)
    (free : ∀ n, va / PAGE ≤ n ∧ n < va / PAGE + pages → ref n = none) : Vacant vm.mmap va (va + pages * PAGE) := by
  intro r member
  by_contra meets
  have nonempty := (ok.laid.placed r member).va_lt_end
  have bytes : 0 < pages * PAGE := Nat.mul_pos positive (by decide)
  have both : va ≤ max r.va va ∧ max r.va va < va + pages * PAGE := ⟨le_max_right _ _, by omega⟩
  have mapped : vm.Maps (max r.va va) _ _ :=
    ⟨_, ⟨r, member, ⟨le_max_left _ _, by omega⟩, rfl⟩, rfl, rfl⟩
  have found := (agrees _ _ _).mp mapped
  rw [free _ ((page_range aligned).mp both)] at found
  cases found

end Agrees
end Myos.User.MmapTable
