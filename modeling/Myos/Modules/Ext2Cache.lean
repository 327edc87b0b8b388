import Mathlib.Algebra.GroupWithZero.Nat
import Myos.Lib.System
import Myos.Lib.Table

namespace Myos.Modules.Ext2
open Lib

def SLOTS : Nat := 256

def MAX : Nat := 2 ^ 32 - 1

variable {α : Type}

structure Slot (α : Type) where
  block : Nat
  data : α
  dirty : Bool
  used : Nat

structure Cache (α : Type) where
  dev : Nat → α
  slots : Nat → Slot α
  len : Nat
  index : Table Nat Nat
  tick : Nat
  owed : Nat → Bool

/-- The device's answers during one call, which reads and writes a block at most once each: a transfer that
fails leaves `torn` where it was going. -/
structure Answers (α : Type) where
  reads : Nat → Bool
  writes : Nat → Bool
  torn : Nat → α

namespace Cache

variable (c : Cache α) (a : Answers α)

def setSlot (i : Nat) (s : Slot α) : Cache α := { c with slots := Function.update c.slots i s }

theorem setSlot_self (i : Nat) (s : Slot α) : (c.setSlot i s).slots i = s := Function.update_self ..

def oldest (used : Nat → Nat) : Nat → Nat
  | 0 => 0
  | n + 1 => if used (n + 1) < used (oldest used n) then n + 1 else oldest used n

def victim : Nat := oldest (fun i => (c.slots i).used) (c.len - 1)

def taken (i : Nat) : Cache α :=
  let s := c.slots i
  { c with
    dev := Function.update c.dev s.block s.data
    slots := Function.update c.slots i ⟨s.block, s.data, false, s.used⟩
    owed := Function.update c.owed s.block false }

def writeBack (i : Nat) : Bool × Cache α :=
  let s := c.slots i
  if s.dirty then
    if a.writes s.block then (true, c.taken i)
    else (false, { c with dev := Function.update c.dev s.block (a.torn s.block) })
  else (true, c)

variable [Zero α]

def new (dev : Nat → α) : Cache α := ⟨dev, fun _ => ⟨0, 0, false, 0⟩, 0, ∅, 0, fun _ => false⟩

def room (block : Nat) : Option Nat × Cache α :=
  if c.len < SLOTS then (some c.len, { c.setSlot c.len ⟨block, 0, false, 0⟩ with len := c.len + 1 })
  else
    match c.writeBack a c.victim with
    | (false, c') => (none, c')
    | (true, c') => (some c.victim, { c' with index := c'.index.erase (c'.slots c.victim).block })

def fill (i block : Nat) (fresh : Bool) : Option Nat × Cache α :=
  if fresh then (some i, { c.setSlot i ⟨block, 0, false, c.tick⟩ with index := c.index.insert block i })
  else if a.reads block then
    (some i, { c.setSlot i ⟨block, c.dev block, false, c.tick⟩ with index := c.index.insert block i })
  else (none, c.setSlot i ⟨MAX, a.torn block, false, 0⟩)

def slot (block : Nat) (fresh : Bool) : Option Nat × Cache α :=
  let c : Cache α := { c with tick := c.tick + 1 }
  match c.index.lookup block with
  | some i => (some i, c.setSlot i { c.slots i with used := c.tick })
  | none =>
    match c.room a block with
    | (none, c) => (none, c)
    | (some i, c) => c.fill a i block fresh

def read (block : Nat) : Option α × Cache α :=
  let r := c.slot a block false
  (r.1.map fun i => (r.2.slots i).data, r.2)

def readThrough (first n : Nat) : Option (Option (List α)) :=
  if first + n ≤ MAX then
    some <|
      if c.index.keys.any fun b => decide (first ≤ b ∧ b < first + n) then
        (List.range' first n).mapM fun b =>
          match c.index.lookup b with
          | some i => some (c.slots i).data
          | none => if a.reads b then some (c.dev b) else none
      else if a.reads first then some ((List.range' first n).map c.dev) else none
  else none

def put (i block : Nat) (data : α) : Cache α :=
  { c.setSlot i { c.slots i with data, dirty := true } with owed := Function.update c.owed block true }

def modify (block : Nat) (f : α → α) : Bool × Cache α :=
  match c.slot a block false with
  | (some i, c) => (true, c.put i block (f (c.slots i).data))
  | (none, c) => (false, c)

def zero (block : Nat) : Bool × Cache α :=
  match c.slot a block true with
  | (some i, c) => (true, c.put i block 0)
  | (none, c) => (false, c)

omit [Zero α] in
def writeAll (slots : List Nat) : Bool × Cache α :=
  slots.foldl (fun r i => (r.1 && (r.2.writeBack a i).1, (r.2.writeBack a i).2)) (true, c)

omit [Zero α] in
def flush : Bool × Cache α :=
  c.writeAll a ((c.index.entries.map Sigma.snd).filter fun i => (c.slots i).dirty)

end Cache

structure State (α : Type) where
  cache : Cache α
  content : Nat → α

inductive Call (α : Type)
  | read (block : Nat)
  | readThrough (first n : Nat)
  | modify (block : Nat) (f : α → α)
  | zero (block : Nat)
  | flush

namespace State

variable [Zero α] (s : State α)

def done (r : Bool × Cache α) (block : Nat) (data : α) : State α :=
  ⟨r.2, if r.1 then Function.update s.content block data else s.content⟩

def step : Call α × Answers α → Option (State α)
  | (.read block, a) => some { s with cache := (s.cache.read a block).2 }
  | (.readThrough first n, a) => (s.cache.readThrough a first n).map fun _ => s
  | (.modify block f, a) => some (s.done (s.cache.modify a block f) block (f (s.content block)))
  | (.zero block, a) => some (s.done (s.cache.zero a block) block 0)
  | (.flush, a) => some { s with cache := (s.cache.flush a).2 }

def system (α : Type) [Zero α] : System (State α) (Call α × Answers α) where
  start s := ∃ dev, s = ⟨.new dev, dev⟩
  step := step

/-- What the reads of a state return, what it holds back, what its flush does, and how its table and index agree. -/
structure Transparent (s : State α) : Prop where
  read : ∀ a block data, (s.cache.read a block).1 = some data → data = s.content block
  readThrough : ∀ a first n datas, s.cache.readThrough a first n = some (some datas) →
    datas = (List.range' first n).map s.content
  kept : ∀ block, s.cache.owed block = true →
    ∃ i, s.cache.index.lookup block = some i ∧ (s.cache.slots i).dirty = true ∧ (s.cache.slots i).data = s.content block
  flushed : ∀ a, (s.cache.flush a).1 = true →
    ∀ block, (s.cache.flush a).2.dev block = s.content block ∧ (s.cache.flush a).2.owed block = false
  indexed : ∀ block i, s.cache.index.lookup block = some i → i < s.cache.len ∧ (s.cache.slots i).block = block
  oneSlot : ∀ i < s.cache.len, (s.cache.slots i).block ≠ MAX → s.cache.index.lookup (s.cache.slots i).block = some i
  leastUsed : 0 < s.cache.len →
    s.cache.victim < s.cache.len ∧ ∀ i < s.cache.len, (s.cache.slots s.cache.victim).used ≤ (s.cache.slots i).used

/-- No call is for block `u32::MAX`. -/
def meets : Call α × Answers α → Prop
  | (.read block, _) | (.modify block _, _) | (.zero block, _) => block ≠ MAX
  | _ => True

end State

namespace Cache

structure Holds (vacant fresh : Option Nat) (c : Cache α) (content : Nat → α) : Prop where
  indexed : ∀ b i, c.index.lookup b = some i → i < c.len ∧ (c.slots i).block = b ∧ b ≠ MAX ∧ vacant ≠ some i
  oneSlot : ∀ i < c.len, vacant ≠ some i → (c.slots i).block ≠ MAX → c.index.lookup (c.slots i).block = some i
  idle : ∀ i < c.len, vacant ≠ some i → (c.slots i).block = MAX → (c.slots i).dirty = false
  data : ∀ b i, c.index.lookup b = some i → fresh ≠ some b →
    (c.slots i).data = content b ∧ ((c.slots i).dirty = false → c.dev b = content b)
  missing : ∀ b, c.index.lookup b = none → c.dev b = content b
  owed : ∀ b, c.owed b = true → ∃ i, c.index.lookup b = some i ∧ (c.slots i).dirty = true

structure Wrote (c c' : Cache α) : Prop where
  index : c'.index = c.index
  len : c'.len = c.len
  tick : c'.tick = c.tick
  clean : ∀ i, (c.slots i).dirty = false → (c'.slots i).dirty = false

variable {c : Cache α} {a : Answers α} {content : Nat → α} {i block : Nat}

theorem Wrote.trans {c' c'' : Cache α} (first : c.Wrote c') (second : c'.Wrote c'') : c.Wrote c'' :=
  ⟨second.index.trans first.index, second.len.trans first.len, second.tick.trans first.tick,
    fun i clean => second.clean i (first.clean i clean)⟩

theorem oldest_least (used : Nat → Nat) (n : Nat) : oldest used n ≤ n ∧ ∀ i ≤ n, used (oldest used n) ≤ used i := by
  induction n with
  | zero =>
    refine ⟨Nat.le_refl 0, fun i below => ?_⟩
    cases Nat.le_zero.mp below
    exact le_rfl
  | succ n ih =>
    rw [oldest]
    split
    · rename_i less
      refine ⟨le_rfl, fun i below => ?_⟩
      rcases Nat.le_succ_iff.mp below with old | rfl
      · exact Nat.le_trans (Nat.le_of_lt less) (ih.2 i old)
      · exact le_rfl
    rename_i least
    refine ⟨Nat.le_succ_of_le ih.1, fun i below => ?_⟩
    rcases Nat.le_succ_iff.mp below with old | rfl
    · exact ih.2 i old
    · exact Nat.le_of_not_lt least

theorem victim_least (positive : 0 < c.len) :
    c.victim < c.len ∧ ∀ i < c.len, (c.slots c.victim).used ≤ (c.slots i).used := by
  obtain ⟨inside, least⟩ := oldest_least (fun i => (c.slots i).used) (c.len - 1)
  exact ⟨Nat.lt_of_le_pred positive inside, fun i below => least i (Nat.le_pred_of_lt below)⟩

variable (holds : c.Holds none none content)
include holds

theorem Holds.real (inside : i < c.len) (dirty : (c.slots i).dirty = true) :
    c.index.lookup (c.slots i).block = some i := by
  refine holds.oneSlot i inside nofun fun unused => ?_
  rw [holds.idle i inside nofun unused] at dirty
  cases dirty

theorem Holds.apart {b j : Nat} (found : c.index.lookup b = some j)
    (here : c.index.lookup (c.slots i).block = some i) : b = (c.slots i).block ↔ j = i := by
  constructor
  · rintro rfl
    exact Option.some.inj (found.symm.trans here)
  · rintro rfl
    exact (holds.indexed b j found).2.1.symm

theorem Holds.missing_update (here : c.index.lookup (c.slots i).block = some i) {b : Nat}
    (absent : c.index.lookup b = none) (data : α) : Function.update c.dev (c.slots i).block data b = content b := by
  have apart : b ≠ (c.slots i).block := by
    rintro rfl
    cases absent.symm.trans here
  rw [Function.update_of_ne apart]
  exact holds.missing b absent

omit holds in
theorem taken_block (c : Cache α) (i j : Nat) : ((c.taken i).slots j).block = (c.slots j).block := by
  by_cases same : j = i
  · simp [taken, same]
  · simp [taken, Function.update_of_ne same]

omit holds in
theorem taken_clean (c : Cache α) {i j : Nat} (clean : j ≠ i → (c.slots j).dirty = false) :
    ((c.taken i).slots j).dirty = false := by
  by_cases same : j = i
  · simp [taken, same]
  · simp [taken, Function.update_of_ne same, clean same]

theorem Holds.taken (here : c.index.lookup (c.slots i).block = some i) :
    (c.taken i).Holds none none content where
  indexed b j found := (c.taken_block i j).symm ▸ holds.indexed b j found
  oneSlot j below _ used := (c.taken_block i j).symm ▸ holds.oneSlot j below nofun (c.taken_block i j ▸ used)
  idle j below _ unused := c.taken_clean fun _ => holds.idle j below nofun (c.taken_block i j ▸ unused)
  data b j found _ := by
    obtain ⟨data, clean⟩ := holds.data b j found nofun
    dsimp only [Cache.taken]
    by_cases same : b = (c.slots i).block
    · cases (holds.apart found here).mp same
      subst same
      rw [Function.update_self, Function.update_self]
      exact ⟨data, fun _ => data⟩
    · rw [Function.update_of_ne (mt (holds.apart found here).mpr same), Function.update_of_ne same]
      exact ⟨data, clean⟩
  missing b absent := holds.missing_update here absent _
  owed b owed := by
    dsimp only [Cache.taken] at owed ⊢
    have apart : b ≠ (c.slots i).block := fun same => by simp [same] at owed
    rw [Function.update_of_ne apart] at owed
    obtain ⟨j, found, dirty⟩ := holds.owed b owed
    refine ⟨j, found, ?_⟩
    rw [Function.update_of_ne (mt (holds.apart found here).mpr apart)]
    exact dirty

theorem Holds.writeBack (inside : i < c.len) :
    (c.writeBack a i).2.Holds none none content ∧ c.Wrote (c.writeBack a i).2 ∧
      ((c.writeBack a i).1 = true → ((c.writeBack a i).2.slots i).dirty = false) := by
  unfold Cache.writeBack
  dsimp only
  split
  · rename_i dirty
    have here := holds.real inside dirty
    split
    · refine ⟨holds.taken here, ⟨rfl, rfl, rfl, fun j clean => c.taken_clean fun _ => clean⟩, fun _ => ?_⟩
      exact c.taken_clean fun other => absurd rfl other
    refine ⟨⟨holds.indexed, holds.oneSlot, holds.idle, fun b j found _ => ?_, fun b absent => ?_, holds.owed⟩,
      ⟨rfl, rfl, rfl, fun _ => id⟩, nofun⟩
    · obtain ⟨data, clean⟩ := holds.data b j found nofun
      refine ⟨data, fun isClean => ?_⟩
      have apart : b ≠ (c.slots i).block := fun same => by
        rw [(holds.apart found here).mp same, dirty] at isClean
        cases isClean
      exact (Function.update_of_ne apart ..).trans (clean isClean)
    · exact holds.missing_update here absent _
  · rename_i clean
    exact ⟨holds, ⟨rfl, rfl, rfl, fun _ => id⟩, fun _ => Bool.eq_false_iff.mpr clean⟩

theorem Holds.evict (inside : i < c.len) (clean : (c.slots i).dirty = false)
    (absent : c.index.lookup block = none) : Holds (some i) none { c with index := c.index.erase (c.slots i).block } content ∧
      i < c.len ∧ (c.index.erase (c.slots i).block).lookup block = none := by
  have erased {b j : Nat} (found : (c.index.erase (c.slots i).block).lookup b = some j) :
      b ≠ (c.slots i).block ∧ c.index.lookup b = some j := by
    have apart : b ≠ (c.slots i).block := by
      rintro rfl
      cases (AList.lookup_erase ..).symm.trans found
    rw [AList.lookup_erase_ne apart] at found
    exact ⟨apart, found⟩
  have other {b : Nat} (apart : b ≠ (c.slots i).block) : (c.index.erase (c.slots i).block).lookup b = c.index.lookup b :=
    AList.lookup_erase_ne apart
  refine ⟨⟨fun b j found => ?_, fun j below vacant used => ?_, fun j below _ => holds.idle j below nofun,
    fun b j found _ => holds.data b j (erased found).2 nofun, fun b absent => ?_, fun b owed => ?_⟩, inside, ?_⟩
  · obtain ⟨apart, found⟩ := erased found
    obtain ⟨below, same, real, _⟩ := holds.indexed b j found
    exact ⟨below, same, real, fun vacant => apart (by rw [Option.some.inj vacant, same])⟩
  · have found := holds.oneSlot j below nofun used
    refine (other fun same => vacant ?_).trans found
    rw [← found, same, holds.oneSlot i inside nofun (same ▸ used)]
  · by_cases same : b = (c.slots i).block
    · cases found : c.index.lookup b with
      | none => exact holds.missing b found
      | some j =>
        by_cases used : (c.slots i).block = MAX
        · exact absurd (same.trans used) (holds.indexed b j found).2.2.1
        · have here := holds.oneSlot i inside nofun used
          exact (holds.data b i (same ▸ here) nofun).2 clean
    · exact holds.missing b ((other same).symm.trans absent)
  · obtain ⟨j, found, dirty⟩ := holds.owed b owed
    refine ⟨j, (other fun same => ?_).trans found, dirty⟩
    obtain ⟨_, _, real, _⟩ := holds.indexed b j found
    have here := holds.oneSlot i inside nofun (same ▸ real)
    rw [← same, found] at here
    rw [Option.some.inj here, clean] at dirty
    cases dirty
  · by_cases same : block = (c.slots i).block
    · rw [same, AList.lookup_erase]
    · exact (other same).trans absent

variable [Zero α]

theorem Holds.room (absent : c.index.lookup block = none) :
    match c.room a block with
    | (none, c') => c'.Holds none none content
    | (some i, c') => c'.Holds (some i) none content ∧ i < c'.len ∧ c'.index.lookup block = none := by
  unfold Cache.room
  by_cases space : c.len < SLOTS
  · rw [if_pos space]
    have old {j : Nat} (vacant : some c.len ≠ some j) : Function.update c.slots c.len ⟨block, 0, false, 0⟩ j = c.slots j :=
      Function.update_of_ne (fun same => vacant (congrArg some same.symm)) ..
    have below {j : Nat} (inside : j < c.len + 1) (vacant : some c.len ≠ some j) : j < c.len :=
      Nat.lt_of_le_of_ne (Nat.le_of_lt_succ inside) fun same => vacant (congrArg some same.symm)
    have apart {b j : Nat} (found : c.index.lookup b = some j) : some c.len ≠ some j := fun same =>
      Nat.ne_of_gt (holds.indexed b j found).1 (Option.some.inj same)
    refine ⟨⟨fun b j found => ?_, fun j inside vacant => ?_, fun j inside vacant => ?_, fun b j found _ => ?_, holds.missing,
      fun b owed => ?_⟩, Nat.lt_succ_self _, absent⟩
    · obtain ⟨inside, same, real, _⟩ := holds.indexed b j found
      dsimp only [setSlot]
      rw [old (apart found)]
      exact ⟨Nat.lt_succ_of_lt inside, same, real, apart found⟩
    · dsimp only [setSlot]
      rw [old vacant]
      exact holds.oneSlot j (below inside vacant) nofun
    · dsimp only [setSlot]
      rw [old vacant]
      exact holds.idle j (below inside vacant) nofun
    · dsimp only [setSlot]
      rw [old (apart found)]
      exact holds.data b j found nofun
    obtain ⟨j, found, dirty⟩ := holds.owed b owed
    refine ⟨j, found, ?_⟩
    dsimp only [setSlot]
    rw [old (apart found)]
    exact dirty
  · have positive : 0 < c.len := Nat.lt_of_lt_of_le (by decide) (Nat.le_of_not_lt space)
    rw [if_neg space]
    obtain ⟨after, wrote, clean⟩ := holds.writeBack (a := a) (victim_least positive).1
    have inside := wrote.len.symm ▸ (victim_least positive).1
    rw [← wrote.index] at absent
    generalize c.victim = v at *
    generalize c.writeBack a v = r at *
    obtain ⟨ok, c'⟩ := r
    cases ok with
    | false => exact after
    | true => exact after.evict inside (clean rfl) absent

omit holds in
omit [Zero α] in
theorem Holds.congr {vacant fresh : Option Nat} {c' : Cache α} (holds : c.Holds vacant fresh content) (dev : c'.dev = c.dev)
    (len : c'.len = c.len) (index : c'.index = c.index) (owed : c'.owed = c.owed)
    (slots : ∀ j, (c'.slots j).block = (c.slots j).block ∧ (c'.slots j).data = (c.slots j).data ∧
      (c'.slots j).dirty = (c.slots j).dirty) : c'.Holds vacant fresh content := by
  constructor <;> simp only [dev, len, index, owed, (slots _).1, (slots _).2.1, (slots _).2.2]
  exacts [holds.indexed, fun i below free used => (slots i).1.symm ▸ holds.oneSlot i below free used, holds.idle,
    holds.data, holds.missing, holds.owed]

omit [Zero α] in
theorem Holds.touch (used tick : Nat) :
    Holds none none { c.setSlot i { c.slots i with used } with tick } content := by
  refine holds.congr rfl rfl rfl rfl fun j => ?_
  by_cases same : j = i
  · simp [setSlot, same]
  · simp [setSlot, Function.update_of_ne same]

omit holds in
omit [Zero α] in
theorem Holds.lay (holds : c.Holds (some i) none content) (inside : i < c.len) {s : Slot α} (clean : s.dirty = false)
    {index : Table Nat Nat} (indexed : s.block = MAX ∧ index = c.index ∨
      s.block ≠ MAX ∧ c.index.lookup s.block = none ∧ index = c.index.insert s.block i) :
    Holds none (some s.block) { c.setSlot i s with index } content := by
  have old {j : Nat} (apart : j ≠ i) : Function.update c.slots i s j = c.slots j := Function.update_of_ne apart ..
  have apart {b j : Nat} (found : c.index.lookup b = some j) : j ≠ i := fun same =>
    (holds.indexed b j found).2.2.2 (congrArg some same.symm)
  have other {b : Nat} (differs : b ≠ s.block) : index.lookup b = c.index.lookup b := by
    obtain ⟨_, rfl⟩ | ⟨_, _, rfl⟩ := indexed
    · rfl
    · exact AList.lookup_insert_ne differs
  have taken {b j : Nat} (found : c.index.lookup b = some j) : b ≠ s.block := by
    rintro rfl
    obtain ⟨unused, _⟩ | ⟨_, absent, _⟩ := indexed
    · exact (holds.indexed _ j found).2.2.1 unused
    · cases absent.symm.trans found
  have own {j : Nat} (found : index.lookup s.block = some j) : s.block ≠ MAX ∧ j = i := by
    obtain ⟨_, rfl⟩ | ⟨used, _, rfl⟩ := indexed
    · exact absurd rfl (taken found)
    · exact ⟨used, Option.some.inj (found.symm.trans (AList.lookup_insert _))⟩
  refine ⟨fun b j found => ?_, fun j below _ used => ?_, fun j below _ unused => ?_, fun b j found differs => ?_,
    fun b absent => ?_,
    fun b owed => ?_⟩ <;> dsimp only [setSlot] at *
  · by_cases same : b = s.block
    · subst same
      obtain ⟨used, rfl⟩ := own found
      rw [Function.update_self]
      exact ⟨inside, rfl, used, nofun⟩
    · rw [other same] at found
      obtain ⟨below, isBlock, real, _⟩ := holds.indexed b j found
      rw [old (apart found)]
      exact ⟨below, isBlock, real, nofun⟩
  · by_cases same : j = i
    · subst same
      rw [Function.update_self] at used ⊢
      obtain ⟨unused, _⟩ | ⟨_, _, rfl⟩ := indexed
      · exact absurd unused used
      · exact AList.lookup_insert _
    · rw [old same] at used ⊢
      have found := holds.oneSlot j below (fun vacant => same (Option.some.inj vacant).symm) used
      exact (other (taken found)).trans found
  · by_cases same : j = i
    · rw [same, Function.update_self]
      exact clean
    · rw [old same] at unused ⊢
      exact holds.idle j below (fun vacant => same (Option.some.inj vacant).symm) unused
  · rw [other fun same => differs (congrArg some same.symm)] at found
    rw [old (apart found)]
    exact holds.data b j found nofun
  · cases found : c.index.lookup b with
    | none => exact holds.missing b found
    | some j => cases absent.symm.trans ((other (taken found)).trans found)
  · obtain ⟨j, found, dirty⟩ := holds.owed b owed
    refine ⟨j, (other (taken found)).trans found, ?_⟩
    rw [old (apart found)]
    exact dirty

omit holds in
omit [Zero α] in
theorem Holds.close (holds : c.Holds none (some block) content)
    (right : ∀ i, c.index.lookup block = some i → (c.slots i).data = content block ∧ c.dev block = content block) :
    c.Holds none none content := by
  refine ⟨holds.indexed, holds.oneSlot, holds.idle, fun b i found _ => ?_, holds.missing, holds.owed⟩
  by_cases same : b = block
  · subst same
    exact ⟨(right i found).1, fun _ => (right i found).2⟩
  · exact holds.data b i found fun isBlock => same (Option.some.inj isBlock).symm

omit holds in
theorem Holds.fill (holds : c.Holds (some i) none content) (inside : i < c.len) (absent : c.index.lookup block = none)
    (real : block ≠ MAX) (fresh : Bool) :
    match c.fill a i block fresh with
    | (none, c') => c'.Holds none none content
    | (some j, c') => c'.Holds none (some block) content ∧ c'.index.lookup block = some j ∧
        (fresh = false → c'.Holds none none content) := by
  unfold Cache.fill
  cases fresh with
  | true =>
    exact ⟨holds.lay inside (s := ⟨block, 0, false, c.tick⟩) rfl (.inr ⟨real, absent, rfl⟩), AList.lookup_insert _, nofun⟩
  | false =>
    by_cases ok : a.reads block
    · rw [if_neg nofun, if_pos ok]
      have placed := holds.lay inside (s := ⟨block, c.dev block, false, c.tick⟩) rfl (.inr ⟨real, absent, rfl⟩)
      refine ⟨placed, AList.lookup_insert _, fun _ => placed.close fun j found => ?_⟩
      cases (AList.lookup_insert _).symm.trans found
      dsimp only [setSlot]
      rw [Function.update_self]
      exact ⟨holds.missing block absent, holds.missing block absent⟩
    · rw [if_neg nofun, if_neg ok]
      have unused := holds.lay inside (s := ⟨MAX, a.torn block, false, 0⟩) rfl (.inl ⟨rfl, rfl⟩)
      exact unused.close fun j found => absurd rfl (holds.indexed MAX j found).2.2.1

theorem Holds.slot (real : block ≠ MAX) (fresh : Bool) :
    match c.slot a block fresh with
    | (none, c') => c'.Holds none none content
    | (some i, c') => c'.Holds none (some block) content ∧ c'.index.lookup block = some i ∧
        (fresh = false → c'.Holds none none content) := by
  unfold Cache.slot
  cases found : c.index.lookup block with
  | some i =>
    simp only [found]
    have touched := holds.touch (i := i) (c.tick + 1) (c.tick + 1)
    have weaker : Holds none (some block) (setSlot { c with tick := c.tick + 1 } i
      { c.slots i with used := c.tick + 1 }) content :=
      ⟨touched.indexed, touched.oneSlot, touched.idle, fun b j found _ => touched.data b j found nofun,
        touched.missing, touched.owed⟩
    exact ⟨weaker, found, fun _ => touched⟩
  | none =>
    simp only [found]
    have ticked : Holds none none { c with tick := c.tick + 1 } content := holds.congr rfl rfl rfl rfl fun _ => ⟨rfl, rfl, rfl⟩
    have made := ticked.room (a := a) found
    generalize Cache.room _ a block = r at made
    obtain ⟨free, c'⟩ := r
    cases free with
    | none => exact made
    | some i => exact made.1.fill made.2.1 made.2.2 real fresh

theorem Holds.slot_data {c' : Cache α} (found : c.slot a block false = (some i, c')) :
    (c'.slots i).data = content block := by
  unfold Cache.slot at found
  cases here : c.index.lookup block with
  | some j =>
    simp only [here] at found
    cases found
    rw [setSlot_self]
    exact (holds.data block i here nofun).1
  | none =>
    simp only [here] at found
    have ticked : Holds none none { c with tick := c.tick + 1 } content := holds.congr rfl rfl rfl rfl fun _ => ⟨rfl, rfl, rfl⟩
    have made := ticked.room (a := a) here
    generalize Cache.room _ a block = r at made found
    obtain ⟨free, c₁⟩ := r
    cases free with
    | none => cases found
    | some j =>
      simp only [Cache.fill] at found
      split at found
      · contradiction
      split at found
      · cases found
        rw [setSlot_self]
        exact made.1.missing block made.2.2
      · cases found

omit holds in
omit [Zero α] in
theorem Holds.put (holds : c.Holds none (some block) content) (found : c.index.lookup block = some i) (data : α) :
    (c.put i block data).Holds none none (Function.update content block data) := by
  have here := (holds.indexed block i found).2.1
  have blocks (j : Nat) : ((c.put i block data).slots j).block = (c.slots j).block := by
    by_cases same : j = i
    · simp [Cache.put, setSlot, same]
    · simp [Cache.put, setSlot, Function.update_of_ne same]
  have old {j : Nat} (apart : j ≠ i) : (c.put i block data).slots j = c.slots j := Function.update_of_ne apart ..
  have new : (c.put i block data).slots i = { c.slots i with data, dirty := true } := Function.update_self ..
  have apart {b j : Nat} (isFound : c.index.lookup b = some j) (differs : b ≠ block) : j ≠ i := fun same =>
    differs ((holds.indexed b j isFound).2.1.symm.trans (same ▸ here))
  refine ⟨fun b j isFound => ?_, fun j below _ used => ?_, fun j below _ unused => ?_, fun b j isFound _ => ?_,
    fun b absent => ?_,
    fun b owed => ?_⟩
  · rw [blocks]
    exact holds.indexed b j isFound
  · rw [blocks] at used ⊢
    exact holds.oneSlot j below nofun used
  · rw [blocks] at unused
    have differs : j ≠ i := fun same => (holds.indexed block i found).2.2.1 (here.symm.trans (same ▸ unused))
    rw [old differs]
    exact holds.idle j below nofun unused
  · by_cases same : b = block
    · subst same
      cases found.symm.trans isFound
      rw [new, Function.update_self]
      exact ⟨rfl, nofun⟩
    · rw [old (apart isFound same), Function.update_of_ne same]
      exact holds.data b j isFound fun isBlock => same (Option.some.inj isBlock).symm
  · have differs : b ≠ block := by
      rintro rfl
      cases absent.symm.trans found
    rw [Function.update_of_ne differs]
    exact holds.missing b absent
  · by_cases same : b = block
    · subst same
      exact ⟨i, found, by rw [new]⟩
    · obtain ⟨j, isFound, dirty⟩ := holds.owed b ((Function.update_of_ne same ..).symm.trans owed)
      exact ⟨j, isFound, by rw [old (apart isFound same)]; exact dirty⟩

omit holds in
omit [Zero α] in
theorem Holds.writeAll (slots : List Nat) (r : Bool × Cache α) (holds : r.2.Holds none none content)
    (inside : ∀ i ∈ slots, i < r.2.len) :
    let r' := slots.foldl (fun r i => (r.1 && (r.2.writeBack a i).1, (r.2.writeBack a i).2)) r
    r'.2.Holds none none content ∧ r.2.Wrote r'.2 ∧ (r'.1 = true → r.1 = true ∧ ∀ i ∈ slots, (r'.2.slots i).dirty = false) := by
  induction slots generalizing r with
  | nil => exact ⟨holds, ⟨rfl, rfl, rfl, fun _ => id⟩, fun ok => ⟨ok, nofun⟩⟩
  | cons i slots ih =>
    obtain ⟨after, wrote, clean⟩ := holds.writeBack (a := a) (inside i (.head _))
    obtain ⟨last, rest, all⟩ := ih (r.1 && (r.2.writeBack a i).1, (r.2.writeBack a i).2) after fun j mem =>
      wrote.len.symm ▸ inside j (.tail _ mem)
    refine ⟨last, wrote.trans rest, fun ok => ?_⟩
    obtain ⟨both, others⟩ := all ok
    obtain ⟨first, now⟩ := (Bool.and_eq_true ..).mp both
    refine ⟨first, fun j mem => ?_⟩
    rcases List.mem_cons.mp mem with rfl | mem
    · exact rest.clean j (clean now)
    · exact others j mem

omit [Zero α] in
theorem Holds.flush : (c.flush a).2.Holds none none content ∧
    ((c.flush a).1 = true → ∀ b, (c.flush a).2.dev b = content b ∧ (c.flush a).2.owed b = false) := by
  have inside : ∀ i ∈ (c.index.entries.map Sigma.snd).filter (fun i => (c.slots i).dirty), i < c.len := by
    intro i mem
    obtain ⟨⟨b, _⟩, entry, rfl⟩ := List.mem_map.mp (List.mem_filter.mp mem).1
    exact (holds.indexed b _ (AList.mem_lookup_iff.mpr entry)).1
  obtain ⟨after, wrote, clean⟩ := Holds.writeAll (a := a) _ (true, c) holds inside
  refine ⟨after, fun ok b => ?_⟩
  have all {b i : Nat} (found : (c.flush a).2.index.lookup b = some i) : ((c.flush a).2.slots i).dirty = false := by
    by_cases dirty : (c.slots i).dirty = true
    · rw [Cache.flush, Cache.writeAll, wrote.index] at found
      refine (clean ok).2 i (List.mem_filter.mpr ⟨List.mem_map.mpr ⟨⟨b, i⟩, AList.mem_lookup_iff.mp found, rfl⟩, dirty⟩)
    · exact wrote.clean i (Bool.eq_false_iff.mpr dirty)
  constructor
  · cases found : (c.flush a).2.index.lookup b with
    | none => exact after.missing b found
    | some i => exact (after.data b i found nofun).2 (all found)
  rw [Bool.eq_false_iff]
  intro owed
  obtain ⟨i, found, dirty⟩ := after.owed b owed
  cases (all found).symm.trans dirty

theorem Holds.read {data : α} (found : (c.read a block).1 = some data) : data = content block := by
  unfold Cache.read at found
  generalize slotted : c.slot a block false = r at found
  obtain ⟨slot, c'⟩ := r
  obtain ⟨i, rfl, rfl⟩ := Option.map_eq_some_iff.mp found
  exact holds.slot_data slotted

omit [Zero α] in
theorem Holds.readThrough {first n : Nat} {datas : List α}
    (found : c.readThrough a first n = some (some datas)) : datas = (List.range' first n).map content := by
  replace found := Option.some.inj (Option.ite_none_right_eq_some.mp found).2
  split at found
  · generalize List.range' first n = blocks at found
    induction blocks generalizing datas with
    | nil => exact (Option.some.inj found).symm
    | cons b blocks ih =>
      rw [List.mapM_cons] at found
      obtain ⟨data, isData, found⟩ := Option.bind_eq_some_iff.mp found
      obtain ⟨rest, isRest, ⟨⟩⟩ := Option.bind_eq_some_iff.mp found
      rw [List.map_cons, ← ih isRest]
      congr 1
      split at isData
      next i cached =>
        cases isData
        exact (holds.data b i cached nofun).1
      next missing =>
        exact guarded isData fun _ => holds.missing b missing
  · rename_i absent
    refine guarded found fun _ => ?_
    apply List.map_congr_left
    intro b mem
    refine holds.missing b (AList.lookup_eq_none.mpr fun key => absent ?_)
    rw [List.any_eq_true]
    exact ⟨b, AList.mem_keys.mp key, decide_eq_true (List.mem_range'_1.mp mem)⟩

end Cache

namespace State

variable [Zero α] {s s' : State α}

abbrev Inv (s : State α) : Prop := s.cache.Holds none none s.content

theorem Inv.step (inv : s.Inv) {event : Call α × Answers α} (met : meets event) (stepped : s.step event = some s') : s'.Inv := by
  obtain ⟨call, a⟩ := event
  cases call with
  | read block =>
    obtain rfl : { s with cache := (s.cache.read a block).2 } = s' := Option.some.inj stepped
    have slotted := inv.slot (a := a) met false
    dsimp only [Inv, Cache.read]
    generalize s.cache.slot a block false = r at slotted
    obtain ⟨_ | i, c⟩ := r
    · exact slotted
    · exact slotted.2.2 rfl
  | readThrough first n =>
    exact mapped stepped fun _ _ => inv
  | modify block f =>
    obtain rfl := Option.some.inj stepped
    have slotted := inv.slot (a := a) met false
    dsimp only [Inv, done, Cache.modify]
    generalize found : s.cache.slot a block false = r at slotted
    obtain ⟨_ | i, c⟩ := r
    · exact slotted
    · have put := slotted.1.put slotted.2.1 (f (c.slots i).data)
      simpa only [inv.slot_data found, if_true] using put
  | zero block =>
    obtain rfl := Option.some.inj stepped
    have slotted := inv.slot (a := a) met true
    dsimp only [Inv, done, Cache.zero]
    generalize s.cache.slot a block true = r at slotted
    obtain ⟨_ | i, c⟩ := r
    · exact slotted
    · exact slotted.1.put slotted.2.1 0
  | flush =>
    obtain rfl : { s with cache := (s.cache.flush a).2 } = s' := Option.some.inj stepped
    exact (Cache.Holds.flush inv).1

theorem Inv.transparent (inv : s.Inv) : s.Transparent where
  read _ _ _ found := inv.read found
  readThrough _ _ _ _ found := Cache.Holds.readThrough inv found
  kept block owed := by
    obtain ⟨i, found, dirty⟩ := inv.owed block owed
    exact ⟨i, found, dirty, (inv.data block i found nofun).1⟩
  flushed _ ok := (Cache.Holds.flush inv).2 ok
  indexed b i found := ⟨(inv.indexed b i found).1, (inv.indexed b i found).2.1⟩
  oneSlot i below used := inv.oneSlot i below nofun used
  leastUsed := Cache.victim_least

theorem reach_transparent (s : State α) (reachable : (system α).Reach (fun _ event => meets event) s) : s.Transparent := by
  refine Inv.transparent (reachable.invariant (fun s start => ?_) fun _ _ _ inv met stepped => inv.step met stepped)
  obtain ⟨dev, rfl⟩ := start
  exact ⟨nofun, nofun, nofun, nofun, fun _ _ => rfl, nofun⟩

def yes : Answers Nat := ⟨fun _ => true, fun _ => true, fun _ => 0⟩

def no : Answers Nat := ⟨fun _ => false, fun _ => false, fun _ => 0⟩

def boot : State Nat := ⟨.new fun _ => 0, fun _ => 0⟩

/-- A read that fails, a change, and a flush whose write fails. -/
def tried : List (Call Nat × Answers Nat) := [(.read 3, no), (.modify 7 (· + 1), yes), (.flush, no)]

theorem reach_transparent_modify : ∃ s s' : State Nat, (system Nat).run boot tried = some s ∧ s.Transparent ∧
    s.cache.owed 7 = true ∧ (system Nat).step s (.flush, yes) = some s' ∧ s'.Transparent ∧ s'.cache.dev 7 = 1 := by
  have start : (system Nat).Reach (fun _ event => meets event) boot := .start ⟨_, rfl⟩
  have met : ∀ event ∈ tried, State Nat → meets event := by simp [tried, meets, MAX]
  have reached := start.runAlways tried met rfl
  have flushed := reached.next (show meets (.flush, yes) from trivial) rfl
  exact ⟨_, _, rfl, reach_transparent _ reached, rfl, rfl, reach_transparent _ flushed, rfl⟩

structure Filled (k : Nat) (s : State Nat) : Prop where
  len : s.cache.len = k + 2
  unused : s.cache.slots 0 = ⟨MAX, 0, false, 0⟩
  max : s.cache.index.lookup MAX = some 1
  owed : s.cache.owed MAX = true
  later : ∀ b, k < b → b < MAX → s.cache.index.lookup b = none

theorem filled (k : Nat) (below : k + 2 ≤ SLOTS) : ∃ s, (system Nat).Reach System.Any s ∧ Filled k s := by
  have small : SLOTS < MAX := by decide
  induction k with
  | zero =>
    have start : (system Nat).Reach System.Any boot := .start ⟨_, rfl⟩
    refine ⟨_, start.run [(.read 0, no), (.modify MAX fun _ => 1, yes)] rfl, rfl, rfl, rfl, rfl, fun b _ below => ?_⟩
    exact (AList.lookup_insert_ne (Nat.ne_of_lt below)).trans (AList.lookup_empty b)
  | succ k ih =>
    obtain ⟨s, reached, filled⟩ := ih (by omega)
    have absent := filled.later (k + 1) (Nat.lt_succ_self k) (by omega)
    have space : s.cache.len < SLOTS := by rw [filled.len]; omega
    have other : (0 : Nat) ≠ s.cache.len := by rw [filled.len]; omega
    refine ⟨_, reached.next trivial (show (system Nat).step s (.read (k + 1), yes) = some _ from rfl), ?_⟩
    simp only [Cache.read, Cache.slot, absent, Cache.room, if_pos space]
    refine ⟨congrArg (· + 1) filled.len, ?_, ?_, filled.owed, fun b above below => ?_⟩
    · exact (Function.update_of_ne other ..).trans ((Function.update_of_ne other ..).trans filled.unused)
    · exact (AList.lookup_insert_ne (by omega)).trans filled.max
    · exact (AList.lookup_insert_ne (by omega)).trans (filled.later b (by omega) below)

theorem oldest_zero {used : Nat → Nat} (least : used 0 = 0) (n : Nat) : Cache.oldest used n = 0 := by
  induction n with
  | zero => rfl
  | succ n ih => rw [Cache.oldest, ih, least, if_neg (Nat.not_lt_zero _)]

/-- The slot that a failed read left is given away, and with it goes what the index has for `MAX`. -/
theorem failed_read_loses_max : ¬ ∀ s : State Nat, (system Nat).Reach System.Any s → s.Transparent := by
  intro transparent
  obtain ⟨s, reached, filled⟩ := filled 254 (by decide)
  have absent := filled.later 255 (by decide) (by decide)
  have full : ¬ s.cache.len < SLOTS := by rw [filled.len]; decide
  have first : Cache.victim { s.cache with tick := s.cache.tick + 1 } = 0 := oldest_zero (by rw [filled.unused]) _
  have next := reached.next trivial (show (system Nat).step s (.read 255, yes) = some _ from rfl)
  have after : (s.cache.read yes 255).2.index = (s.cache.index.erase MAX).insert 255 0 ∧
      (s.cache.read yes 255).2.owed = s.cache.owed := by
    simp only [Cache.read, Cache.slot, absent, Cache.room, if_neg full, first, Cache.writeBack, filled.unused,
      Bool.false_eq_true, if_false]
    exact ⟨rfl, rfl⟩
  obtain ⟨i, found, _⟩ := (transparent _ next).kept MAX (after.2 ▸ filled.owed)
  rw [after.1, AList.lookup_insert_ne (by decide), AList.lookup_erase] at found
  cases found

end State
end Myos.Modules.Ext2
