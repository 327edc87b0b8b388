import Myos.Lib.Checked

namespace Myos.Modules.HidReport
open Lib

def MAX_BUTTONS : Nat := 5
def PAGE_DESKTOP : UInt32 := 0x01
def PAGE_BUTTON : UInt32 := 0x09
def USAGE_X : UInt32 := 0x30
def USAGE_Y : UInt32 := 0x31
def USAGE_WHEEL : UInt32 := 0x38

structure Field where
  bit : UInt16 := 0
  size : UInt8 := 0
  min : Int32 := 0
  max : Int32 := 0
  relative : Bool := false

def Field.bitsFrom (f : Field) (report : List UInt8) : Nat → Nat → UInt32 → Checked Empty (Option UInt32)
  | 0, _, v => return some v
  | left + 1, i, v => do
    let bit ← Checked.add 16 f.bit.toNat i
    match report[bit / 8]? with
    | none => return none
    | some byte => f.bitsFrom report left (i + 1) (v ||| ((byte >>> .ofNat (bit % 8)) &&& 1).toUInt32 <<< .ofNat i)

def Field.get (f : Field) (report : List UInt8) : Checked Empty (Option Int32) := do
  if f.size = 0 ∨ f.size > 32 then
    return none
  match ← f.bitsFrom report f.size.toNat 0 0 with
  | none => return none
  | some v =>
    if f.min < 0 ∧ f.size < 32 ∧ v &&& 1 <<< (f.size - 1).toUInt32 ≠ 0 then
      return some (v ||| 0xFFFFFFFF <<< f.size.toUInt32).toInt32
    return some v.toInt32

structure Layout where
  id : UInt8
  x : Field := {}
  y : Field := {}
  wheel : Option Field := none
  buttons : Fin MAX_BUTTONS → Option Field := fun _ => none

structure Globals where
  page : UInt32 := 0
  min : Int32 := 0
  max : Int32 := 0
  size : UInt32 := 0
  count : UInt32 := 0
  id : UInt8 := 0

def saturatingAdd (a b : UInt32) : UInt32 := if a.toNat + b.toNat < 2 ^ 32 then a + b else 0xFFFFFFFF

def saturatingMul (a b : UInt32) : UInt32 := if a.toNat * b.toNat < 2 ^ 32 then a * b else 0xFFFFFFFF

variable {σ : Type}

/-- What `walk` keeps between two items, with what its closure `field` has made of the fields so far. -/
structure Walk (σ : Type) where
  acc : σ
  g : Globals := {}
  stack : List Globals := []
  usages : List UInt32 := []
  range : Option (UInt32 × UInt32) := none
  bits : UInt8 → UInt32 := fun _ => 0

def Walk.usage (w : Walk σ) (k : UInt32) : Option UInt32 :=
  match w.range with
  | some (lo, hi) => some (min (saturatingAdd lo k) hi)
  | none => w.usages[min k.toNat (w.usages.length - 1)]?

variable (field : σ → UInt8 → UInt32 → UInt32 → Field → σ)

def Walk.fields (w : Walk σ) (u : UInt32) : Nat → UInt32 → σ → Nat × Option σ
  | 0, _, acc => (0, some acc)
  | left + 1, k, acc =>
    match w.usage k with
    | none =>
      let (n, rest) := w.fields u left (k + 1) acc
      (n + 1, rest)
    | some usage =>
      let page := if usage > 0xFFFF then usage >>> 16 else w.g.page
      let bit := saturatingAdd (w.bits w.g.id) (saturatingMul k w.g.size)
      if bit.toNat < 2 ^ 16 then
        let f := { bit := bit.toUInt16, size := (min w.g.size 32).toUInt8, min := w.g.min, max := w.g.max,
                   relative := u &&& 4 ≠ 0 }
        let (n, rest) := w.fields u left (k + 1) (field acc w.g.id page (usage &&& 0xFFFF) f)
        (n + 1, rest)
      else (1, none)

def Walk.main (w : Walk σ) (tag : UInt8) (u : UInt32) : Nat × Option (Walk σ) :=
  if tag = 0x8 then
    let (n, acc) := if u &&& 1 = 0 ∧ u &&& 2 ≠ 0 then w.fields field u w.g.count.toNat 0 w.acc else (0, some w.acc)
    let bits id := if id = w.g.id then saturatingAdd (w.bits id) (saturatingMul w.g.count w.g.size) else w.bits id
    (n, acc.map fun acc => { w with acc, bits, usages := [], range := none })
  else (0, some { w with usages := [], range := none })

def Walk.global (w : Walk σ) (tag : UInt8) (u : UInt32) (s : Int32) : Walk σ :=
  if tag = 0x0 then { w with g.page := u }
  else if tag = 0x1 then { w with g.min := s }
  else if tag = 0x2 then { w with g.max := if w.g.min ≥ 0 then u.toInt32 else s }
  else if tag = 0x7 then { w with g.size := u }
  else if tag = 0x8 then { w with g.id := u.toUInt8 }
  else if tag = 0x9 then { w with g.count := u }
  else if tag = 0xA ∧ w.stack.length < 4 then { w with stack := w.g :: w.stack }
  else if tag = 0xB then
    match w.stack with
    | [] => w
    | g :: stack => { w with g, stack }
  else w

def Walk.«local» (w : Walk σ) (tag : UInt8) (u : UInt32) (len : Nat) : Walk σ :=
  if tag = 0x0 ∧ w.usages.length < 16 then { w with usages := w.usages ++ [if len = 4 then u else u &&& 0xFFFF] }
  else if tag = 0x1 then { w with range := some (u, w.range.elim u Prod.snd) }
  else if tag = 0x2 then { w with range := some (w.range.elim 0 Prod.fst, u) }
  else w

def itemValue (data : List UInt8) : UInt32 := data.foldr (fun b u => b.toUInt32 ||| u <<< 8) 0

def Walk.item (w : Walk σ) (head : UInt8) (data : List UInt8) : Nat × Option (Walk σ) :=
  let u := itemValue data
  let s := if data.length = 1 then u.toUInt8.toInt8.toInt32 else if data.length = 2 then u.toUInt16.toInt16.toInt32
    else u.toInt32
  let tag := head >>> 4
  let kind := head >>> 2 &&& 3
  let (n, next) :=
    if kind = 0 then w.main field tag u
    else (0, some (if kind = 1 then w.global tag u s else if kind = 2 then w.«local» tag u data.length else w))
  (data.length + n, next)

def dataLen (head : UInt8) : Nat := if head &&& 3 = 3 then 4 else (head &&& 3).toNat

def Walk.items (w : Walk σ) : Nat → List UInt8 → Nat × Option σ
  | _, [] => (0, some w.acc)
  | skip + 1, _ :: rest => w.items skip rest
  | 0, head :: rest =>
    if head = 0xFE then
      match rest with
      | [] => (1, none)
      | size :: _ =>
        let (n, result) := w.items (2 + size.toNat) rest
        (1 + n, result)
    else
      if rest.length < dataLen head then (1, none)
      else
        let (n, next) := w.item field head (rest.take (dataLen head))
        match next with
        | none => (1 + n, none)
        | some next =>
          let (m, result) := next.items (dataLen head) rest
          (1 + n + m, result)

def walk (d : List UInt8) (acc : σ) : Nat × Option σ := Walk.items field { acc } 0 d

def pickId (id : Option UInt8) (rid : UInt8) (page usage : UInt32) (_ : Field) : Option UInt8 :=
  if id = none ∧ page = PAGE_DESKTOP ∧ usage = USAGE_X then some rid else id

structure Picked where
  l : Layout
  x : Bool := false
  y : Bool := false

def pickField (p : Picked) (rid : UInt8) (page usage : UInt32) (f : Field) : Picked :=
  if rid ≠ p.l.id then p
  else if page = PAGE_DESKTOP ∧ usage = USAGE_X ∧ !p.x then { p with l.x := f, x := true }
  else if page = PAGE_DESKTOP ∧ usage = USAGE_Y ∧ !p.y then { p with l.y := f, y := true }
  else if page = PAGE_DESKTOP ∧ usage = USAGE_WHEEL ∧ p.l.wheel.isNone then { p with l.wheel := some f }
  else if page = PAGE_BUTTON then
    { p with l.buttons := fun i => if usage.toNat = i + 1 then some f else p.l.buttons i }
  else p

def parse (d : List UInt8) : Nat × Option Layout :=
  let (n, id) := walk pickId d none
  match id with
  | some (some id) =>
    let (m, picked) := walk pickField d { l := { id } }
    (n + m, picked.bind fun p => if p.y then some p.l else none)
  | _ => (n, none)

def Layout.Has (l : Layout) (f : Field) : Prop := f = l.x ∨ f = l.y ∨ l.wheel = some f ∨ ∃ i, l.buttons i = some f

/-! What a walk does between the calls of its closure does not depend on the closure. -/

def Walk.forget (w : Walk σ) : Walk Unit := { w with acc := () }

def ignore (_ : Unit) (_ : UInt8) (_ _ : UInt32) (_ : Field) : Unit := ()

theorem Walk.fields_forget (w : Walk σ) (u : UInt32) (left : Nat) (k : UInt32) (acc : σ) :
    (w.fields field u left k acc).1 = (w.forget.fields ignore u left k ()).1 ∧
      (w.fields field u left k acc).2.isSome = (w.forget.fields ignore u left k ()).2.isSome := by
  induction left generalizing k acc with
  | zero => exact ⟨rfl, rfl⟩
  | succ left ih =>
    have usage : w.forget.usage k = w.usage k := rfl
    unfold fields
    rw [usage]
    split
    · exact ⟨congrArg Nat.succ (ih ..).1, (ih ..).2⟩
    · dsimp only [forget]
      split
      · exact ⟨congrArg Nat.succ (ih ..).1, (ih ..).2⟩
      · exact ⟨rfl, rfl⟩

theorem Walk.main_forget (w : Walk σ) (tag : UInt8) (u : UInt32) :
    (w.main field tag u).1 = (w.forget.main ignore tag u).1 ∧
      (w.main field tag u).2.map forget = (w.forget.main ignore tag u).2 := by
  have same := w.fields_forget field u w.g.count.toNat 0 w.acc
  change _ = (w.forget.fields ignore u w.forget.g.count.toNat 0 w.forget.acc).1 ∧
    _ = (w.forget.fields ignore u w.forget.g.count.toNat 0 w.forget.acc).2.isSome at same
  unfold main
  split
  · by_cases lays : u &&& 1 = 0 ∧ u &&& 2 ≠ 0
    · simp only [if_pos lays]
      refine ⟨same.1, ?_⟩
      have ended := same.2
      cases one : (w.fields field u w.g.count.toNat 0 w.acc).2 <;>
        cases other : (w.forget.fields ignore u w.forget.g.count.toNat 0 w.forget.acc).2
      · rfl
      · simp [one, other] at ended
      · simp [one, other] at ended
      · rfl
    · rw [if_neg lays, if_neg lays]
      exact ⟨rfl, rfl⟩
  · exact ⟨rfl, rfl⟩

theorem Walk.global_forget (w : Walk σ) (tag : UInt8) (u : UInt32) (s : Int32) :
    (w.global tag u s).forget = w.forget.global tag u s := by
  obtain ⟨acc, g, stack, usages, range, bits⟩ := w
  cases stack <;>
  · simp only [global, apply_ite forget]
    rfl

theorem Walk.local_forget (w : Walk σ) (tag : UInt8) (u : UInt32) (len : Nat) :
    (w.«local» tag u len).forget = w.forget.«local» tag u len := by
  simp only [«local», apply_ite forget]
  rfl

theorem Walk.item_forget (w : Walk σ) (head : UInt8) (data : List UInt8) :
    (w.item field head data).1 = (w.forget.item ignore head data).1 ∧
      (w.item field head data).2.map forget = (w.forget.item ignore head data).2 := by
  obtain ⟨rounds, next⟩ := w.main_forget field (head >>> 4) (itemValue data)
  unfold item
  dsimp only
  split
  · exact ⟨congrArg (data.length + ·) rounds, next⟩
  · refine ⟨rfl, congrArg some ?_⟩
    simp only [apply_ite forget, global_forget, local_forget]

theorem Walk.items_forget (w : Walk σ) (skip : Nat) (d : List UInt8) :
    (w.items field skip d).1 = (w.forget.items ignore skip d).1 := by
  induction d generalizing w skip with
  | nil => rfl
  | cons head rest ih =>
    cases skip with
    | succ skip => exact ih w skip
    | zero =>
      unfold items
      split
      · split
        · rfl
        · exact congrArg (1 + ·) (ih ..)
      dsimp only
      split
      · rfl
      obtain ⟨rounds, next⟩ := w.item_forget field head (rest.take (dataLen head))
      rw [← rounds, ← next]
      cases (w.item field head (rest.take (dataLen head))).2 with
      | none => rfl
      | some next => exact congrArg (1 + _ + ·) (ih ..)

/-! The rounds of one Input item. -/

/-- Without a usage, or with a size of zero, the fields of an Input item never get to bit `2 ^ 16`, where the loop ends. -/
def Walk.Spins (w : Walk σ) : Prop := w.usage 0 = none ∨ w.g.size = 0 ∧ (w.bits w.g.id).toNat < 2 ^ 16

instance (w : Walk σ) : Decidable w.Spins := inferInstanceAs (Decidable (_ ∨ _))

theorem Walk.usage_eq_none {w : Walk σ} {k : UInt32} : w.usage k = none ↔ w.usage 0 = none := by
  unfold usage
  cases w.range with
  | some range => simp
  | none =>
    simp only [List.getElem?_eq_none_iff]
    omega

theorem Walk.fields_of_spins {w : Walk σ} (spins : w.Spins) (u : UInt32) (left : Nat) (k : UInt32) (acc : σ) :
    (w.fields field u left k acc).1 = left := by
  induction left generalizing k acc with
  | zero => rfl
  | succ left ih =>
    unfold fields
    split
    · exact congrArg Nat.succ (ih ..)
    · rename_i usage found
      have unnamed : ¬w.usage 0 = none := fun unnamed => by simp [usage_eq_none.mpr unnamed] at found
      obtain ⟨size, low⟩ := spins.resolve_left unnamed
      have still : saturatingAdd (w.bits w.g.id) (saturatingMul k w.g.size) = w.bits w.g.id := by
        simp [saturatingAdd, saturatingMul, size, (w.bits w.g.id).toNat_lt]
      dsimp only
      rw [still, if_pos low]
      exact congrArg Nat.succ (ih ..)

theorem le_saturatingAdd_mul (first k size : UInt32) (sized : size ≠ 0) :
    k.toNat ≤ (saturatingAdd first (saturatingMul k size)).toNat := by
  have least : 1 ≤ size.toNat := Nat.pos_of_ne_zero fun zero => sized (UInt32.toNat_inj.mp zero)
  have product : k.toNat ≤ k.toNat * size.toNat := Nat.le_mul_of_pos_right _ least
  have times : k.toNat ≤ (saturatingMul k size).toNat := by
    unfold saturatingMul
    split
    · rename_i fits
      rwa [UInt32.toNat_mul, Nat.mod_eq_of_lt fits]
    · exact Nat.le_of_lt_succ k.toNat_lt
  unfold saturatingAdd
  split
  · rename_i fits
    rw [UInt32.toNat_add, Nat.mod_eq_of_lt fits]
    omega
  · exact Nat.le_of_lt_succ k.toNat_lt

-- The bit of a field grows with its number, so the loop ends with field 2 ^ 16 at the latest.
theorem Walk.fields_le_of_sized {w : Walk σ} (named : w.usage 0 ≠ none) (sized : w.g.size ≠ 0) (u : UInt32) (left : Nat)
    {k : UInt32} (below : k.toNat ≤ 2 ^ 16) (acc : σ) : (w.fields field u left k acc).1 ≤ 2 ^ 16 + 1 - k.toNat := by
  induction left generalizing k acc with
  | zero => exact Nat.zero_le _
  | succ left ih =>
    unfold fields
    split
    · rename_i unnamed
      exact absurd (usage_eq_none.mp unnamed) named
    · dsimp only
      split
      · rename_i low
        have grown := le_saturatingAdd_mul (w.bits w.g.id) k w.g.size sized
        have next : (k + 1).toNat = k.toNat + 1 := by
          rw [UInt32.toNat_add, show (1 : UInt32).toNat = 1 from rfl]
          exact Nat.mod_eq_of_lt (by omega)
        refine Nat.le_trans (Nat.succ_le_succ (ih (k := k + 1) (by omega) _)) ?_
        omega
      · dsimp only
        omega

theorem Walk.fields_le {w : Walk σ} {limit : Nat} (enough : 2 ^ 16 < limit) (tame : w.Spins → w.g.count.toNat ≤ limit)
    (u : UInt32) (acc : σ) : (w.fields field u w.g.count.toNat 0 acc).1 ≤ limit := by
  by_cases spins : w.Spins
  · rw [fields_of_spins field spins]
    exact tame spins
  obtain ⟨named, moves⟩ := not_or.mp spins
  by_cases size : w.g.size = 0
  · -- The first field is already past the last bit.
    have past : ¬(w.bits w.g.id).toNat < 2 ^ 16 := fun low => moves ⟨size, low⟩
    cases w.g.count.toNat with
    | zero => exact Nat.zero_le _
    | succ left =>
      have still : saturatingAdd (w.bits w.g.id) (saturatingMul 0 w.g.size) = w.bits w.g.id := by
        simp [saturatingAdd, saturatingMul, (w.bits w.g.id).toNat_lt]
      obtain ⟨usage, found⟩ := Option.ne_none_iff_exists'.mp named
      unfold fields
      simp only [found, still, if_neg past]
      omega
  · exact Nat.le_trans (fields_le_of_sized field named size u _ (Nat.zero_le _) acc) enough

/-! The Input items of a descriptor. -/

def lays (head : UInt8) (data : List UInt8) : Bool :=
  head >>> 2 &&& 3 = 0 ∧ head >>> 4 = 0x8 ∧ itemValue data &&& 1 = 0 ∧ itemValue data &&& 2 ≠ 0

theorem Walk.item_rounds (w : Walk σ) (head : UInt8) (data : List UInt8) : (w.item field head data).1 =
    data.length + if lays head data then (w.fields field (itemValue data) w.g.count.toNat 0 w.acc).1 else 0 := by
  unfold item main lays
  by_cases kind : head >>> 2 &&& 3 = 0
  · by_cases tag : head >>> 4 = 0x8
    · by_cases bits : itemValue data &&& 1 = 0 ∧ itemValue data &&& 2 ≠ 0
      · simp [kind, tag, bits]
      · simp only [kind, tag, bits, if_true, true_and, decide_false]
        rfl
    · simp [kind, tag]
  · simp [kind]

/-- The states in which a walk comes to an Input item whose fields it lays out. -/
def Walk.loops (w : Walk Unit) : Nat → List UInt8 → List (Walk Unit)
  | _, [] => []
  | skip + 1, _ :: rest => w.loops skip rest
  | 0, head :: rest =>
    if head = 0xFE then
      match rest with
      | [] => []
      | size :: _ => w.loops (2 + size.toNat) rest
    else if rest.length < dataLen head then []
    else
      (if lays head (rest.take (dataLen head)) then [w] else []) ++
        match (w.item ignore head (rest.take (dataLen head))).2 with
        | none => []
        | some next => next.loops (dataLen head) rest

theorem dataLen_le (head : UInt8) : dataLen head ≤ 4 := by
  unfold dataLen
  split
  · exact Nat.le.refl
  · rw [UInt8.toNat_and]
    exact Nat.le_trans Nat.and_le_right (by decide)

theorem Walk.items_le {limit : Nat} (enough : 2 ^ 16 < limit) (w : Walk Unit) (skip : Nat) (d : List UInt8)
    (tame : ∀ v ∈ w.loops skip d, v.Spins → v.g.count.toNat ≤ limit) :
    (w.items ignore skip d).1 ≤ (limit + 5) * d.length := by
  induction d generalizing w skip with
  | nil => exact Nat.zero_le _
  | cons head rest ih =>
    rw [List.length_cons, Nat.mul_succ]
    cases skip with
    | succ skip => exact Nat.le_add_right_of_le (ih w skip tame)
    | zero =>
      unfold items
      unfold loops at tame
      by_cases long : head = 0xFE
      · simp only [if_pos long] at tame ⊢
        split
        · exact Nat.le_add_left_of_le (Nat.le_add_left 1 _)
        rename_i size tail
        have more := ih w (2 + size.toNat) tame
        dsimp only
        omega
      by_cases cut : rest.length < dataLen head
      · simp only [if_neg long, if_pos cut]
        omega
      simp only [if_neg long, if_neg cut] at tame ⊢
      have short := dataLen_le head
      have once : (w.item ignore head (rest.take (dataLen head))).1 ≤ dataLen head + limit := by
        rw [item_rounds, List.length_take, Nat.min_eq_left (Nat.le_of_not_lt cut)]
        apply Nat.add_le_add_left
        split
        · rename_i here
          exact fields_le ignore enough (tame w (by simp [here])) _ _
        · exact Nat.zero_le _
      cases next : (w.item ignore head (rest.take (dataLen head))).2 with
      | none =>
        dsimp only
        omega
      | some after =>
        have more := ih after (dataLen head) fun v member => tame v (List.mem_append_right _ (by rwa [next]))
        dsimp only
        omega

theorem Walk.le_items {w v : Walk Unit} {skip : Nat} {d : List UInt8} (met : v ∈ w.loops skip d) (spins : v.Spins) :
    v.g.count.toNat ≤ (w.items ignore skip d).1 := by
  induction d generalizing w skip with
  | nil => cases met
  | cons head rest ih =>
    cases skip with
    | succ skip => exact ih met
    | zero =>
      unfold items
      unfold loops at met
      by_cases long : head = 0xFE
      · simp only [if_pos long] at met ⊢
        split at met
        · cases met
        · exact Nat.le_add_left_of_le (ih met)
      by_cases cut : rest.length < dataLen head
      · simp only [if_neg long, if_pos cut] at met
        cases met
      simp only [if_neg long, if_neg cut] at met ⊢
      rcases List.mem_append.mp met with here | later
      · obtain ⟨laid, rfl⟩ : lays head (rest.take (dataLen head)) = true ∧ v = w := by
          split at here
          · rename_i laid
            exact ⟨laid, List.mem_singleton.mp here⟩
          · cases here
        have rounds := v.item_rounds ignore head (rest.take (dataLen head))
        rw [if_pos laid, fields_of_spins ignore spins] at rounds
        split <;> dsimp only <;> omega
      · split at later
        · cases later
        · rename_i after next
          have more := ih later
          rw [next]
          dsimp only
          omega

theorem Walk.loops_skip (w : Walk Unit) (data rest : List UInt8) : w.loops data.length (data ++ rest) = w.loops 0 rest := by
  induction data with
  | nil => rfl
  | cons b data ih => exact ih

theorem Walk.loops_item (w : Walk Unit) {head : UInt8} {data rest : List UInt8} (short : head ≠ 0xFE)
    (size : data.length = dataLen head) : w.loops 0 (head :: (data ++ rest)) =
      (if lays head data then [w] else []) ++ (w.item ignore head data).2.elim [] (·.loops 0 rest) := by
  have enough : ¬(data ++ rest).length < dataLen head := by
    rw [List.length_append]
    omega
  rw [loops.eq_def]
  simp only [if_neg short, if_neg enough]
  rw [← size, List.take_left]
  cases (w.item ignore head data).2 with
  | none => rfl
  | some next => exact congrArg _ (next.loops_skip data rest)

theorem Walk.mem_loops_self (w : Walk Unit) {head : UInt8} (data rest : List UInt8) (short : head ≠ 0xFE)
    (size : data.length = dataLen head) (laid : lays head data = true) : w ∈ w.loops 0 (head :: (data ++ rest)) := by
  rw [w.loops_item short size, if_pos laid]
  exact List.mem_append_left _ (List.mem_singleton_self w)

theorem Walk.mem_loops_next {w v next : Walk Unit} {head : UInt8} (data : List UInt8) {rest : List UInt8}
    (short : head ≠ 0xFE) (size : data.length = dataLen head) (after : (w.item ignore head data).2 = some next)
    (met : v ∈ next.loops 0 rest) :
    v ∈ w.loops 0 (head :: (data ++ rest)) := by
  rw [w.loops_item short size, after]
  exact List.mem_append_right _ met

/-! The two walks of `parse`. -/

def rounds (d : List UInt8) : Nat := (walk ignore d ()).1

def inputs (d : List UInt8) : List (Walk Unit) := Walk.loops { acc := () } 0 d

/-- No Input item of `d` asks for more than `limit` fields without a usage or a size that ends its loop before. -/
def Tame (limit : Nat) (d : List UInt8) : Prop := ∀ w ∈ inputs d, w.Spins → w.g.count.toNat ≤ limit

theorem le_rounds {d : List UInt8} {w : Walk Unit} (met : w ∈ inputs d) (spins : w.Spins) : w.g.count.toNat ≤ rounds d :=
  Walk.le_items met spins

theorem parse_rounds (d : List UInt8) : rounds d ≤ (parse d).1 ∧ (parse d).1 ≤ 2 * rounds d := by
  have first : (walk pickId d none).1 = rounds d := Walk.items_forget pickId { acc := none } 0 d
  unfold parse
  dsimp only
  rw [first]
  split
  · rename_i id _
    have second : (walk pickField d { l := { id } }).1 = rounds d := Walk.items_forget pickField { acc := _ } 0 d
    rw [second]
    omega
  · omega

-- Bit 2 ^ 16 would be in byte 2 ^ 13, and the byte before it is already behind the report.
theorem Field.returns_bitsFrom (f : Field) {report : List UInt8} (short : report.length < 2 ^ 13) (left : Nat) {i : Nat}
    (fits : f.bit.toNat + i < 2 ^ 16) (v : UInt32) : ∃ value, f.bitsFrom report left i v = .ok value := by
  induction left generalizing i v with
  | zero => exact ⟨_, rfl⟩
  | succ left ih =>
    rw [bitsFrom, Checked.add, if_pos fits, Checked.ok_bind]
    split
    · exact ⟨_, rfl⟩
    · rename_i found
      have inside := (List.getElem?_eq_some_iff.mp found).1
      exact ih (by omega) _

/-- For every limit from `2 ^ 16 + 1` on: the work is linear in the descriptor when its Input items keep to the limit, and
more than the limit when one does not. -/
theorem parse_bounded (d : List UInt8) :
    (∀ limit, 2 ^ 16 < limit → (Tame limit d → (parse d).1 ≤ 2 * (limit + 5) * d.length) ∧
      (¬Tame limit d → limit < (parse d).1)) ∧
    ∀ l, (parse d).2 = some l → ∀ f, l.Has f → ∀ report : List UInt8, report.length < 2 ^ 13 →
      ∃ value, f.get report = .ok value := by
  obtain ⟨least, most⟩ := parse_rounds d
  refine ⟨fun limit enough => ⟨fun tame => ?_, fun wild => ?_⟩, fun l _ f _ report short => ?_⟩
  · have bound : rounds d ≤ (limit + 5) * d.length := Walk.items_le enough _ 0 d tame
    rw [Nat.mul_assoc]
    omega
  · obtain ⟨w, met, spins, more⟩ : ∃ w ∈ inputs d, w.Spins ∧ limit < w.g.count.toNat := by
      simpa [Tame] using wild
    exact Nat.lt_of_lt_of_le more (Nat.le_trans (le_rounds met spins) least)
  · obtain ⟨value, returned⟩ := f.returns_bitsFrom short f.size.toNat (i := 0) f.bit.toNat_lt 0
    unfold Field.get
    split
    · exact ⟨_, rfl⟩
    rw [returned, Checked.ok_bind]
    split
    · exact ⟨_, rfl⟩
    · split
      · exact ⟨_, rfl⟩
      · exact ⟨_, rfl⟩

def mouse : List UInt8 := [0x05, 0x01, 0x09, 0x30, 0x09, 0x31, 0x75, 0x08, 0x95, 0x02, 0x81, 0x06]

theorem parse_bounded_mouse : (parse mouse).1 ≤ 2 * (2 ^ 16 + 6) * mouse.length ∧
    ∃ l, (parse mouse).2 = some l ∧ ∃ value, l.y.get [5, 251] = .ok value :=
  ⟨((parse_bounded mouse).1 (2 ^ 16 + 1) (by decide)).1 (by unfold Tame; decide),
    _, rfl, (parse_bounded mouse).2 _ rfl _ (.inr (.inl rfl)) _ (by decide)⟩

/-- An X axis of `2 ^ 32 - 1` fields of no bits. -/
def endless : List UInt8 := [0x05, 0x01, 0x09, 0x30, 0x75, 0x00, 0x97, 0xFF, 0xFF, 0xFF, 0xFF, 0x81, 0x02]

theorem endless_spins : endless.length = 13 ∧ 2 ^ 32 - 1 ≤ (parse endless).1 := by
  let w : Walk Unit := { acc := (), g := { page := 1, count := 0xFFFFFFFF }, usages := [0x30] }
  have met : w ∈ inputs endless := by
    refine Walk.mem_loops_next [0x01] (by decide) rfl rfl ?_
    refine Walk.mem_loops_next [0x30] (by decide) rfl rfl ?_
    refine Walk.mem_loops_next [0x00] (by decide) rfl rfl ?_
    refine Walk.mem_loops_next [0xFF, 0xFF, 0xFF, 0xFF] (by decide) rfl rfl ?_
    exact w.mem_loops_self [0x02] [] (by decide) rfl rfl
  have spins : w.Spins := .inr ⟨rfl, by decide⟩
  exact ⟨rfl, Nat.le_trans (le_rounds met spins) (parse_rounds endless).1⟩

end Myos.Modules.HidReport
