import Mathlib.Logic.Function.Basic

namespace Myos.Modules.Ps2

inductive ScancodeSet
  | set1
  | set2
deriving DecidableEq

inductive Modifier
  | shift
  | altgr
  | alt
  | ctrl
deriving DecidableEq

/-- The decoder but for the modifiers' flags, which `feed` only writes. -/
structure Decoder where
  set : ScancodeSet
  extended : Bool
  set2Break : Bool
  pauseSkip : Nat
deriving DecidableEq

def set1MakeToKeycode (sc : Nat) : Option Nat :=
  if 0x01 ≤ sc ∧ sc ≤ 0x0D ∨ sc = 0x0E ∨ sc = 0x0F ∨ 0x10 ≤ sc ∧ sc ≤ 0x1C ∨ 0x1E ≤ sc ∧ sc ≤ 0x29 ∨ sc = 0x2B ∨
      0x2C ≤ sc ∧ sc ≤ 0x35 ∨ sc = 0x39 ∨ sc = 0x56 then some sc
  else none

def set2MakeToKeycode (sc : Nat) : Option Nat :=
  [(0x76, 0x01), (0x16, 0x02), (0x1E, 0x03), (0x26, 0x04), (0x25, 0x05), (0x2E, 0x06), (0x36, 0x07), (0x3D, 0x08),
    (0x3E, 0x09), (0x46, 0x0A), (0x45, 0x0B), (0x4E, 0x0C), (0x55, 0x0D), (0x66, 0x0E), (0x0D, 0x0F), (0x15, 0x10),
    (0x1D, 0x11), (0x24, 0x12), (0x2D, 0x13), (0x2C, 0x14), (0x35, 0x15), (0x3C, 0x16), (0x43, 0x17), (0x44, 0x18),
    (0x4D, 0x19), (0x54, 0x1A), (0x5B, 0x1B), (0x5A, 0x1C), (0x1C, 0x1E), (0x1B, 0x1F), (0x23, 0x20), (0x2B, 0x21),
    (0x34, 0x22), (0x33, 0x23), (0x3B, 0x24), (0x42, 0x25), (0x4B, 0x26), (0x4C, 0x27), (0x52, 0x28), (0x0E, 0x29),
    (0x5D, 0x2B), (0x1A, 0x2C), (0x22, 0x2D), (0x21, 0x2E), (0x2A, 0x2F), (0x32, 0x30), (0x31, 0x31), (0x3A, 0x32),
    (0x41, 0x33), (0x49, 0x34), (0x4A, 0x35), (0x29, 0x39), (0x61, 0x56)].lookup sc

/-- The modifier arms of `feed` and of the `decode_` functions, the same for makes and breaks. -/
def modifier : ScancodeSet → Bool → Nat → Option Modifier
  | .set1, _, 0x2A | .set1, _, 0x36 | .set2, false, 0x12 | .set2, false, 0x59 => some .shift
  | .set1, false, 0x38 | .set2, false, 0x11 => some .alt
  | .set1, true, 0x38 | .set2, true, 0x11 => some .altgr
  | .set1, _, 0x1D | .set2, _, 0x14 => some .ctrl
  | _, _, _ => none

def keycode : ScancodeSet → Bool → Nat → Option Nat
  | .set1, false, sc => if sc = 0x3A then none else set1MakeToKeycode sc
  | .set2, false, sc => if sc = 0x58 then none else set2MakeToKeycode sc
  | .set1, true, sc => if sc ∈ [0x53, 0x48, 0x50, 0x4B, 0x4D] then some sc else none
  | .set2, true, sc => [(0x71, 0x53), (0x75, 0x48), (0x72, 0x50), (0x6B, 0x4B), (0x74, 0x4D)].lookup sc

namespace Decoder

variable (d : Decoder)

def decodeMake (sc : Nat) : Option (Modifier × Bool) × Option Nat :=
  match modifier d.set d.extended sc with
  | some m => (some (m, true), none)
  | none => (none, keycode d.set d.extended sc)

def decodeBreak (sc : Nat) : Option (Modifier × Bool) × Option Nat := ((modifier d.set d.extended sc).map (·, false), none)

/-- The decoder after the byte, the flag it writes and the key code it returns. -/
def feed (sc : Nat) : Decoder × Option (Modifier × Bool) × Option Nat :=
  if 0 < d.pauseSkip then ({ d with pauseSkip := d.pauseSkip - 1 }, none, none)
  else if sc ∈ [0x00, 0xEE, 0xFA, 0xFC, 0xFD, 0xFE] then (d, none, none)
  else if d.set = .set2 ∧ sc = 0xF0 then ({ d with set2Break := true }, none, none)
  else if d.set2Break then
    ({ d with extended := false, set2Break := false }, if d.set = .set2 then d.decodeBreak sc else (none, none))
  else if sc = 0xE0 then ({ d with extended := true }, none, none)
  else if sc = 0xE1 then ({ d with pauseSkip := 6 }, none, none)
  else ({ d with extended := false },
    if d.set = .set1 ∧ sc &&& 0x80 ≠ 0 then d.decodeBreak (sc &&& 0x7F) else d.decodeMake sc)

def feedAll (d : Decoder) : List Nat → Decoder × List (Modifier × Bool) × List Nat
  | [] => (d, [], [])
  | sc :: rest =>
    let (d, flag, key) := d.feed sc
    let (d, flags, keys) := d.feedAll rest
    (d, flag.toList ++ flags, key.toList ++ keys)

end Decoder

def new (set : ScancodeSet) : Decoder := ⟨set, false, false, 0⟩

def write (flags : Modifier → Bool) (flag : Modifier × Bool) : Modifier → Bool := Function.update flags flag.1 flag.2

/-- The keyboard's set-2 make codes, by set-1 make code. -/
def set2Codes : List Nat :=
  [0x00, 0x76, 0x16, 0x1E, 0x26, 0x25, 0x2E, 0x36, 0x3D, 0x3E, 0x46, 0x45, 0x4E, 0x55, 0x66, 0x0D, 0x15, 0x1D, 0x24, 0x2D,
    0x2C, 0x35, 0x3C, 0x43, 0x44, 0x4D, 0x54, 0x5B, 0x5A, 0x14, 0x1C, 0x1B, 0x23, 0x2B, 0x34, 0x33, 0x3B, 0x42, 0x4B, 0x4C,
    0x52, 0x0E, 0x12, 0x5D, 0x1A, 0x22, 0x21, 0x2A, 0x32, 0x31, 0x3A, 0x41, 0x49, 0x4A, 0x59, 0x7C, 0x11, 0x29, 0x58, 0x05,
    0x06, 0x04, 0x0C, 0x03, 0x0B, 0x83, 0x0A, 0x01, 0x09, 0x77, 0x7E, 0x6C, 0x75, 0x7D, 0x7B, 0x6B, 0x73, 0x74, 0x79, 0x69,
    0x72, 0x7A, 0x70, 0x71, 0x84, 0x60, 0x61, 0x78, 0x07, 0x0F, 0x17, 0x1F, 0x27, 0x2F, 0x37, 0x3F, 0x47, 0x4F, 0x56, 0x5E,
    0x08, 0x10, 0x18, 0x20, 0x28, 0x30, 0x38, 0x40, 0x48, 0x50, 0x57, 0x6F, 0x13, 0x19, 0x39, 0x51, 0x53, 0x5C, 0x5F, 0x62,
    0x63, 0x64, 0x65, 0x67, 0x68, 0x6A, 0x6D, 0x6E]

/-- A key by its set-1 make code. No break is a lead byte, and no extended key has the code of a fake shift. -/
structure Key where
  extended : Bool
  code : Fin 0x80
  isKey : code.val ∉ [0x00, 0x60, 0x61] ∧ (extended = true → code.val < 0x6E ∧ code.val ∉ [0x2A, 0x36])
deriving DecidableEq

def Key.modifier (k : Key) : Option Modifier :=
  match k.extended, k.code.val with
  | false, 0x2A | false, 0x36 => some .shift
  | false, 0x38 => some .alt
  | true, 0x38 => some .altgr
  | _, 0x1D => some .ctrl
  | _, _ => none

/-- A repeat is one more press. -/
inductive Event
  | key (k : Key) (down : Bool)
  | fakeShift (right down : Bool)
  | pause

def scancodes (set : ScancodeSet) (extended : Bool) (code : Nat) (down : Bool) : List Nat :=
  (if extended then [0xE0] else []) ++
    match set, down with
    | .set1, true => [code]
    | .set1, false => [code + 0x80]
    | .set2, true => [set2Codes.getD code 0]
    | .set2, false => [0xF0, set2Codes.getD code 0]

namespace Event

variable (set : ScancodeSet) (held : Key → Bool)

def bytes : Event → List Nat
  | .key k down => scancodes set k.extended k.code down
  | .fakeShift right down => scancodes set true (if right then 0x36 else 0x2A) down
  | .pause =>
    match set with
    | .set1 => [0xE1, 0x1D, 0x45, 0xE1, 0x9D, 0xC5]
    | .set2 => [0xE1, 0x14, 0x77, 0xE1, 0xF0, 0x14, 0xF0, 0x77]

def hold : Event → Key → Bool
  | .key k down => Function.update held k down
  | _ => held

def code : Event → Option Nat
  | .key k true => keycode .set1 k.extended k.code
  | _ => none

def flag : Event → Option (Modifier × Bool)
  | .key k down => k.modifier.map (·, down)
  | .fakeShift _ down => if set = .set1 then some (.shift, down) else none
  | .pause => none

def Meets : Event → Prop
  | .key k down => down = true ∨ k.modifier = none ∨ ∀ other, held other = true → other.modifier = k.modifier → other = k
  | .fakeShift _ down => set = .set2 ∨ (down = true ↔ ∃ k, held k = true ∧ k.modifier = some .shift)
  | .pause => set = .set2

end Event

def MeetAll (set : ScancodeSet) : (Key → Bool) → List Event → Prop
  | _, [] => True
  | held, e :: rest => e.Meets set held ∧ MeetAll set (e.hold held) rest

/-- From right flags to right flags, with the key codes of the events, whichever the set. -/
def Decodes (set : ScancodeSet) (flags : Modifier → Bool) (held : Key → Bool) (events : List Event) : Prop :=
  let (_, written, keys) := (new set).feedAll (events.flatMap (Event.bytes set))
  (∀ m, written.foldl write flags m = true ↔ ∃ k, events.foldl Event.hold held k = true ∧ k.modifier = some m) ∧
    keys = events.filterMap Event.code

variable {set : ScancodeSet} {flags : Modifier → Bool} {held : Key → Bool}

theorem feedAll_scancodes : ∀ extended, ∀ code : Fin 0x80, ∀ isKey down,
    let e := Event.key ⟨extended, code, isKey⟩ down
    (new .set1).feedAll (e.bytes .set1) = (new .set1, (e.flag .set1).toList, e.code.toList) ∧
      (new .set2).feedAll (e.bytes .set2) = (new .set2, (e.flag .set2).toList, e.code.toList) := by
  decide +kernel

theorem Event.feedAll_bytes (e : Event) (met : e.Meets set held) :
    (new set).feedAll (e.bytes set) = (new set, (e.flag set).toList, e.code.toList) := by
  cases e with
  | key k down =>
    obtain ⟨inSet1, inSet2⟩ := feedAll_scancodes k.extended k.code k.isKey down
    cases set
    · exact inSet1
    · exact inSet2
  | fakeShift right down => cases set <;> cases right <;> cases down <;> rfl
  | pause =>
    cases met
    rfl

theorem Event.flag_right (e : Event) (met : e.Meets set held)
    (right : ∀ m, flags m = true ↔ ∃ k, held k = true ∧ k.modifier = some m) (m : Modifier) :
    (e.flag set).toList.foldl write flags m = true ↔ ∃ k, e.hold held k = true ∧ k.modifier = some m := by
  have before := right m
  cases e with
  | key k down =>
    cases own : k.modifier <;> simp only [Meets, own] at met <;>
      simp only [flag, own, Option.map_none, Option.map_some, Option.toList_none, Option.toList_some, List.foldl_cons,
        List.foldl_nil,
        write, hold, Function.update_apply]
    · grind
    · grind
  | fakeShift isRight down =>
    cases set with
    | set1 =>
      have shift := met.resolve_left nofun
      simp only [flag, if_pos, Option.toList_some, List.foldl_cons, List.foldl_nil, write, Function.update_apply, hold]
      grind
    | set2 => exact before
  | pause => exact before

theorem Decoder.feedAll_append (d : Decoder) (bytes more : List Nat) :
    let fed := d.feedAll bytes
    let rest := fed.1.feedAll more
    d.feedAll (bytes ++ more) = (rest.1, fed.2.1 ++ rest.2.1, fed.2.2 ++ rest.2.2) := by
  induction bytes generalizing d with
  | nil => rfl
  | cons sc rest ih => simp [feedAll, ih]

theorem decodes_of_meetAll (set : ScancodeSet) (flags : Modifier → Bool) (held : Key → Bool) (events : List Event)
    (right : ∀ m, flags m = true ↔ ∃ k, held k = true ∧ k.modifier = some m) (met : MeetAll set held events) :
    Decodes set flags held events := by
  induction events generalizing flags held with
  | nil => exact ⟨right, rfl⟩
  | cons e rest ih =>
    obtain ⟨now, later⟩ := met
    obtain ⟨right, keys⟩ := ih _ _ (e.flag_right now right) later
    simp only [Decodes, List.flatMap_cons, Decoder.feedAll_append, e.feedAll_bytes now, List.foldl_append, keys]
    refine ⟨right, ?_⟩
    cases isCode : e.code <;> simp [isCode]

def leftCtrl : Key := ⟨false, 0x1D, by decide⟩
def rightCtrl : Key := ⟨true, 0x1D, by decide⟩

theorem decodes_of_meetAll_repeat : Decodes .set2 (fun _ => false) (fun _ => false)
    [.key leftCtrl true, .key leftCtrl true, .fakeShift false true, .pause, .key leftCtrl false] := by
  refine decodes_of_meetAll _ _ _ _ (by simp) ⟨.inl rfl, .inl rfl, .inl rfl, rfl, .inr (.inr fun other isHeld _ => ?_), trivial⟩
  by_contra apart
  simp [Event.hold, Function.update_of_ne apart] at isHeld

/-- Releasing one Ctrl clears the flag while the other is held. -/
theorem release_forgets_twin : ¬∀ set events, Decodes set (fun _ => false) (fun _ => false) events := by
  intro always
  have flags := (always .set1 [.key leftCtrl true, .key rightCtrl true, .key leftCtrl false]).1 .ctrl
  exact absurd (flags.mpr ⟨rightCtrl, by decide, rfl⟩) (by decide)

end Myos.Modules.Ps2
