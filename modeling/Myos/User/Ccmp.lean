import Mathlib.Algebra.GroupWithZero.Nat
import Myos.Lib.Consts

namespace Myos.User.Ccmp

def HDR : Nat := 8
def MIC : Nat := 8
def PROTECTED : UInt8 := 0x40
def EXT_IV : UInt8 := 0x20

abbrev Bytes := List UInt8

abbrev Key := Vector UInt8 16

/-- AES-CCM with detached tags of `MIC` bytes: what one call encrypts, the other gives back under the same key,
nonce and associated data. -/
structure Ccm where
  encryptDetached (tk : Key) (nonce aad body : Bytes) : Option (Bytes × Bytes)
  decryptDetached (tk : Key) (nonce aad body tag : Bytes) : Option Bytes
  tagged {tk : Key} {nonce aad body cipher tag : Bytes} :
    encryptDetached tk nonce aad body = some (cipher, tag) → tag.length = MIC
  inverts {tk : Key} {nonce aad body cipher tag : Bytes} :
    encryptDetached tk nonce aad body = some (cipher, tag) → decryptDetached tk nonce aad cipher tag = some body

def byte (f : Bytes) (i : Nat) : UInt8 := f[i]?.getD 0

def slice (f : Bytes) (start stop : Nat) : Bytes := (f.drop start).take (stop - start)

def fourAddresses (f : Bytes) : Prop := byte f 1 &&& 3 = 3

def isQos (f : Bytes) : Prop := byte f 0 &&& 0x88 = 0x88

instance (f : Bytes) : Decidable (fourAddresses f) := inferInstanceAs (Decidable (_ = _))

instance (f : Bytes) : Decidable (isQos f) := inferInstanceAs (Decidable (_ = _))

def headerLen (f : Bytes) : Option Nat :=
  if 2 ≤ f.length then
    let n := 24 + (if fourAddresses f then 6 else 0) + if isQos f then 2 else 0
    if n ≤ f.length then some n else none
  else none

def pnByte (pn k : Nat) : UInt8 := UInt8.ofNat (pn >>> (8 * k))

def nonceAad (f : Bytes) (hl pn : Nat) : Bytes × Bytes :=
  let fc1 := (byte f 1 &&& ~~~0x38) ||| PROTECTED
  ((if isQos f then byte f (hl - 2) &&& 0x0f else 0) :: slice f 10 16 ++ [5, 4, 3, 2, 1, 0].map (pnByte pn),
    [byte f 0 &&& 0x8f, if isQos f then fc1 &&& ~~~0x80 else fc1] ++ slice f 4 22 ++ [byte f 22 &&& 0x0f, 0] ++
      (if fourAddresses f then slice f 24 30 else []) ++ if isQos f then [byte f (hl - 2) &&& 0x0f, 0] else [])

def ccmpHeader (pn : Nat) (keyId : UInt8) : Bytes :=
  [pnByte pn 0, pnByte pn 1, 0, EXT_IV ||| keyId <<< 6, pnByte pn 2, pnByte pn 3, pnByte pn 4, pnByte pn 5]

def encrypt (ccm : Ccm) (tk : Key) (pn : Nat) (keyId : UInt8) (f : Bytes) : Option Bytes :=
  (headerLen f).bind fun hl =>
    let nonceAad := nonceAad f hl pn
    (ccm.encryptDetached tk nonceAad.1 nonceAad.2 (f.drop hl)).map fun (body, tag) =>
      (f.take hl).modify 1 (· ||| PROTECTED) ++ (ccmpHeader pn keyId ++ body ++ tag)

def keyPn (f : Bytes) : Option (UInt8 × Nat) :=
  (headerLen f).bind fun hl =>
    if f.length < hl + HDR then none
    else
      let h := slice f hl (hl + HDR)
      if byte f 1 &&& PROTECTED = 0 ∨ byte h 3 &&& EXT_IV = 0 then none
      else some (byte h 3 >>> 6, fromLe ([0, 1, 4, 5, 6, 7].map fun i => (byte h i).toBitVec))

def decrypt (ccm : Ccm) (tk : Key) (f : Bytes) : Option (Bytes × Nat) :=
  (headerLen f).bind fun hl => (keyPn f).bind fun keyPn =>
    if f.length < hl + HDR + MIC then none
    else
      let nonceAad := nonceAad f hl keyPn.2
      let bodyTag := (f.drop (hl + HDR)).splitAt (f.length - hl - HDR - MIC)
      (ccm.decryptDetached tk nonceAad.1 nonceAad.2 bodyTag.1 bodyTag.2).map fun body =>
        ((f.take hl).modify 1 (· &&& ~~~PROTECTED) ++ body, keyPn.2)

/-- Frame `g` as it may arrive when `f` was sent: with other retry, power management and more data bits and
another sequence number. -/
structure Transit (f g : Bytes) : Prop where
  length : g.length = f.length
  same : ∀ i, i ≠ 1 → i ≠ 22 → i ≠ 23 → g[i]? = f[i]?
  control : byte g 1 &&& ~~~0x38 = byte f 1 &&& ~~~0x38
  fragment : byte g 22 &&& 0x0f = byte f 22 &&& 0x0f

def identity (f : Bytes) (hl : Nat) : Bytes × Bytes × UInt8 × Option UInt8 :=
  (slice f 4 22, if fourAddresses f then slice f 24 30 else [], byte f 22 &&& 0x0f,
    if isQos f then some (byte f (hl - 2) &&& 0x0f) else none)

structure Alike (hl : Nat) (f g : Bytes) : Prop where
  same : ∀ i < hl, i ≠ 1 → i ≠ 22 → i ≠ 23 → g[i]? = f[i]?
  control : byte g 1 &&& 0x87 = byte f 1 &&& 0x87
  fragment : byte g 22 &&& 0x0f = byte f 22 &&& 0x0f

variable {f g : Bytes} {hl pn : Nat} {keyId : UInt8}

theorem forall_byte {p : UInt8 → Prop} (all : ∀ b : BitVec 8, p ⟨b⟩) (x : UInt8) : p x := all x.toBitVec

theorem headerLen_eq_some (accepted : headerLen f = some hl) :
    hl = 24 + (if fourAddresses f then 6 else 0) + (if isQos f then 2 else 0) ∧ hl ≤ f.length := by
  obtain ⟨_, accepted⟩ := Option.ite_none_right_eq_some.mp accepted
  obtain ⟨fits, same⟩ := Option.ite_none_right_eq_some.mp accepted
  cases same
  exact ⟨rfl, fits⟩

theorem le_headerLen (accepted : headerLen f = some hl) : 24 ≤ hl := by
  have := (headerLen_eq_some accepted).1
  omega

theorem slice_congr {start stop : Nat} (same : ∀ i, start ≤ i → i < stop → g[i]? = f[i]?) :
    slice g start stop = slice f start stop := by
  apply List.ext_getElem?
  intro i
  simp only [slice, List.getElem?_take, List.getElem?_drop]
  split
  · exact same _ (by omega) (by omega)
  · rfl

theorem slice_length {start stop : Nat} (inside : stop ≤ f.length) : (slice f start stop).length = stop - start := by
  simp only [slice, List.length_take, List.length_drop]
  omega

namespace Alike

variable (alike : Alike hl f g) (accepted : headerLen f = some hl)
include alike

theorem byte_eq {i : Nat} (inside : i < hl) (control : i ≠ 1) (sequence : i < 22 ∨ 23 < i) : byte g i = byte f i := by
  rw [byte, byte, alike.same i inside control (by omega) (by omega)]

theorem fourAddresses_iff : fourAddresses g ↔ fourAddresses f := by
  have masked : ∀ x : UInt8, x &&& 3 = (x &&& 0x87) &&& 3 := forall_byte (by decide)
  rw [fourAddresses, fourAddresses, masked, alike.control, ← masked]

include accepted

theorem isQos_iff : isQos g ↔ isQos f := by
  have := le_headerLen accepted
  rw [isQos, isQos, alike.byte_eq (by omega) (by omega) (by omega)]

theorem headerLen_eq (inside : hl ≤ g.length) : headerLen g = some hl := by
  obtain ⟨size, _⟩ := headerLen_eq_some accepted
  simp only [headerLen, alike.isQos_iff accepted, alike.fourAddresses_iff, ← size]
  rw [if_pos (by omega), if_pos inside]

theorem nonceAad_eq (pn : Nat) : nonceAad g hl pn = nonceAad f hl pn := by
  have size := (headerLen_eq_some accepted).1
  have control : ∀ x : UInt8, (x &&& ~~~0x38) ||| PROTECTED = (x &&& 0x87) ||| PROTECTED := forall_byte (by decide)
  have between (start stop : Nat) (inside : stop ≤ hl) (control : 1 < start) (sequence : stop ≤ 22 ∨ 23 < start) :
      slice g start stop = slice f start stop :=
    slice_congr fun i above below => alike.same i (by omega) (by omega) (by omega) (by omega)
  have fourth : (if fourAddresses f then slice g 24 30 else []) = if fourAddresses f then slice f 24 30 else [] := by
    split
    · rename_i four
      rw [if_pos four] at size
      exact between 24 30 (by omega) (by omega) (by omega)
    · rfl
  have priority : isQos f → byte g (hl - 2) = byte f (hl - 2) := fun qos => by
    rw [if_pos qos] at size
    exact alike.byte_eq (by omega) (by omega) (by omega)
  simp only [nonceAad, alike.isQos_iff accepted, alike.fourAddresses_iff, fourth, alike.fragment, control (byte g 1),
    control (byte f 1), alike.control, alike.byte_eq (i := 0) (by omega) (by omega) (by omega),
    between 10 16 (by omega) (by omega) (by omega), between 4 22 (by omega) (by omega) (by omega)]
  by_cases qos : isQos f
  · rw [priority qos]
  · simp only [if_neg qos]

end Alike

theorem fromLe_pnBytes (small : pn < 2 ^ 48) : fromLe ([0, 1, 2, 3, 4, 5].map fun i => (pnByte pn i).toBitVec) = pn := by
  simp only [List.map_cons, List.map_nil, fromLe, pnByte, UInt8.toNat_toBitVec, UInt8.toNat_ofNat', Nat.shiftRight_eq_div_pow]
  omega

theorem keyId_byte (index : keyId ≤ 3) :
    (EXT_IV ||| keyId <<< 6) >>> 6 = keyId ∧ (EXT_IV ||| keyId <<< 6) &&& EXT_IV ≠ 0 := by
  revert index
  exact forall_byte (p := fun x => x ≤ 3 → (EXT_IV ||| x <<< 6) >>> 6 = x ∧ (EXT_IV ||| x <<< 6) &&& EXT_IV ≠ 0)
    (by decide) keyId

section Sealed

variable {ccm : Ccm} {tk : Key} {cipher tag : Bytes} (accepted : headerLen f = some hl) (alike : Alike hl f g)
  (isProtected : byte g 1 &&& PROTECTED ≠ 0) (rest : g.drop hl = ccmpHeader pn keyId ++ cipher ++ tag)
include accepted alike isProtected rest

theorem keyPn_sealed (small : pn < 2 ^ 48) (index : keyId ≤ 3) : headerLen g = some hl ∧ keyPn g = some (keyId, pn) := by
  have size := congrArg List.length rest
  simp only [List.length_drop, List.length_append, ccmpHeader, List.length_cons, List.length_nil] at size
  have header : slice g hl (hl + HDR) = ccmpHeader pn keyId := by
    rw [slice, rest, Nat.add_sub_cancel_left, List.append_assoc]
    rfl
  have taken := alike.headerLen_eq accepted (by omega)
  obtain ⟨shifted, extended⟩ := keyId_byte index
  refine ⟨taken, ?_⟩
  rw [keyPn, taken, Option.bind_some, if_neg (by rw [HDR]; omega), header, if_neg (by simpa using ⟨isProtected, extended⟩)]
  exact congrArg some (Prod.ext shifted (fromLe_pnBytes small))

theorem decrypt_sealed (small : pn < 2 ^ 48) (index : keyId ≤ 3)
    (encrypted : ccm.encryptDetached tk (nonceAad f hl pn).1 (nonceAad f hl pn).2 (f.drop hl) = some (cipher, tag)) :
    decrypt ccm tk g = some ((g.take hl).modify 1 (· &&& ~~~PROTECTED) ++ f.drop hl, pn) := by
  obtain ⟨taken, key⟩ := keyPn_sealed accepted alike isProtected rest small index
  have size := congrArg List.length rest
  simp only [List.length_drop, List.length_append, ccmpHeader, List.length_cons, List.length_nil, ccm.tagged encrypted,
    MIC] at size
  have body : g.drop (hl + HDR) = cipher ++ tag := by
    rw [← List.drop_drop, rest, List.append_assoc]
    rfl
  have cut : g.length - hl - HDR - MIC = cipher.length := by
    rw [HDR, MIC]
    omega
  rw [decrypt, taken, key, Option.bind_some, Option.bind_some, if_neg (by rw [HDR, MIC]; omega), body, cut,
    alike.nonceAad_eq accepted, List.splitAt_eq, List.take_left, List.drop_left]
  dsimp only
  rw [ccm.inverts encrypted, Option.map_some]

end Sealed

theorem alike_protected (accepted : headerLen f = some hl) (rest : Bytes) :
    Alike hl f ((f.take hl).modify 1 (· ||| PROTECTED) ++ rest) ∧
      byte ((f.take hl).modify 1 (· ||| PROTECTED) ++ rest) 1 = byte f 1 ||| PROTECTED := by
  obtain ⟨size, inside⟩ := headerLen_eq_some accepted
  have masked : ∀ x : UInt8, (x ||| PROTECTED) &&& 0x87 = x &&& 0x87 := forall_byte (by decide)
  have at_ {i : Nat} (below : i < hl) : ((f.take hl).modify 1 (· ||| PROTECTED) ++ rest)[i]? =
      f[i]?.map fun x => if 1 = i then x ||| PROTECTED else x := by
    rw [List.getElem?_append_left (by simp only [List.length_modify, List.length_take]; omega), List.getElem?_modify,
      List.getElem?_take, if_pos below]
    rfl
  have second : byte ((f.take hl).modify 1 (· ||| PROTECTED) ++ rest) 1 = byte f 1 ||| PROTECTED := by
    rw [byte, byte, at_ (by omega), List.getElem?_eq_getElem (by omega)]
    rfl
  refine ⟨⟨fun i below control _ _ => ?_, by rw [second, masked], ?_⟩, second⟩
  · simp [at_ below, Ne.symm control]
  · rw [byte, byte, at_ (by omega)]
    simp

theorem identity_eq {hl' pn' : Nat} (accepted : headerLen f = some hl) (accepted' : headerLen g = some hl')
    (same : nonceAad g hl' pn' = nonceAad f hl pn) : identity g hl' = identity f hl := by
  have types : ∀ x : UInt8, x &&& 0x88 = (x &&& 0x8f) &&& 0x88 := forall_byte (by decide)
  have directions : ∀ x : UInt8, ∀ qos : Bool,
      x &&& 3 = (if qos then ((x &&& ~~~0x38) ||| PROTECTED) &&& ~~~0x80 else (x &&& ~~~0x38) ||| PROTECTED) &&& 3 :=
    forall_byte (by decide)
  obtain ⟨size, inside⟩ := headerLen_eq_some accepted
  obtain ⟨size', inside'⟩ := headerLen_eq_some accepted'
  have aad := congrArg Prod.snd same
  simp only [nonceAad, List.cons_append, List.nil_append, List.append_assoc, List.cons.injEq] at aad
  obtain ⟨type, direction, aad⟩ := aad
  have qos : isQos g ↔ isQos f := by rw [isQos, isQos, types, type, ← types]
  have four : fourAddresses g ↔ fourAddresses f := by
    have shown (f : Bytes) := directions (byte f 1) (decide (isQos f))
    simp only [decide_eq_true_eq] at shown
    rw [fourAddresses, fourAddresses, shown g, direction, ← shown f]
  obtain ⟨first, aad⟩ := List.append_inj aad (by rw [slice_length (by omega), slice_length (by omega)])
  simp only [List.cons.injEq, true_and] at aad
  obtain ⟨fragment, aad⟩ := aad
  simp only [qos, four] at aad size'
  have lengths : (if fourAddresses f then slice g 24 30 else []).length =
      (if fourAddresses f then slice f 24 30 else []).length := by
    by_cases four : fourAddresses f
    · rw [if_pos four] at size size'
      rw [if_pos four, if_pos four, slice_length (by omega), slice_length (by omega)]
    · rw [if_neg four, if_neg four]
  obtain ⟨fourth, priority⟩ := List.append_inj aad lengths
  simp only [identity, qos, four, first, fourth, fragment]
  by_cases isQos : isQos f
  · simp only [if_pos isQos, List.cons.injEq, and_true] at priority ⊢
    rw [priority]
  · simp only [if_neg isQos]

theorem encrypt_eq_some {ccm : Ccm} {tk : Key} {e : Bytes} (encrypted : encrypt ccm tk pn keyId f = some e) :
    ∃ hl cipher tag, headerLen f = some hl ∧
      ccm.encryptDetached tk (nonceAad f hl pn).1 (nonceAad f hl pn).2 (f.drop hl) = some (cipher, tag) ∧
      e.take hl = (f.take hl).modify 1 (· ||| PROTECTED) ∧ e.drop hl = ccmpHeader pn keyId ++ cipher ++ tag ∧
      Alike hl f e ∧ byte e 1 = byte f 1 ||| PROTECTED := by
  obtain ⟨hl, accepted, encrypted⟩ := Option.bind_eq_some_iff.mp encrypted
  obtain ⟨⟨cipher, tag⟩, sealed, rfl⟩ := Option.map_eq_some_iff.mp encrypted
  have inside := (headerLen_eq_some accepted).2
  have length : ((f.take hl).modify 1 (· ||| PROTECTED)).length = hl := by
    rw [List.length_modify, List.length_take, Nat.min_eq_left inside]
  exact ⟨hl, cipher, tag, accepted, sealed, List.take_left' length, List.drop_left' length, alike_protected accepted _⟩

theorem Transit.alike {e : Bytes} (transit : Transit e g) (alike : Alike hl f e) : Alike hl f g := by
  have masked : ∀ x : UInt8, x &&& 0x87 = (x &&& ~~~0x38) &&& 0x87 := forall_byte (by decide)
  refine ⟨fun i below control high low => ?_, ?_, transit.fragment.trans alike.fragment⟩
  · exact (transit.same i control high low).trans (alike.same i below control high low)
  · rw [masked, transit.control, ← masked, alike.control]

theorem Transit.drop_eq {e : Bytes} (transit : Transit e g) (long : 24 ≤ hl) : g.drop hl = e.drop hl := by
  apply List.ext_getElem?
  intro i
  rw [List.getElem?_drop, List.getElem?_drop, transit.same _ (by omega) (by omega) (by omega)]

theorem modify_protected (clear : byte f 1 &&& PROTECTED = 0) :
    (f.modify 1 (· ||| PROTECTED)).modify 1 (· &&& ~~~PROTECTED) = f := by
  have cleared : ∀ x : UInt8, x &&& PROTECTED = 0 → (x ||| PROTECTED) &&& ~~~PROTECTED = x := forall_byte (by decide)
  apply List.ext_getElem?
  intro i
  rw [List.getElem?_modify, List.getElem?_modify]
  cases found : f[i]? with
  | none => rfl
  | some x =>
    by_cases second : 1 = i
    · subst second
      simp only [byte, found, Option.getD_some] at clear
      simp [cleared x clear]
    · simp [second]

theorem decrypt_encrypt (ccm : Ccm) (tk : Key) (pn : Nat) (keyId : UInt8) (f e : Bytes) (small : pn < 2 ^ 48)
    (index : keyId ≤ 3) (clear : byte f 1 &&& PROTECTED = 0) (encrypted : encrypt ccm tk pn keyId f = some e) :
    decrypt ccm tk e = some (f, pn) ∧ keyPn e = some (keyId, pn) ∧ ∃ hl, headerLen f = some hl ∧
      (∀ e', Transit e e' →
        decrypt ccm tk e' = some ((e'.take hl).modify 1 (· &&& ~~~PROTECTED) ++ f.drop hl, pn)) ∧
      (∀ g hl' pn', headerLen g = some hl' → nonceAad g hl' pn' = nonceAad f hl pn → identity g hl' = identity f hl) ∧
      ∀ g hl' pn' keyId' e', headerLen g = some hl' → encrypt ccm tk pn' keyId' g = some e' →
        nonceAad g hl' pn' = nonceAad f hl pn → e'.drop (hl' + HDR) = e.drop (hl + HDR) → g.drop hl' = f.drop hl := by
  have set_ : ∀ x : UInt8, (x ||| PROTECTED) &&& PROTECTED ≠ 0 := forall_byte (by decide)
  have masked : ∀ x : UInt8, x &&& PROTECTED = (x &&& ~~~0x38) &&& PROTECTED := forall_byte (by decide)
  obtain ⟨hl, cipher, tag, accepted, sealed, head, rest, alike, second⟩ := encrypt_eq_some encrypted
  have isProtected : byte e 1 &&& PROTECTED ≠ 0 := second ▸ set_ _
  have long := le_headerLen accepted
  refine ⟨?_, (keyPn_sealed accepted alike isProtected rest small index).2, hl, accepted, fun e' transit => ?_,
    fun g hl' pn' taken => identity_eq accepted taken, fun g hl' pn' keyId' e' taken encrypted' same ciphers => ?_⟩
  · rw [decrypt_sealed accepted alike isProtected rest small index sealed, head, modify_protected, List.take_append_drop]
    rw [byte, List.getElem?_take, if_pos (by omega)]
    exact clear
  · refine decrypt_sealed accepted (transit.alike alike) ?_ ((transit.drop_eq long).trans rest) small index sealed
    rw [masked, transit.control, ← masked]
    exact isProtected
  obtain ⟨_, cipher', tag', taken', sealed', _, rest', _⟩ := encrypt_eq_some encrypted'
  cases taken.symm.trans taken'
  rw [← List.drop_drop, ← List.drop_drop, rest, rest', List.append_assoc, List.append_assoc] at ciphers
  have both : cipher' ++ tag' = cipher ++ tag := ciphers
  obtain ⟨rfl, rfl⟩ := List.append_inj' both ((ccm.tagged sealed').trans (ccm.tagged sealed).symm)
  have opened := ccm.inverts sealed'
  rw [same] at opened
  exact Option.some.inj (opened.symm.trans (ccm.inverts sealed))

/-- One call of the cipher: what went in and what came out. -/
structure Sealed where
  tk : Key
  nonce : Bytes
  aad : Bytes
  body : Bytes
  cipher : Bytes
  tag : Bytes

/-- The tags are whole, and no two bodies are sealed alike. -/
def Sealed.Sound (table : List Sealed) : Prop :=
  (∀ v ∈ table, v.tag.length = MIC) ∧ ∀ v ∈ table, ∀ w ∈ table,
    (v.tk, v.nonce, v.aad, v.cipher, v.tag) = (w.tk, w.nonce, w.aad, w.cipher, w.tag) → v.body = w.body

instance (table : List Sealed) : Decidable (Sealed.Sound table) := inferInstanceAs (Decidable (_ ∧ _))

/-- The cipher as far as a table of its calls tells. -/
def Ccm.ofTable (table : List Sealed) (sound : Sealed.Sound table) : Ccm where
  encryptDetached tk nonce aad body :=
    (table.find? fun v => (v.tk, v.nonce, v.aad, v.body) = (tk, nonce, aad, body)).map fun v => (v.cipher, v.tag)
  decryptDetached tk nonce aad cipher tag :=
    (table.find? fun v => (v.tk, v.nonce, v.aad, v.cipher, v.tag) = (tk, nonce, aad, cipher, tag)).map (·.body)
  tagged made := by
    obtain ⟨v, found, same⟩ := Option.map_eq_some_iff.mp made
    cases same
    exact sound.1 v (List.mem_of_find?_eq_some found)
  inverts {tk nonce aad body cipher tag} made := by
    obtain ⟨v, found, same⟩ := Option.map_eq_some_iff.mp made
    have member := List.mem_of_find?_eq_some found
    have asked : (v.tk, v.nonce, v.aad, v.body) = (tk, nonce, aad, body) := by simpa using List.find?_some found
    cases asked
    cases same
    have opened : (table.find? fun w => (w.tk, w.nonce, w.aad, w.cipher, w.tag) =
        (v.tk, v.nonce, v.aad, v.cipher, v.tag)).isSome :=
      List.find?_isSome.mpr ⟨v, member, by simp⟩
    obtain ⟨w, first⟩ := Option.isSome_iff_exists.mp opened
    rw [first]
    refine congrArg some (sound.2 w (List.mem_of_find?_eq_some first) v member ?_)
    simpa using List.find?_some first

def unhex (size digits : Nat) : Bytes := (List.range size).map fun i => .ofNat (digits >>> (8 * (size - 1 - i)))

/-- The source's test vectors: a data frame to the distribution system and a QoS one, and AES-CCM's answers. -/
def testKey : Key := .ofFn fun i => 0xc0 + .ofNat i

def testBody : Bytes := unhex 19 0xaaaa03000000080068656c6c6f2c2077696669

def dataFrame : Bytes := unhex 24 0x0801000002005e000106525400123457ffffffffffff3012 ++ testBody

def dataSealed : Bytes := unhex 59
  0x0841000002005e000106525400123457ffffffffffff30120605002004030201e554fda5602de28cfdfd8941b10d0c4c8ee341fe20a421ffba085d

def qosFrame : Bytes := unhex 26 0x8809000002005e000106525400123457ffffffffffff30120500 ++ testBody

def qosSealed : Bytes := unhex 61
  0x8849000002005e000106525400123457ffffffffffff301205000605002004030201a6246c471690652237a04b916f8218de84728b6575b6e45e73a92a

def vectors : List Sealed :=
  [⟨testKey, unhex 13 0x00525400123457010203040506, unhex 22 0x084102005e000106525400123457ffffffffffff0000, testBody,
      slice dataSealed 32 51, dataSealed.drop 51⟩,
    ⟨testKey, unhex 13 0x05525400123457010203040506, unhex 24 0x884102005e000106525400123457ffffffffffff00000500,
      testBody, slice qosSealed 34 53, qosSealed.drop 53⟩]

def testCcm : Ccm := .ofTable vectors (by decide +kernel)

theorem decrypt_encrypt_vectors :
    (encrypt testCcm testKey 0x010203040506 0 dataFrame = some dataSealed ∧
      decrypt testCcm testKey dataSealed = some (dataFrame, 0x010203040506)) ∧
    encrypt testCcm testKey 0x010203040506 0 qosFrame = some qosSealed ∧
      decrypt testCcm testKey qosSealed = some (qosFrame, 0x010203040506) := by
  have plain : encrypt testCcm testKey 0x010203040506 0 dataFrame = some dataSealed := by decide +kernel
  have qos : encrypt testCcm testKey 0x010203040506 0 qosFrame = some qosSealed := by decide +kernel
  exact ⟨⟨plain, (decrypt_encrypt _ _ _ _ _ _ (by decide) (by decide) (by decide +kernel) plain).1⟩,
    qos, (decrypt_encrypt _ _ _ _ _ _ (by decide) (by decide) (by decide +kernel) qos).1⟩

end Myos.User.Ccmp
