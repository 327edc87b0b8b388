import Myos.Modules.ElfSafe

namespace Myos.Modules.Elf
open Lib Checked

variable {b : Bytes} {hdr : Ehdr} {src : Src}

def SafeSrc (src : Src) : Prop := ∀ off len, off < 2 ^ 64 → Safe (src off len) fun s => s.length = len ∧ len < 2 ^ 63

theorem safe_memSrc (short : Short b) : SafeSrc (memSrc b) := by
  intro off len _
  refine (safe_addOr _).bind fun _ _ => (safe_slice b off len).mono fun s read => ⟨read.2, ?_⟩
  omega

theorem Node.safe_fill {node : Node} (short : Short node.bytes) {off len : Nat} (word : off < 2 ^ 64) (fuel : Nat)
    {v : Bytes} (enough : len ≤ v.length + fuel) (most : v.length ≤ len)
    (inside : v = [] ∨ off + v.length ≤ node.bytes.length) :
    Safe (node.fill off len fuel v) fun s => s.length = len := by
  induction fuel generalizing v with
  | zero => exact Nat.le_antisymm most enough
  | succ fuel ih =>
    unfold Node.fill
    split
    · have sum : off + v.length < 2 ^ 64 := by
        rcases inside with rfl | inside
        · exact word
        · omega
      refine Safe.add sum ?_
      dsimp only
      split
      · trivial
      have got : (node.read (off + v.length) (len - v.length)).length ≤ len - v.length := by
        rw [Node.read, List.length_take]
        omega
      have there : (node.read (off + v.length) (len - v.length)).length ≤ node.bytes.length - (off + v.length) := by
        rw [Node.read, List.length_take, List.length_drop]
        omega
      refine ih ?_ ?_ (.inr ?_) <;> rw [List.length_append] <;> omega
    · exact Nat.le_antisymm most (Nat.le_of_not_lt ‹_›)

theorem safe_nodeSrc {node : Node} (short : Short node.bytes) (heap : node.heap < 2 ^ 63) : SafeSrc (nodeSrc node) := by
  intro off len word
  unfold nodeSrc
  split
  · trivial
  · refine (node.safe_fill short word len (Nat.le_add_left _ _) (Nat.zero_le _) (.inl rfl)).mono fun s whole => ⟨whole, ?_⟩
    omega

theorem safe_spanFrom (short : Short b) (hdr : Ehdr) : Safe (spanFrom hdr b) fun _ => True := by
  refine (safe_extentFrom short hdr.ePhnum 0 _ (Nat.zero_le _)).bind fun e _ => ?_
  split
  · trivial
  · have below : pageDown e.min ≤ e.max := Nat.le_trans (Nat.div_mul_le_self _ _) (by omega)
    exact Safe.sub below trivial

section

variable {σ : Type} {arch : Arch} (safe : SafeSrc src) {span minV loadBias : Nat}
  {store : σ → Nat → (Nat → Nat) → Option σ} {shdrs : Bytes} {symtabSh : Option Nat}

include safe

variable (near : ∀ sh ∈ symtabSh, sh < 2 ^ 63)
include near

theorem safe_symbolValue (index : Nat) :
    Safe (symbolValue src shdrs symtabSh index loadBias) fun _ => True := by
  unfold symbolValue
  split
  · trivial
  rename_i sh
  have near := near sh rfl
  refine Safe.add (by omega) <| (safe_u64At shdrs _).bind fun shOffset _ =>
    Safe.add (by omega) <| (safe_u64At shdrs _).bind fun shEntsize _ => ?_
  split
  · trivial
  · refine (safe_mulOr _).bind fun scaled _ => (safe_addOr _).bind fun s sum => (safe s 24 sum.2).bind fun sym _ =>
      (safe_u16At sym 6).bind fun stShndx _ => (safe_u64At sym 8).bind fun stValue _ => ?_
    split <;> trivial

theorem safe_storeReloc (rType rSym off : Nat) (addend : Option Nat) (s : σ) :
    Safe (storeReloc arch src loadBias store shdrs symtabSh rType rSym off addend s) fun _ => True := by
  unfold storeReloc
  split
  · trivial
  split
  · trivial
  split
  · exact (safe_symbolValue safe near rSym).bind fun _ _ => trivial
  · trivial

theorem safe_applyReloc {relocs : Bytes} (short : Short relocs) (rela : Bool)
    (r : Nat) (s : σ) :
    Safe (applyReloc arch src span minV loadBias store shdrs rela symtabSh relocs r s) fun _ => True := by
  refine (safe_u64At relocs r).bind fun rOffset first => (safe_add (by omega)).bind fun at_ same =>
    (safe_u64At relocs at_).bind fun rInfo second => ?_
  have addend : Safe (addendAt relocs rela r) fun _ => True := by
    unfold addendAt
    split
    · exact Safe.add (by omega) <| (safe_u64At relocs _).bind fun _ _ => trivial
    · trivial
  refine addend.bind fun addend _ => ?_
  dsimp only
  split
  · trivial
  · refine (safe_storeReloc safe near _ _ _ _ _).bind fun stored _ => ?_
    cases stored <;> trivial

theorem safe_applyEntries {relocs : Bytes} (short : Short relocs) (rela : Bool)
    {entsize : Nat} (left i : Nat) (length : relocs.length = (i + left) * entsize) (s : σ) :
    Safe (applyEntries arch src span minV loadBias store shdrs rela symtabSh relocs entsize left i s) fun _ => True := by
  induction left generalizing i s with
  | zero => trivial
  | succ left ih =>
    have scaled : i * entsize < 2 ^ 64 := by
      have step : i * entsize ≤ (i + (left + 1)) * entsize := Nat.mul_le_mul_right _ (by omega)
      omega
    refine (safe_mul scaled).bind fun r _ => (safe_applyReloc safe near short rela r s).bind fun s' _ => ?_
    exact ih (i + 1) (by rw [length]; congr 1; omega) s'

theorem safe_applyChunks (rela : Bool) {shOffset entsize n : Nat}
    (whole : n * entsize < 2 ^ 64) (word : n < 2 ^ 64) (fuel j : Nat) (s : σ) :
    Safe (applyChunks arch src span minV loadBias store shdrs rela symtabSh shOffset entsize n fuel j s)
      fun _ => True := by
  induction fuel generalizing j s with
  | zero => trivial
  | succ fuel ih =>
    unfold applyChunks
    split
    · have scaled : min (n - j) RELOCS_PER_READ * entsize < 2 ^ 64 :=
        Nat.lt_of_le_of_lt (Nat.mul_le_mul_right _ (by omega)) whole
      refine (safe_mulOr _).bind fun _ _ => (safe_addOr _).bind fun at_ sum => (safe_mul scaled).bind fun len same =>
        (safe at_ len sum.2).bind fun relocs read => ?_
      have length : relocs.length = (0 + min (n - j) RELOCS_PER_READ) * entsize := by
        rw [read.1, same, Nat.zero_add]
      refine (safe_applyEntries safe near (lt_of_eq_of_lt read.1 read.2) rela _ 0 length s).bind fun s' _ =>
        (safe_add (by omega)).bind fun j' _ => ih j' s'
    · trivial

omit near

theorem safe_applySections {shentsize shnum : Nat} (table : shnum * shentsize < 2 ^ 63) (left i : Nat)
    (within : i + left = shnum) (s : σ) :
    Safe (applySections arch src span minV loadBias store shdrs shentsize shnum left i s) fun _ => True := by
  induction left generalizing i s with
  | zero => trivial
  | succ left ih =>
    have scaled {k : Nat} (below : k < shnum) : k * shentsize < 2 ^ 63 :=
      Nat.lt_of_le_of_lt (Nat.mul_le_mul_right _ (Nat.le_of_lt below)) table
    have here := scaled (k := i) (by omega)
    refine (safe_mul (by omega)).bind fun sh same => Safe.add (by omega) <|
      (safe_u32At shdrs _).bind fun shType _ => ?_
    split
    · exact ih (i + 1) (by omega) s
    refine Safe.add (by omega) <| (safe_u64At shdrs _).bind fun shFlags _ =>
      Safe.add (by omega) <| (safe_u32At shdrs _).bind fun shLink _ => ?_
    have dynamic : Safe (isDynamic shdrs shentsize shnum shFlags shLink) fun _ => True := by
      unfold isDynamic
      split
      · trivial
      split
      · rename_i below
        have there := scaled below
        exact Safe.mul (by omega) <| Safe.add (by omega) <|
          (safe_u32At shdrs _).bind fun _ _ => trivial
      · trivial
    refine dynamic.bind fun isDynamic _ => ?_
    split
    · exact ih (i + 1) (by omega) s
    refine Safe.add (by omega) <| (safe_u64At shdrs _).bind fun shOffset _ =>
      Safe.add (by omega) <| (safe_u64At shdrs _).bind fun shSize size =>
      Safe.add (by omega) <| (safe_u64At shdrs _).bind fun shEntsize _ => ?_
    split
    · exact ih (i + 1) (by omega) s
    have symtab : Safe (symtabAt shentsize shnum shLink) fun symtabSh => ∀ sh ∈ symtabSh, sh < 2 ^ 63 := by
      unfold symtabAt
      split
      · rename_i below
        have there := scaled below
        refine (safe_mul (by omega)).bind fun sh same => ?_
        intro other member
        cases member
        omega
      · intro other member
        cases member
    refine symtab.bind fun symtabSh near => ?_
    have whole : shSize / shEntsize * shEntsize < 2 ^ 64 := Nat.lt_of_le_of_lt (Nat.div_mul_le_self _ _) size.2
    have count : shSize / shEntsize < 2 ^ 64 := Nat.lt_of_le_of_lt (Nat.div_le_self _ _) size.2
    exact (safe_applyChunks safe near _ whole count _ _ s).bind fun s' _ => ih (i + 1) (by omega) s'

theorem safe_applyRelocs {shoff shentsize shnum : Nat} (word : shoff < 2 ^ 64) (s : σ) :
    Safe (applyRelocs arch src span minV loadBias store shoff shentsize shnum s) fun _ => True := by
  refine (safe_mulOr _).bind fun len product => (safe shoff len word).bind fun shdrs read => ?_
  exact safe_applySections safe (product.1 ▸ read.2) shnum 0 (Nat.zero_add _) s

theorem safe_relocate (s : σ) :
    Safe (relocate arch src loadBias store s) fun _ => True := by
  refine (safe 0 64 (by decide)).bind fun head _ => (safe_parseEhdr arch head).bind fun hdr wf =>
    (safe 0 _ (by decide)).bind fun phdrs read => (safe_spanFrom (lt_of_eq_of_lt read.1 read.2) hdr).bind fun info _ => ?_
  exact safe_applyRelocs safe wf.shoff s

end

theorem safe_realizeInto (short : Short b) {arch : Arch} {info : ImageSpan} (wf : hdr.Wf)
    (accepted : spanFrom hdr b = .ok info) (loadBias : Nat) (relocate : Bool) :
    Safe (realizeInto arch b hdr info loadBias relocate) fun _ => True := by
  obtain ⟨e, extent, accepted⟩ := bind_eq_ok.mp accepted
  have lowest : info.minVaddr ≤ e.min := by
    split at accepted
    · cases accepted
    · obtain ⟨span, _, accepted⟩ := bind_eq_ok.mp accepted
      cases accepted
      exact Nat.div_mul_le_self _ _
  refine (safe_copySegments short _ extent lowest).bind fun img _ => ?_
  split
  · exact safe_applyRelocs (safe_memSrc short) wf.shoff img
  · trivial

theorem safe_realizeAs (short : Short b) (arch : Arch) (loadBias : Nat) (relocate : Bool) :
    Safe (realizeAs arch b loadBias relocate) fun _ => True := by
  have parsed := safe_parseEhdr arch b
  refine parsed.bind fun hdr wf => ?_
  have spans := safe_of_not_overflows (safe_spanFrom short hdr).not_overflows
  exact spans.bind fun info accepted => (safe_realizeInto short wf accepted loadBias relocate).bind fun _ _ => trivial

def namedValues (b : Bytes) (shOffset entsize : Nat) : Nat → Nat → List Nat × Bool
  | 0, _ => ([], true)
  | left + 1, j =>
    match u32At b (shOffset + j * entsize), u64At b (shOffset + j * entsize + 8) with
    | .ok stName, .ok stValue =>
      let rest := namedValues b shOffset entsize left (j + 1)
      (if stName = 0 then rest.1 else stValue :: rest.1, rest.2)
    | _, _ => ([], false)

theorem lookupSymbols_spec (short : Short b) (strs : Bytes) {shOffset entsize shSize left : Nat} (loadBias j : Nat)
    (points : EntryPoints) (count : j + left = shSize / entsize) (size : shSize < 2 ^ 64) (word : shOffset < 2 ^ 64)
    (before : j = 0 ∨ shOffset + (j - 1) * entsize ≤ b.length) :
    ((∃ v ∈ (namedValues b shOffset entsize left j).1, 2 ^ 64 ≤ loadBias + v) →
      Overflows (lookupSymbols b strs shOffset entsize loadBias left j points)) ∧
    ((∀ v ∈ (namedValues b shOffset entsize left j).1, loadBias + v < 2 ^ 64) →
      if (namedValues b shOffset entsize left j).2 then
        ∃ points', lookupSymbols b strs shOffset entsize loadBias left j points = .ok points'
      else ∃ e, lookupSymbols b strs shOffset entsize loadBias left j points = .error (.error e)) := by
  induction left generalizing j points with
  | zero =>
    refine ⟨?_, fun _ => ⟨points, rfl⟩⟩
    rintro ⟨v, member, _⟩
    cases member
  | succ left ih =>
    have scaled : (j + 1) * entsize ≤ shSize :=
      Nat.le_trans (Nat.mul_le_mul_right _ (by omega)) (Nat.div_mul_le_self shSize entsize)
    rw [Nat.succ_mul] at scaled
    have sum : shOffset + j * entsize < 2 ^ 64 := by
      rcases before with rfl | before
      · simpa using word
      cases j with
      | zero => simpa using word
      | succ j =>
        -- two entries fit the section, so one is less than half the integers
        rw [Nat.succ_mul] at scaled ⊢
        rw [Nat.add_sub_cancel] at before
        omega
    have at_ : (do add 64 shOffset (← mul 64 j entsize) : Result Nat) = .ok (shOffset + j * entsize) := by
      have product : (mul 64 j entsize : Result Nat) = .ok (j * entsize) := if_pos (by omega)
      rw [product, ok_bind]
      exact if_pos sum
    generalize here : shOffset + j * entsize = s at *
    unfold lookupSymbols namedValues
    rw [here, ← bind_assoc, at_, ok_bind]
    rcases (safe_u32At b s).cases with ⟨stName, readName, inside, _⟩ | ⟨e, failed⟩
    · rcases (safe_u64At b (s + 8)).cases with ⟨stValue, readValue, _, _⟩ | ⟨e, failed⟩
      · obtain ⟨isOver, fine⟩ := ih (j + 1) (if stName = 0 then points else points.note (cstrAt strs stName) (loadBias + stValue))
          (by omega) (.inr (by rw [Nat.add_sub_cancel]; omega))
        simp only [readName, readValue, ok_bind, add_ok (a := s) (c := 8) (by omega)]
        by_cases unnamed : stName = 0
        · simp only [unnamed, if_true] at isOver fine ⊢
          exact ⟨isOver, fine⟩
        simp only [unnamed, if_false] at isOver fine ⊢
        by_cases fits : loadBias + stValue < 2 ^ 64
        · rw [add_ok fits, ok_bind]
          refine ⟨?_, fun small => fine fun v member => small v (.tail _ member)⟩
          rintro ⟨v, member, large⟩
          rcases List.mem_cons.mp member with rfl | later
          · omega
          · exact isOver ⟨v, later, large⟩
        · have overflow : (add 64 loadBias stValue : Result Nat) = .error .overflow := if_neg fits
          rw [overflow, error_bind]
          exact ⟨fun _ => rfl, fun small => absurd (small stValue (.head _)) fits⟩
      · simp only [readName, failed, ok_bind, error_bind, add_ok (a := s) (c := 8) (by omega)]
        refine ⟨?_, fun _ => ⟨e, rfl⟩⟩
        rintro ⟨v, member, _⟩
        cases member
    · simp only [failed, error_bind]
      refine ⟨?_, fun _ => ⟨e, rfl⟩⟩
      rintro ⟨v, member, _⟩
      cases member

theorem safe_symbolTable {shoff shentsize shnum i : Nat} (table : shoff + shnum * shentsize < 2 ^ 63) (below : i < shnum) :
    Safe (symbolTable b shoff shentsize shnum i) fun found => ∀ t ∈ found,
      t.offset < 2 ^ 64 ∧ ∃ shSize < 2 ^ 64, t.count = shSize / t.entsize := by
  have scaled {k : Nat} (below : k < shnum) : k * shentsize ≤ shnum * shentsize :=
    Nat.mul_le_mul_right _ (Nat.le_of_lt below)
  have here := scaled below
  refine (safe_mul (by omega)).bind fun _ same => (safe_add (by omega)).bind fun sh sum =>
    Safe.add (by omega) <| (safe_u32At b _).bind fun shType _ => ?_
  split
  · intro t member
    cases member
  refine Safe.add (by omega) <| (safe_u64At b _).bind fun shOffset offset =>
    Safe.add (by omega) <| (safe_u64At b _).bind fun shSize size =>
    Safe.add (by omega) <| (safe_u32At b _).bind fun shLink _ =>
    Safe.add (by omega) <| (safe_u64At b _).bind fun shEntsize _ => ?_
  split
  · intro t member
    cases member
  have there := scaled (k := shLink) (by omega)
  refine (safe_mul (by omega)).bind fun _ same' => (safe_add (by omega)).bind fun strSh sum' =>
    Safe.add (by omega) <| (safe_u64At b _).bind fun strOff _ =>
    Safe.add (by omega) <| (safe_u64At b _).bind fun strSize _ => ?_
  intro t member
  cases member
  exact ⟨offset.2, shSize, size.2, rfl⟩

def namedSymbols (b : Bytes) (shoff shentsize shnum : Nat) : Nat → Nat → List Nat × Bool
  | 0, _ => ([], true)
  | left + 1, i =>
    match symbolTable b shoff shentsize shnum i with
    | .ok none => namedSymbols b shoff shentsize shnum left (i + 1)
    | .ok (some t) =>
      let here := namedValues b t.offset t.entsize t.count 0
      let rest := namedSymbols b shoff shentsize shnum left (i + 1)
      if here.2 then (here.1 ++ rest.1, rest.2) else here
    | .error _ => ([], false)

theorem lookupSections_spec (short : Short b) {shoff shentsize shnum loadBias : Nat}
    (table : shoff + shnum * shentsize < 2 ^ 63) (left i : Nat) (within : i + left = shnum) (points : EntryPoints) :
    ((∃ v ∈ (namedSymbols b shoff shentsize shnum left i).1, 2 ^ 64 ≤ loadBias + v) →
      Overflows (lookupSections b shoff shentsize shnum loadBias left i points)) ∧
    ((∀ v ∈ (namedSymbols b shoff shentsize shnum left i).1, loadBias + v < 2 ^ 64) →
      ¬ Overflows (lookupSections b shoff shentsize shnum loadBias left i points)) := by
  induction left generalizing i points with
  | zero =>
    refine ⟨?_, fun _ overflow => by cases overflow⟩
    rintro ⟨v, member, _⟩
    cases member
  | succ left ih =>
    unfold lookupSections namedSymbols
    have safe : Safe (symbolTable b shoff shentsize shnum i) _ := safe_symbolTable table (by omega)
    rcases safe.cases with ⟨found, read, sized⟩ | ⟨e, failed⟩
    · rw [read, ok_bind]
      cases found with
      | none => exact ih (i + 1) (by omega) points
      | some t =>
        obtain ⟨word, shSize, size, count⟩ := sized t rfl
        obtain ⟨isOver, fine⟩ := lookupSymbols_spec short t.strs loadBias 0 points
          ((Nat.zero_add _).trans count) size word (.inl rfl)
        dsimp only
        cases whole : (namedValues b t.offset t.entsize t.count 0).2 with
        | false =>
          rw [whole] at fine
          refine ⟨fun large => overflows_bind.mpr (.inl (isOver large)), fun small => ?_⟩
          obtain ⟨e, failed⟩ := fine small
          rw [failed, error_bind]
          intro overflow
          cases overflow
        | true =>
          rw [whole] at fine
          simp only [if_true] at fine ⊢
          refine ⟨?_, fun small => ?_⟩
          · rintro ⟨v, member, large⟩
            by_cases early : ∃ v ∈ (namedValues b t.offset t.entsize t.count 0).1, 2 ^ 64 ≤ loadBias + v
            · exact overflows_bind.mpr (.inl (isOver early))
            have small : ∀ v ∈ (namedValues b t.offset t.entsize t.count 0).1, loadBias + v < 2 ^ 64 :=
              fun v member => Nat.lt_of_not_le fun large => early ⟨v, member, large⟩
            obtain ⟨points', returned⟩ := fine small
            rw [returned, ok_bind]
            rcases List.mem_append.mp member with here | later
            · exact absurd large (Nat.not_le_of_lt (small v here))
            · exact (ih (i + 1) (by omega) points').1 ⟨v, later, large⟩
          · obtain ⟨points', returned⟩ := fine fun v member => small v (List.mem_append_left _ member)
            rw [returned, ok_bind]
            exact (ih (i + 1) (by omega) points').2 fun v member => small v (List.mem_append_right _ member)
    · rw [failed, error_bind]
      refine ⟨?_, fun _ overflow => by cases overflow⟩
      rintro ⟨v, member, _⟩
      cases member

theorem realizeInto_sections {arch : Arch} {info : ImageSpan} {loadBias : Nat} {img : Image}
    (realized : realizeInto arch b hdr info loadBias true = .ok img) :
    hdr.eShoff + hdr.eShnum * hdr.eShentsize ≤ b.length := by
  obtain ⟨_, _, realized⟩ := bind_eq_ok.mp realized
  obtain ⟨len, product, realized⟩ := bind_eq_ok.mp realized
  obtain ⟨shdrs, read, _⟩ := bind_eq_ok.mp realized
  obtain ⟨_, _, read⟩ := bind_eq_ok.mp read
  have inside := ((safe_slice b hdr.eShoff len).ok read).1
  rw [((safe_mulOr _).ok product).1] at inside
  exact inside

theorem load_overflows_iff (short : Short b) (arch : Arch) (loadBias : Nat) :
    Overflows (load arch b loadBias) ↔ ∃ hdr info img, parseEhdr arch b = .ok hdr ∧ spanFrom hdr b = .ok info ∧
      realizeInto arch b hdr info loadBias true = .ok img ∧
      ∃ v ∈ (namedSymbols b hdr.eShoff hdr.eShentsize hdr.eShnum hdr.eShnum 0).1, 2 ^ 64 ≤ loadBias + v := by
  constructor
  · intro overflow
    rcases overflows_bind.mp overflow with early | ⟨hdr, parsed, overflow⟩
    · exact absurd early (safe_parseEhdr arch b).not_overflows
    rcases overflows_bind.mp overflow with early | ⟨info, spanned, overflow⟩
    · exact absurd early (safe_spanFrom short hdr).not_overflows
    rcases overflows_bind.mp overflow with early | ⟨img, realized, overflow⟩
    · exact absurd early (safe_realizeInto short ((safe_parseEhdr arch b).ok parsed) spanned _ _).not_overflows
    have inside := realizeInto_sections realized
    refine ⟨hdr, info, img, parsed, spanned, realized, ?_⟩
    rcases overflows_bind.mp overflow with looking | ⟨_, _, overflow⟩
    · have table : hdr.eShoff + hdr.eShnum * hdr.eShentsize < 2 ^ 63 := by omega
      by_contra small
      refine (lookupSections_spec short table hdr.eShnum 0 (Nat.zero_add _) ⟨none, none, none⟩).2 ?_ looking
      exact fun v member => Nat.lt_of_not_le fun large => small ⟨v, member, large⟩
    · cases overflow
  · rintro ⟨hdr, info, img, parsed, spanned, realized, large⟩
    have inside := realizeInto_sections realized
    have table : hdr.eShoff + hdr.eShnum * hdr.eShentsize < 2 ^ 63 := by omega
    have looking : Overflows (lookupEntryPoints b hdr.eShoff hdr.eShentsize hdr.eShnum loadBias) :=
      (lookupSections_spec short table hdr.eShnum 0 (Nat.zero_add _) _).1 large
    unfold load
    rw [parsed, ok_bind, spanned, ok_bind, realized, ok_bind]
    exact overflows_bind.mpr (.inl looking)

end Myos.Modules.Elf
