import Mathlib.Tactic.Ring
import Myos.Blk.Gpt

namespace Myos.Blk.Gpt
open Lib Lib.Checked

variable {b : Bytes} {source : Source} {lba len chunk n : Nat}

theorem returns_slice {first last : Nat} (ordered : first ≤ last) (inside : last ≤ b.length) :
    Returns (slice b first last) fun out => out.length = last - first :=
  ⟨_, if_pos ⟨ordered, inside⟩, by simp [inside]⟩

theorem returns_copy {range : Nat × Nat} {bytes : Bytes} (ordered : range.1 ≤ range.2) (inside : range.2 ≤ b.length)
    (same : bytes.length = range.2 - range.1) : Returns (copy b range bytes) fun out => out.length = b.length := by
  refine ⟨_, if_pos ⟨ordered, inside, same⟩, ?_⟩
  simp only [List.length_append, List.length_take, List.length_drop, same]
  omega

theorem returns_index {i : Nat} (inside : i < b.length) : Returns (index b i) fun _ => True :=
  ⟨b[i], by rw [index, List.getElem?_eq_getElem inside], trivial⟩

theorem returns_u32At {at_ : Nat} (inside : at_ + 4 ≤ b.length) : Returns (u32At b at_) (· < 2 ^ 32) := by
  apply (returns_slice (Nat.le_add_right _ _) inside).bind
  intro out length
  have low := fromLe_lt out
  rw [length, Nat.add_sub_cancel_left] at low
  exact .pure low

theorem returns_u64At {at_ : Nat} (inside : at_ + 8 ≤ b.length) : Returns (u64At b at_) (· < 2 ^ 64) := by
  apply (returns_slice (Nat.le_add_right _ _) inside).bind
  intro out length
  have low := fromLe_lt out
  rw [length, Nat.add_sub_cancel_left] at low
  exact .pure low

@[simp] theorem length_filled (n : Nat) (bytes : Nat → Byte) : (filled n bytes).length = n := by
  rw [filled, List.length_map, List.length_range]

def Touches (lba n chunk : Nat) : Prop := lba < (chunk + 1) * CHUNK_SECTORS ∧ chunk * CHUNK_SECTORS < lba + n

def Short (sectors : Nat) : Prop := sectors + 7 < 2 ^ 55

theorem returns_overlap (short : Short (lba + n)) (touches : Touches lba n chunk) :
    Returns (overlap chunk lba (n * SECTOR)) fun r => r.1.1 ≤ r.1.2 ∧ r.1.2 ≤ CHUNK ∧ r.2.1 ≤ r.2.2 ∧ r.2.2 ≤ n * SECTOR ∧
      r.1.2 - r.1.1 = r.2.2 - r.2.1 := by
  obtain ⟨low, high⟩ := touches
  unfold Short at short
  simp only [CHUNK_SECTORS, CHUNK, SECTOR] at low high
  unfold overlap CHUNK SECTOR
  apply Returns.mul (by omega)
  apply Returns.mul (by omega)
  apply Returns.add (by omega)
  apply Returns.mul (by omega)
  apply Returns.add (by omega)
  apply Returns.sub (by omega)
  apply Returns.sub (by omega)
  apply Returns.sub (by omega)
  apply Returns.sub (by omega)
  apply Returns.pure
  dsimp only
  omega

variable {buf : Bytes}

theorem returns_copyChunk (short : Short (lba + n)) (touches : Touches lba n chunk) (bytes : Nat → Byte)
    (length : buf.length = n * SECTOR) : Returns (copyChunk lba chunk bytes buf) fun out => out.length = n * SECTOR := by
  unfold copyChunk
  rw [length]
  apply (returns_overlap short touches).bind
  rintro ⟨inChunk, inBuf⟩ ⟨ordered, inside, orderedBuf, insideBuf, same⟩
  apply (returns_slice ordered (by simpa using inside)).bind
  intro piece pieceLength
  rw [← length]
  exact returns_copy orderedBuf (by rw [length]; exact insideBuf) (pieceLength.trans same)

theorem returns_copyRun (short : Short (lba + n)) (first : Nat) (data : Nat → Byte) (k : Nat)
    (touches : ∀ j, chunk ≤ j → j < chunk + k → Touches lba n j) (length : buf.length = n * SECTOR) :
    Returns (copyRun lba first data k chunk buf) fun out => out.length = n * SECTOR := by
  induction k generalizing chunk buf with
  | zero => exact ⟨buf, rfl, length⟩
  | succ k ih =>
    apply (returns_copyChunk short (touches chunk le_rfl (by omega)) _ length).bind
    intro buf length
    exact ih (fun j low high => touches j (by omega) (by omega)) length

theorem runEnd_between (kept : Nat → Bool) (whole fuel last : Nat) :
    last ≤ runEnd kept whole fuel last ∧ runEnd kept whole fuel last ≤ max last whole ∧
    runEnd kept whole fuel last ≤ last + fuel := by
  induction fuel generalizing last with
  | zero => exact ⟨le_rfl, le_max_left _ _, le_rfl⟩
  | succ fuel ih =>
    unfold runEnd
    split
    · obtain ⟨low, high, near⟩ := ih (last + 1)
      omega
    · omega

theorem returns_readChunks (short : Short (lba + n)) {whole last : Nat} (inside : whole ≤ last)
    (above : (last - 1) * CHUNK_SECTORS < lba + n) (fuel : Nat) (from_ : lba < (chunk + 1) * CHUNK_SECTORS)
    (length : buf.length = n * SECTOR) :
    Returns (readChunks source lba whole last fuel chunk buf) fun r => ∀ out, r = some out → out.length = n * SECTOR := by
  have kept (out : Bytes) (length : out.length = n * SECTOR) : ∀ out', some out = some out' → out'.length = n * SECTOR := by
    rintro out' same
    cases same
    exact length
  have none_kept : ∀ out : Bytes, none = some out → out.length = n * SECTOR := nofun
  induction fuel generalizing chunk buf with
  | zero => exact ⟨some buf, rfl, kept buf length⟩
  | succ fuel ih =>
    apply Returns.ite
    · exact fun _ => ⟨some buf, rfl, kept buf length⟩
    intro before
    have touches (j : Nat) (low : chunk ≤ j) (high : j < last) : Touches lba n j := by
      simp only [Touches, CHUNK_SECTORS, CHUNK, SECTOR] at *
      omega
    have small : last < 2 ^ 55 := by
      simp only [Short, CHUNK_SECTORS, CHUNK, SECTOR] at *
      omega
    have later {next : Nat} (le : chunk ≤ next) : lba < (next + 1) * CHUNK_SECTORS := by
      simp only [CHUNK_SECTORS, CHUNK, SECTOR] at *
      omega
    have here := touches chunk le_rfl (by omega)
    split
    · apply Returns.add (by omega)
      apply (returns_copyChunk short here _ length).bind
      intro buf length
      exact ih (later (by omega)) length
    apply Returns.ite
    · intro _
      rw [length]
      apply (returns_overlap short here).bind
      rintro ⟨inChunk, range⟩ ⟨ordered, within, orderedBuf, insideBuf, same⟩
      have near : range.1 / SECTOR ≤ n := by
        simp only [SECTOR] at *
        omega
      apply Returns.add (by unfold Short at short; omega)
      split
      · exact .pure none_kept
      apply Returns.add (by omega)
      apply (returns_copy orderedBuf (by rw [length]; exact insideBuf) (length_filled _ _)).bind
      intro out outLength
      exact ih (later (by omega)) (outLength.trans length)
    · intro _
      obtain ⟨low, high, near⟩ := runEnd_between (source.later chunk) whole (MAX_RUN - 1) (chunk + 1)
      generalize runEnd (source.later chunk) whole (MAX_RUN - 1) (chunk + 1) = run at low high near
      have few : MAX_RUN = 16 := rfl
      apply Returns.mul (by simp only [Short, Touches, CHUNK_SECTORS, CHUNK, SECTOR] at *; omega)
      apply Returns.mul (by simp only [CHUNK] at *; omega)
      split
      · exact .pure none_kept
      · apply (returns_copyRun short chunk _ (run - chunk) (fun j low high => touches j low (by omega)) length).bind
        intro out outLength
        exact ih (later (by omega)) outLength

theorem returns_blkRead (source : Source) (short : Short (lba + len / SECTOR)) :
    Returns (blkRead source lba len) fun r => ∀ out, r = some out → out.length = len := by
  apply Returns.ite
  · exact fun _ => ⟨none, rfl, nofun⟩
  intro whole
  apply Returns.ite
  · intro zero
    refine ⟨some [], rfl, fun out same => ?_⟩
    rw [← Option.some.inj same, zero]
    rfl
  intro _
  apply Returns.ite
  · exact fun _ => ⟨none, rfl, nofun⟩
  intro _
  obtain ⟨n, rfl⟩ := Nat.dvd_of_mod_eq_zero (not_not.mp whole)
  rw [Nat.mul_div_cancel_left _ (by decide), Nat.mul_comm] at *
  cases source.sectors with
  | none =>
    refine ⟨_, rfl, fun out same => ?_⟩
    exact mapped same fun bytes _ => length_filled _ _
  | some sectors =>
    unfold Short at short
    unfold cacheRead
    rw [List.length_replicate, Nat.mul_div_cancel _ (by decide)]
    apply Returns.add (by omega)
    apply returns_readChunks short (Nat.min_le_left _ _)
    · simp only [divCeil, CHUNK_SECTORS, CHUNK, SECTOR] at *
      omega
    · simp only [CHUNK_SECTORS, CHUNK, SECTOR]
      omega
    · exact List.length_replicate

theorem returns_protective (length : b.length = SECTOR) : Returns (protective b) fun _ => True := by
  unfold SECTOR at length
  apply (returns_slice (by decide) (by omega)).bind
  intro _ _
  apply Returns.ite
  · exact fun _ => .pure trivial
  intro _
  apply (returns_mapM _).bind
  · exact fun _ _ => .pure trivial
  · intro i few
    simp only [List.mem_cons, List.not_mem_nil, or_false] at few
    exact returns_index (by omega)

theorem mul_lt_of_lt {a c : Nat} (first : a < 2 ^ 32) (second : c < 2 ^ 32) : a * c < 2 ^ 64 :=
  calc a * c < 2 ^ 32 * 2 ^ 32 := Nat.mul_lt_mul'' first second
    _ = 2 ^ 64 := rfl

structure Header.Valid (h : Header) (sectors : Nat) : Prop where
  entries : h.entries < 2 ^ 32
  entrySize : h.entrySize < 2 ^ 32
  fits : h.Fits sectors (h.entries * h.entrySize) (h.entriesLba + divCeil (h.entries * h.entrySize) SECTOR)

variable {sectors : Nat}

theorem returns_header (source : Source) (inside : lba < sectors) (short : Short sectors) :
    Returns (header source lba sectors) fun r => ∀ h, r = some h → h.Valid sectors := by
  have near : Short (lba + SECTOR / SECTOR) := by
    simp only [Short, SECTOR] at *
    omega
  apply (returns_blkRead source near).bind
  rintro (_ | sec) length
  · exact .pure nofun
  have length : sec.length = 512 := length sec rfl
  apply (returns_u32At (by omega)).bind
  intro size _
  apply (returns_slice (by decide) (by omega)).bind
  intro signature _
  apply Returns.ite
  · exact fun _ => .pure nofun
  intro sized
  unfold SECTOR at sized
  apply (returns_u32At (by omega)).bind
  intro crc _
  apply (returns_copy (by decide) (by dsimp only; omega) rfl).bind
  intro sec same
  apply (returns_slice (Nat.zero_le _) (by omega)).bind
  intro covered _
  apply (returns_u64At (by omega)).bind
  intro own _
  apply Returns.ite
  · exact fun _ => .pure nofun
  intro _
  apply (returns_u64At (by omega)).bind
  intro firstUsable _
  apply (returns_u64At (by omega)).bind
  intro lastUsable _
  apply (returns_u64At (by omega)).bind
  intro entriesLba _
  apply (returns_u32At (by omega)).bind
  intro entries entriesSmall
  apply (returns_u32At (by omega)).bind
  intro entrySize sizeSmall
  apply (returns_u32At (by omega)).bind
  intro entriesCrc _
  have product : entries * entrySize < 2 ^ 64 := mul_lt_of_lt entriesSmall sizeSmall
  apply Returns.mul product
  apply Returns.ite
  · exact fun _ => .pure nofun
  intro _
  apply Returns.pure
  intro h kept
  rw [Option.ite_none_right_eq_some] at kept
  obtain ⟨fits, same⟩ := kept
  cases same
  exact ⟨entriesSmall, sizeSmall, fits⟩

def Entry.In (e : Entry) (h : Header) : Prop := h.firstUsable ≤ e.first ∧ e.first ≤ e.last ∧ e.last ≤ h.lastUsable

theorem returns_entryAt (h : Header) {i : Nat} (few : i + 1 < 2 ^ 32) (length : 128 ≤ b.length) :
    Returns (entryAt h i b) fun r => ∀ e, r = some e → e.In h := by
  apply (returns_slice (by decide) (by omega)).bind
  intro typeGuid _
  apply Returns.ite
  · exact fun _ => .pure nofun
  intro _
  apply (returns_u64At (by omega)).bind
  intro first _
  apply (returns_u64At (by omega)).bind
  intro last _
  apply Returns.ite
  · exact fun _ => .pure nofun
  intro inside
  apply (returns_mapM _).bind
  · intro label _
    apply Returns.add (by omega)
    apply (returns_slice (by decide) (by omega)).bind
    intro uuid _
    apply Returns.pure
    intro e same
    cases same
    unfold Entry.In
    dsimp only
    omega
  · intro k few
    have few : k < 36 := List.mem_range.mp few
    apply (returns_index (by omega)).bind
    intro _ _
    apply (returns_index (by omega)).bind
    exact fun _ _ => .pure trivial

theorem returns_entriesFrom (h : Header) (large : 128 ≤ h.entrySize) {i : Nat} (few : i + n < 2 ^ 32)
    (whole : (i + n) * h.entrySize ≤ b.length) : Returns (entriesFrom h b n i) fun r => ∀ e ∈ r, e.In h := by
  induction n generalizing i with
  | zero => exact ⟨[], rfl, nofun⟩
  | succ n ih =>
    have next : (i + 1 + n) * h.entrySize ≤ b.length := by rwa [Nat.add_right_comm, Nat.add_assoc]
    have here : (i + 1) * h.entrySize ≤ b.length := (Nat.mul_le_mul_right _ (by omega)).trans next
    have size : (i + 1) * h.entrySize = i * h.entrySize + h.entrySize := Nat.succ_mul _ _
    unfold entriesFrom
    rw [Nat.min_eq_left here]
    apply (returns_slice (by omega) here).bind
    intro piece length
    apply (returns_entryAt h (by omega) (by omega)).bind
    intro entry inside
    apply (ih (by omega) next).bind
    intro rest restInside
    apply Returns.pure
    intro e mem
    rcases List.mem_append.mp mem with mem | mem
    · exact inside e (Option.mem_toList.mp mem)
    · exact restInside e mem

theorem returns_entries (source : Source) {h : Header} (valid : h.Valid sectors) (short : Short sectors) :
    Returns (entries source h) fun r => ∀ list, r = some list → ∀ e ∈ list, e.In h := by
  obtain ⟨entriesSmall, sizeSmall, _, _, large, _, arraySmall, _, arrayEnd⟩ := valid
  have product : h.entries * h.entrySize < 2 ^ 64 := mul_lt_of_lt entriesSmall sizeSmall
  have pieces : divCeil (h.entries * h.entrySize) h.entrySize = h.entries := by
    unfold divCeil
    rw [Nat.add_comm, Nat.add_mul_div_right _ _ (by omega), Nat.div_eq_of_lt (by omega), Nat.zero_add]
  apply Returns.mul product
  unfold MAX_ARRAY at arraySmall
  have padded : h.entries * h.entrySize ≤ divCeil (h.entries * h.entrySize) SECTOR * SECTOR ∧
      divCeil (h.entries * h.entrySize) SECTOR ≤ 512 := by
    simp only [divCeil, SECTOR]
    omega
  apply Returns.mul (by simp only [SECTOR] at *; omega)
  have near : Short (h.entriesLba + divCeil (h.entries * h.entrySize) SECTOR * SECTOR / SECTOR) := by
    rw [Nat.mul_div_cancel _ (by decide)]
    unfold Short at *
    omega
  apply (returns_blkRead source near).bind
  rintro (_ | array) length
  · exact .pure nofun
  have length := length array rfl
  apply (returns_slice (Nat.zero_le _) (by omega)).bind
  intro array arrayLength
  rw [Nat.sub_zero] at arrayLength
  apply Returns.ite
  · exact fun _ => .pure nofun
  intro _
  apply Returns.ite
  · exact fun missing => absurd missing (by omega)
  intro _
  rw [arrayLength, pieces]
  apply (returns_entriesFrom h large (by omega) (by rw [Nat.zero_add, arrayLength])).bind
  intro list inside
  apply Returns.pure
  intro out same
  cases same
  exact inside

def Inside (sources : Nat → Source) (sectors : Nat) (e : Entry) : Prop :=
  ∃ i lba h, header (sources i) lba sectors = .ok (some h) ∧ e.In h ∧ h.lastUsable < sectors

theorem returns_table (sources : Nat → Source) (i j : Nat) (inside : lba < sectors) (short : Short sectors) :
    Returns (table (sources i) (sources j) lba sectors) fun r => ∀ list, r = some list → ∀ e ∈ list,
    Inside sources sectors e := by
  obtain ⟨found, read, valid⟩ := returns_header (sources i) inside short
  unfold table
  rw [read, ok_bind]
  cases found with
  | none => exact .pure nofun
  | some h =>
    have valid := valid h rfl
    apply (returns_entries (sources j) valid short).mono
    intro r each list same e mem
    exact ⟨i, lba, h, read, each list same e mem, valid.fits.2.1⟩

theorem returns_read (sources : Nat → Source) (short : Short sectors) :
    Returns (read sources sectors) fun list => ∀ e ∈ list, Inside sources sectors e := by
  apply Returns.ite
  · exact fun _ => .pure nofun
  intro large
  have near : Short (0 + SECTOR / SECTOR) := by
    unfold Short
    decide
  apply (returns_blkRead (sources 0) near).bind
  rintro (_ | mbr) length
  · exact .pure nofun
  apply (returns_protective (length mbr rfl)).bind
  intro marked _
  apply Returns.ite
  · exact fun _ => .pure nofun
  intro _
  apply (returns_table sources 1 2 (by omega) short).bind
  rintro (_ | list) inside
  · apply Returns.sub (by omega)
    apply (returns_table sources 3 4 (by omega) short).bind
    rintro (_ | list) inside
    · exact .pure nofun
    · exact .pure (inside list rfl)
  · exact .pure (inside list rfl)

theorem overlap_overflow (large : 2 ^ 64 ≤ (chunk + 1) * CHUNK) (lba len : Nat) : overlap chunk lba len = .error .overflow := by
  unfold overlap
  have refused (a : Nat) (same : a = chunk + 1) : (mul 64 a CHUNK : M Nat) = .error .overflow := by
    rw [same]
    exact if_neg (Nat.not_lt.mpr large)
  by_cases base : chunk * CHUNK < 2 ^ 64
  · by_cases low : lba * SECTOR < 2 ^ 64
    · by_cases next : chunk + 1 < 2 ^ 64
      · rw [mul, if_pos base, ok_bind, mul, if_pos low, ok_bind, add, if_pos next, ok_bind, refused _ rfl]
        rfl
      · rw [mul, if_pos base, ok_bind, mul, if_pos low, ok_bind, add, if_neg next]
        rfl
    · rw [mul, if_pos base, ok_bind, mul, if_neg low]
      rfl
  · rw [mul, if_neg base]
    rfl

theorem readChunks_overflow (content : Nat → Byte) {whole last : Nat} (before : chunk < last)
    (large : 2 ^ 64 ≤ (chunk + 1) * CHUNK) (small : chunk * CHUNK_SECTORS < 2 ^ 64) (fuel : Nat) :
    readChunks (.disk sectors content) lba whole last (fuel + 1) chunk buf = .error .overflow := by
  have refused := overlap_overflow large lba buf.length
  rw [readChunks, if_neg (Nat.not_le.mpr before)]
  dsimp only [Source.disk]
  split
  · rw [refused, error_bind]
  obtain ⟨low, _, near⟩ := runEnd_between (fun _ => false) whole (MAX_RUN - 1) (chunk + 1)
  obtain ⟨n, run⟩ := Nat.exists_eq_add_of_le low
  have few : MAX_RUN = 16 := rfl
  have length : (chunk + 1 + n - chunk) * CHUNK < 2 ^ 64 := by
    simp only [CHUNK]
    omega
  have rest : chunk + 1 + n - chunk = n + 1 := by omega
  rw [run, mul, if_pos small, ok_bind, mul, if_pos length, ok_bind, rest, copyRun, copyChunk, refused]
  rfl

theorem blkRead_last (content : Nat → Byte) (fits : sectors < 2 ^ 64) (long : ¬Short sectors) :
    blkRead (.disk sectors content) (sectors - 1) SECTOR = .error .overflow := by
  unfold Short at long
  have ends : sectors - 1 + SECTOR / SECTOR = sectors := by
    simp only [SECTOR]
    omega
  have one : divCeil sectors CHUNK_SECTORS - (sectors - 1) / CHUNK_SECTORS = 0 + 1 := by
    simp only [divCeil, CHUNK_SECTORS, CHUNK, SECTOR]
    omega
  have read : blkRead (.disk sectors content) (sectors - 1) SECTOR =
      cacheRead (.disk sectors content) sectors (sectors - 1) (List.replicate SECTOR 0) := rfl
  rw [read, cacheRead, List.length_replicate, add, if_pos (by rw [ends]; exact fits), ok_bind, ends]
  dsimp only
  rw [one]
  apply readChunks_overflow
  · omega
  · simp only [CHUNK_SECTORS, CHUNK, SECTOR]
    omega
  · simp only [CHUNK_SECTORS, CHUNK, SECTOR]
    omega

theorem slice_filled (first k : Nat) (inside : first + k ≤ n) (bytes : Nat → Byte) :
    slice (filled n bytes) first (first + k) = .ok (filled k fun i => bytes (first + i)) := by
  rw [slice, if_pos ⟨Nat.le_add_right _ _, by rwa [length_filled]⟩]
  congr 1
  apply List.ext_getElem
  · simp [filled]
    omega
  · simp [filled]

theorem index_filled {i : Nat} (inside : i < n) (bytes : Nat → Byte) : index (filled n bytes) i = .ok (bytes i) := by
  rw [index, List.getElem?_eq_getElem (by rwa [length_filled])]
  simp [filled]

theorem copy_whole {bytes : Bytes} (same : bytes.length = n) (whole : b.length = n) : copy b (0, n) bytes = .ok bytes := by
  subst whole
  rw [copy, if_pos ⟨Nat.zero_le _, le_rfl, same⟩]
  simp

theorem blkRead_first (content : Nat → Byte) (early : lba = 0 ∨ lba = 1) (large : 8 ≤ sectors) :
    blkRead (.disk sectors content) lba SECTOR = .ok (some (filled SECTOR fun i => content (lba * SECTOR + i))) := by
  have one : min 1 (sectors / CHUNK_SECTORS) = 1 := by
    simp only [CHUNK_SECTORS, CHUNK, SECTOR]
    omega
  have read : blkRead (.disk sectors content) lba SECTOR =
      cacheRead (.disk sectors content) sectors lba (List.replicate SECTOR 0) := rfl
  have rounds : cacheRead (.disk sectors content) sectors lba (List.replicate SECTOR 0) =
      readChunks (.disk sectors content) lba (min 1 (sectors / CHUNK_SECTORS)) 1 1 0 (List.replicate SECTOR 0) := by
    rw [cacheRead, List.length_replicate]
    rcases early with rfl | rfl
    all_goals rfl
  have ranges : overlap 0 lba SECTOR = .ok ((lba * SECTOR, lba * SECTOR + SECTOR), (0, SECTOR)) := by
    rcases early with rfl | rfl
    all_goals rfl
  have inside : lba * SECTOR + SECTOR ≤ CHUNK := by
    simp only [CHUNK, SECTOR]
    omega
  have copied : copyChunk lba 0 content (List.replicate SECTOR 0) = .ok (filled SECTOR fun i => content (lba * SECTOR + i)) := by
    rw [copyChunk, List.length_replicate, ranges, ok_bind]
    dsimp only
    rw [slice_filled _ _ inside, ok_bind, copy_whole (length_filled _ _) List.length_replicate]
  have run : readChunks (.disk sectors content) lba 1 1 1 0 (List.replicate SECTOR 0) =
      copyChunk lba 0 (fun i => content (0 * CHUNK_SECTORS * SECTOR + ((0 - 0) * CHUNK + i))) (List.replicate SECTOR 0) >>=
        fun buf => .ok (some buf) := by
    generalize List.replicate SECTOR (0 : Byte) = buf
    have last : runEnd (fun _ => false) 1 (MAX_RUN - 1) (0 + 1) = 1 := by decide
    rw [readChunks, if_neg (by decide)]
    dsimp only [Source.disk]
    rw [if_neg (by decide), last, mul, if_pos (by decide), ok_bind, mul, if_pos (by decide), ok_bind]
    rw [Nat.sub_zero, copyRun]
    cases copyChunk lba 0 (fun i => content (0 * CHUNK_SECTORS * SECTOR + ((0 - 0) * CHUNK + i))) buf
    all_goals rfl
  have same : (fun i => content (0 * CHUNK_SECTORS * SECTOR + ((0 - 0) * CHUNK + i))) = content := by
    simp
  rw [read, rounds, one, run, same, copied, ok_bind]

def marked (at_ : Nat) : Byte :=
  if at_ % SECTOR = 510 then 0x55 else if at_ % SECTOR = 511 then 0xAA else if at_ % SECTOR = 450 then 0xEE else 0

theorem protective_marked : protective (filled SECTOR fun i => marked (0 * SECTOR + i)) = .ok true := by
  have boot : slice (filled SECTOR fun i => marked (0 * SECTOR + i)) 510 512 =
    .ok (filled 2 fun i => marked (0 * SECTOR + (510 + i))) :=
    slice_filled 510 2 (by decide) _
  have signature : filled 2 (fun i => marked (0 * SECTOR + (510 + i))) = [0x55, 0xAA] := by decide
  have byte {i : Nat} (inside : i < SECTOR) := index_filled inside fun i => marked (0 * SECTOR + i)
  rw [protective, boot, ok_bind, signature, if_neg (by decide), List.mapM_cons, byte (by decide), ok_bind, List.mapM_cons,
    byte (by decide), ok_bind, List.mapM_cons, byte (by decide), ok_bind, List.mapM_cons, byte (by decide), ok_bind,
      List.mapM_nil]
  rfl

theorem header_marked (large : 8 ≤ sectors) : header (.disk sectors marked) 1 sectors = .ok none := by
  have size : u32At (filled SECTOR fun i => marked (1 * SECTOR + i)) 12 = .ok 0 := by
    have word : slice (filled SECTOR fun i => marked (1 * SECTOR + i)) 12 (12 + 4) =
      .ok (filled 4 fun i => marked (1 * SECTOR + (12 + i))) :=
      slice_filled 12 4 (by decide) _
    rw [u32At, word]
    rfl
  have signature : slice (filled SECTOR fun i => marked (1 * SECTOR + i)) 0 8 =
    .ok (filled 8 fun i => marked (1 * SECTOR + (0 + i))) :=
    slice_filled 0 8 (by decide) _
  rw [header, blkRead_first marked (.inr rfl) large, ok_bind]
  dsimp only
  rw [size, ok_bind, signature, ok_bind, if_pos (.inl (by decide))]
  rfl

theorem read_long (fits : sectors < 2 ^ 64) (long : ¬Short sectors) :
    read (fun _ => .disk sectors marked) sectors = .error .overflow := by
  have large : 8 ≤ sectors := by
    unfold Short at long
    omega
  have first : table (.disk sectors marked) (.disk sectors marked) 1 sectors = .ok none := by
    rw [table, header_marked large]
    rfl
  have second : table (.disk sectors marked) (.disk sectors marked) (sectors - 1) sectors = .error .overflow := by
    rw [table, header, blkRead_last marked fits long]
    rfl
  rw [read, if_neg (by omega), blkRead_first marked (.inl rfl) large, ok_bind]
  dsimp only
  rw [protective_marked, ok_bind, if_neg (by decide), first, ok_bind, sub, if_pos (by omega), ok_bind, second]
  rfl

end Myos.Blk.Gpt
