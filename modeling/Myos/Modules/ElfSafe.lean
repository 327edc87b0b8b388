import Myos.Modules.ElfRelocs

namespace Myos.Modules.Elf
open Lib Checked

variable {b : Bytes} {hdr : Ehdr} {o n p : Nat}

abbrev Short (b : Bytes) : Prop := b.length < 2 ^ 63

theorem safe_slice (b : Bytes) (o n : Nat) : Safe (slice b o n) fun s => o + n ≤ b.length ∧ s.length = n := by
  unfold slice
  split
  · rename_i inside
    refine ⟨inside.2, ?_⟩
    rw [List.length_take, List.length_drop]
    omega
  · trivial

theorem safe_u16At (b : Bytes) (o : Nat) : Safe (u16At b o) fun v => o + 2 ≤ b.length ∧ v < 2 ^ 16 := by
  refine (safe_slice b o 2).bind fun s read => ⟨read.1, ?_⟩
  have small := fromLe_lt s
  rw [read.2] at small
  exact small

theorem safe_u32At (b : Bytes) (o : Nat) : Safe (u32At b o) fun v => o + 4 ≤ b.length ∧ v < 2 ^ 32 := by
  refine (safe_slice b o 4).bind fun s read => ⟨read.1, ?_⟩
  have small := fromLe_lt s
  rw [read.2] at small
  exact small

theorem safe_u64At (b : Bytes) (o : Nat) : Safe (u64At b o) fun v => o + 8 ≤ b.length ∧ v < 2 ^ 64 := by
  refine (safe_slice b o 8).bind fun s read => ⟨read.1, ?_⟩
  have small := fromLe_lt s
  rw [read.2] at small
  exact small

structure Ehdr.Wf (hdr : Ehdr) : Prop where
  phentsize : 56 ≤ hdr.ePhentsize
  phoff : hdr.ePhoff < 2 ^ 64
  shoff : hdr.eShoff < 2 ^ 64
  shentsize : hdr.eShentsize < 2 ^ 16
  shnum : hdr.eShnum < 2 ^ 16

theorem safe_parseEhdr (arch : Arch) (b : Bytes) : Safe (parseEhdr arch b) Ehdr.Wf := by
  unfold parseEhdr
  split
  · trivial
  split
  · trivial
  split
  · trivial
  refine (safe_u16At b 16).bind fun eType _ => (safe_u16At b 18).bind fun eMachine _ => ?_
  split
  · trivial
  split
  · trivial
  refine (safe_u16At b 54).bind fun ePhentsize _ => (safe_u16At b 58).bind fun eShentsize shentsize => ?_
  split
  · trivial
  rename_i sizes
  exact (safe_u64At b 24).bind fun eEntry _ => (safe_u64At b 32).bind fun ePhoff phoff =>
    (safe_u64At b 40).bind fun eShoff shoff => (safe_u16At b 56).bind fun ePhnum _ =>
    (safe_u16At b 60).bind fun eShnum shnum =>
    ⟨Nat.le_of_not_lt fun small => sizes (.inl small), phoff.2, shoff.2, shentsize.2, shnum.2⟩

theorem safe_phdrAt (hdr : Ehdr) (i : Nat) :
    Safe (phdrAt hdr i) fun p => p = hdr.ePhoff + i * hdr.ePhentsize ∧ p < 2 ^ 64 ∧ i * hdr.ePhentsize < 2 ^ 64 := by
  refine (safe_mulOr LoadError.truncated).bind fun scaled small => (safe_addOr _).mono fun p sum => ?_
  obtain ⟨rfl, small⟩ := small
  exact ⟨sum.1, sum.2, small⟩

structure Extent.Bounds (e : Extent) (seg : LoadSegment) : Prop where
  filesz : seg.filesz ≤ seg.memsz
  top : seg.vaddr + seg.memsz ≤ IMAGE_VADDR_MAX
  lower : e.min ≤ seg.vaddr
  upper : seg.vaddr + seg.memsz ≤ e.max
  offset : seg.offset < 2 ^ 64

theorem u64At_ok (short : Short b) (inside : o + 8 ≤ b.length) : ∃ v, u64At b o = .ok v := by
  have read : slice b o 8 = .ok ((b.drop o).take 8) := if_pos ⟨by have := short; omega, inside⟩
  exact ⟨_, by rw [u64At, read]; rfl⟩

theorem u32At_ok (short : Short b) (inside : o + 4 ≤ b.length) : ∃ v, u32At b o = .ok v := by
  have read : slice b o 4 = .ok ((b.drop o).take 4) := if_pos ⟨by have := short; omega, inside⟩
  exact ⟨_, by rw [u32At, read]; rfl⟩

theorem safe_extentFrom (short : Short b) (left i : Nat) (e : Extent) (bounded : e.max ≤ IMAGE_VADDR_MAX) :
    Safe (extentFrom hdr b left i e) fun e' => e'.max ≤ IMAGE_VADDR_MAX := by
  induction left generalizing i e with
  | zero => exact bounded
  | succ left ih =>
    refine (safe_phdrAt hdr i).bind fun p _ => (safe_u32At b p).bind fun type read => ?_
    split
    · exact ih (i + 1) e bounded
    refine (safe_add (by omega)).bind fun at₁ same₁ => (safe_u64At b at₁).bind fun vaddr _ =>
      (safe_add (by omega)).bind fun at₂ same₂ => (safe_u64At b at₂).bind fun filesz _ =>
      (safe_add (by omega)).bind fun at₃ same₃ => (safe_u64At b at₃).bind fun memsz _ => ?_
    split
    · trivial
    refine (safe_addOr LoadError.unsupported).bind fun top _ => ?_
    split
    · trivial
    · exact ih (i + 1) _ (by dsimp only; omega)

theorem add_ok {a c : Nat} (small : a + c < 2 ^ 64) : add 64 a c = (.ok (a + c) : Result Nat) := if_pos small

theorem extentFrom_succ (short : Short b) {left i : Nat} {e e' : Extent}
    (accepted : extentFrom hdr b (left + 1) i e = .ok e') :
    ∃ p type, phdrAt hdr i = .ok p ∧ u32At b p = .ok type ∧
      (type ≠ PT_LOAD ∧ extentFrom hdr b left (i + 1) e = .ok e' ∨
        type = PT_LOAD ∧ ∃ vaddr filesz memsz, u64At b (p + 16) = .ok vaddr ∧ u64At b (p + 32) = .ok filesz ∧
          u64At b (p + 40) = .ok memsz ∧ filesz ≤ memsz ∧ vaddr + memsz ≤ IMAGE_VADDR_MAX ∧
          extentFrom hdr b left (i + 1) ⟨min e.min vaddr, max e.max (vaddr + memsz), e.nload + 1⟩ = .ok e') := by
  obtain ⟨p, header, accepted⟩ := bind_eq_ok.mp accepted
  obtain ⟨type, read, accepted⟩ := bind_eq_ok.mp accepted
  have inside := ((safe_u32At b p).ok read).1
  refine ⟨p, type, header, read, ?_⟩
  split at accepted
  · rename_i other
    exact .inl ⟨other, accepted⟩
  rename_i load
  obtain ⟨_, at₁, accepted⟩ := bind_eq_ok.mp accepted
  cases (add_ok (by omega)).symm.trans at₁
  obtain ⟨vaddr, readVaddr, accepted⟩ := bind_eq_ok.mp accepted
  obtain ⟨_, at₂, accepted⟩ := bind_eq_ok.mp accepted
  cases (add_ok (by omega)).symm.trans at₂
  obtain ⟨filesz, readFilesz, accepted⟩ := bind_eq_ok.mp accepted
  obtain ⟨_, at₃, accepted⟩ := bind_eq_ok.mp accepted
  cases (add_ok (by omega)).symm.trans at₃
  obtain ⟨memsz, readMemsz, accepted⟩ := bind_eq_ok.mp accepted
  split at accepted
  · cases accepted
  rename_i fits
  obtain ⟨top, sum, accepted⟩ := bind_eq_ok.mp accepted
  obtain ⟨rfl, _⟩ := (safe_addOr _).ok sum
  split at accepted
  · cases accepted
  · rename_i low
    exact .inr ⟨Decidable.not_not.mp load, vaddr, filesz, memsz, readVaddr, readFilesz, readMemsz,
      Nat.le_of_not_lt fits, Nat.le_of_not_lt low, accepted⟩

theorem segments_of_extent (short : Short b) {left i : Nat} {e e' : Extent} (accepted : extentFrom hdr b left i e = .ok e') :
    e'.min ≤ e.min ∧ e.max ≤ e'.max ∧
      ∃ segs, segmentsFrom hdr b left i = .ok segs ∧ ∀ seg ∈ segs, e'.Bounds seg := by
  induction left generalizing i e with
  | zero =>
    cases accepted
    exact ⟨Nat.le_refl _, Nat.le_refl _, [], rfl, fun _ member => by cases member⟩
  | succ left ih =>
    obtain ⟨p, type, header, read, rest⟩ := extentFrom_succ short accepted
    rcases rest with ⟨other, accepted⟩ | ⟨load, vaddr, filesz, memsz, readVaddr, readFilesz, readMemsz, fits, low, accepted⟩
    · obtain ⟨lower, upper, segs, found, bounds⟩ := ih accepted
      refine ⟨lower, upper, segs, bind_eq_ok.mpr ⟨p, header, bind_eq_ok.mpr ⟨type, read, ?_⟩⟩, bounds⟩
      rw [if_pos other]
      exact found
    obtain ⟨lower, upper, segs, found, bounds⟩ := ih accepted
    have whole := ((safe_u64At b _).ok readMemsz).1
    obtain ⟨flags, readFlags⟩ := u32At_ok (o := p + 4) short (by omega)
    obtain ⟨offset, readOffset⟩ := u64At_ok (o := p + 8) short (by omega)
    refine ⟨Nat.le_trans lower (Nat.min_le_left _ _), Nat.le_trans (Nat.le_max_left _ _) upper,
      ⟨vaddr, memsz, BitVec.ofNat 32 flags, offset, filesz⟩ :: segs,
      bind_eq_ok.mpr ⟨p, header, bind_eq_ok.mpr ⟨type, read, ?_⟩⟩, ?_⟩
    · rw [if_neg (Decidable.not_not.mpr load)]
      simp only [add_ok (a := p) (c := 4) (by omega), add_ok (a := p) (c := 8) (by omega),
        add_ok (a := p) (c := 16) (by omega), add_ok (a := p) (c := 32) (by omega),
        add_ok (a := p) (c := 40) (by omega), ok_bind, readFlags, readOffset, readVaddr, readFilesz, readMemsz, found]
      rfl
    intro seg member
    rcases List.mem_cons.mp member with rfl | later
    · exact ⟨fits, low, Nat.le_trans lower (Nat.min_le_right _ _), Nat.le_trans (Nat.le_max_right _ _) upper,
        ((safe_u64At b _).ok readOffset).2⟩
    · exact bounds seg later

theorem segmentsFrom_length (wf : hdr.Wf) {left i : Nat} {segs : List LoadSegment}
    (loaded : segmentsFrom hdr b left i = .ok segs) (nonempty : segs ≠ []) : (i + segs.length) * 56 ≤ b.length + 8 := by
  induction left generalizing i segs with
  | zero =>
    cases loaded
    exact absurd rfl nonempty
  | succ left ih =>
    obtain ⟨p, header, loaded⟩ := bind_eq_ok.mp loaded
    obtain ⟨type, read, loaded⟩ := bind_eq_ok.mp loaded
    have place := ((safe_phdrAt hdr i).ok header).1
    have scaled : i * 56 ≤ i * hdr.ePhentsize := Nat.mul_le_mul_left i wf.phentsize
    split at loaded
    · have later := ih loaded nonempty
      omega
    obtain ⟨flagsAt, _, loaded⟩ := bind_eq_ok.mp loaded
    obtain ⟨flags, _, loaded⟩ := bind_eq_ok.mp loaded
    obtain ⟨offsetAt, _, loaded⟩ := bind_eq_ok.mp loaded
    obtain ⟨offset, _, loaded⟩ := bind_eq_ok.mp loaded
    obtain ⟨vaddrAt, _, loaded⟩ := bind_eq_ok.mp loaded
    obtain ⟨vaddr, _, loaded⟩ := bind_eq_ok.mp loaded
    obtain ⟨fileszAt, _, loaded⟩ := bind_eq_ok.mp loaded
    obtain ⟨filesz, _, loaded⟩ := bind_eq_ok.mp loaded
    obtain ⟨memszAt, memszAtEq, loaded⟩ := bind_eq_ok.mp loaded
    obtain ⟨memsz, readMemsz, loaded⟩ := bind_eq_ok.mp loaded
    obtain ⟨rest, restLoaded, loaded⟩ := bind_eq_ok.mp loaded
    cases loaded
    have inside := ((safe_u64At b _).ok readMemsz).1
    have field : memszAt = p + 40 := by
      unfold add at memszAtEq
      split at memszAtEq
      · exact (Except.ok.inj memszAtEq).symm
      · cases memszAtEq
    cases rest with
    | nil =>
      rw [List.length_singleton]
      omega
    | cons seg rest =>
      have later := ih restLoaded (List.cons_ne_nil _ _)
      rw [List.length_cons]
      omega

structure ImageSpan.Bounds (info : ImageSpan) (seg : LoadSegment) : Prop where
  filesz : seg.filesz ≤ seg.memsz
  top : seg.vaddr + seg.memsz ≤ IMAGE_VADDR_MAX
  lower : info.minVaddr ≤ seg.vaddr
  upper : seg.vaddr + seg.memsz ≤ info.minVaddr + info.span
  offset : seg.offset < 2 ^ 64

theorem imageSpan_segments (short : Short b) {arch : Arch} {info : ImageSpan} (accepted : imageSpan arch b = .ok info) :
    PAGE ∣ info.minVaddr ∧ ∃ segs, loadSegments arch b = .ok segs ∧ segs.length * 56 ≤ b.length + 8 ∧
      ∀ seg ∈ segs, info.Bounds seg := by
  obtain ⟨hdr, parsed, accepted⟩ := bind_eq_ok.mp accepted
  obtain ⟨e, extent, accepted⟩ := bind_eq_ok.mp accepted
  obtain ⟨_, _, segs, loaded, bounds⟩ := segments_of_extent short extent
  split at accepted
  · cases accepted
  obtain ⟨span, spanned, accepted⟩ := bind_eq_ok.mp accepted
  cases accepted
  have down : pageDown e.min ≤ e.min := Nat.div_mul_le_self _ _
  have below : pageDown e.min ≤ e.max := by omega
  have difference : span = e.max - pageDown e.min := (safe_sub below).ok spanned
  refine ⟨Nat.dvd_mul_left _ _, segs, bind_eq_ok.mpr ⟨hdr, parsed, loaded⟩, ?_, ?_⟩
  · cases segs with
    | nil => exact Nat.zero_le _
    | cons seg rest =>
      have many := segmentsFrom_length ((safe_parseEhdr arch b).ok parsed) loaded (List.cons_ne_nil _ _)
      rw [Nat.zero_add] at many
      exact many
  · intro seg member
    obtain ⟨filesz, top, lower, upper, offset⟩ := bounds seg member
    exact ⟨filesz, top, by dsimp only; omega, by dsimp only; omega, offset⟩

theorem safe_copySegments (short : Short b) {left i minVaddr : Nat} {e e' : Extent} (img : Image)
    (accepted : extentFrom hdr b left i e = .ok e') (lower : minVaddr ≤ e'.min) :
    Safe (copySegments hdr b minVaddr left i img) fun _ => True := by
  induction left generalizing i e img with
  | zero => trivial
  | succ left ih =>
    obtain ⟨p, type, header, read, rest⟩ := extentFrom_succ short accepted
    obtain ⟨same, small, scaled⟩ := (safe_phdrAt hdr i).ok header
    have inside := ((safe_u32At b p).ok read).1
    refine (safe_mul scaled).bind fun _ product => (safe_add (by omega)).bind fun p' sum => ?_
    have here : p' = p := by omega
    subst here
    rw [read, ok_bind]
    rcases rest with ⟨other, accepted⟩ | ⟨load, vaddr, filesz, memsz, readVaddr, readFilesz, readMemsz, fits, low, accepted⟩
    · rw [if_pos other]
      exact ih img accepted
    have above : minVaddr ≤ vaddr :=
      Nat.le_trans lower (Nat.le_trans (segments_of_extent short accepted).1 (Nat.min_le_right _ _))
    rw [if_neg (Decidable.not_not.mpr load)]
    simp only [add_ok (a := p') (c := 8) (by omega), add_ok (a := p') (c := 16) (by omega),
      add_ok (a := p') (c := 32) (by omega), ok_bind, readVaddr, readFilesz]
    refine (safe_u64At b _).bind fun off _ => (safe_addOr _).bind fun _ _ => (safe_slice b _ _).bind fun src _ =>
      (safe_sub above).bind fun at_ _ => ?_
    exact ih _ accepted

end Myos.Modules.Elf
