import Myos.Fs.PageCacheInv

namespace Myos.Fs.PageCache.World
open Lib

variable {w w' : World} {id at_ op pos len n : Nat} {byte : Byte} {buf : Nat → Byte}

theorem mem_touched (above : pos ≤ at_) (below : at_ < pos + n) : at_ / PAGE ∈ touched pos n := by
  have first : pos / PAGE ≤ at_ / PAGE := Nat.div_le_div_right above
  have last : at_ / PAGE ≤ (pos + n - 1) / PAGE := Nat.div_le_div_right (by omega)
  rw [touched, List.mem_range'_1]
  omega

theorem index_lt (bound : at_ < PAGE * U32) : at_ / PAGE < U32 := Nat.div_lt_of_lt_mul bound

theorem overlay_sees {out : Nat → Byte} (bound : at_ < PAGE * U32) (above : pos ≤ at_)
    (inDirty : w.InDirty id at_ byte) (same : out (at_ - pos) = byte) (index : Nat) :
    w.overlay id pos n out index (at_ - pos) = byte := by
  unfold overlay
  cases found : w.pages.lookup (id, index % U32) with
  | none => exact same
  | some p =>
    dsimp only
    split
    · rename_i isDirty
      dsimp only
      split
      · have here : index = at_ / PAGE := (Nat.div_eq_of_lt_le (by omega) (by rw [Nat.succ_mul]; omega)).symm
        subst here
        rw [Nat.mod_eq_of_lt (index_lt bound)] at found
        have offset : pos + (at_ - pos) - at_ / PAGE * PAGE = at_ % PAGE := by
          rw [Nat.mod_eq_sub_div_mul]
          omega
        rw [offset]
        exact inDirty p found isDirty
      · exact same
    · exact same

theorem nextRead_sees {r : Read} (bound : at_ < PAGE * U32) (above : pos ≤ at_) (below : at_ < pos + len)
    (inFile : w.InFile id at_ byte) (inDirty : w.InDirty id at_ byte) (sees : r.sees pos at_ byte) :
    (w.nextRead id pos len r).sees pos at_ byte := by
  cases r with
  | start =>
    have inside := inFile.inside
    have short : at_ - pos < min len ((w.files id).size - pos) := by omega
    refine ⟨by omega, ?_⟩
    dsimp only
    rw [if_pos short, Nat.add_sub_cancel' above]
    exact inFile.data
  | got n out =>
    simp only [World.nextRead]
    split <;> exact sees
  | overlay n out rest =>
    cases rest with
    | nil => exact sees
    | cons index rest => exact ⟨sees.1, overlay_sees bound above inDirty sees.2 index⟩
  | done n out => exact sees

theorem InPage.dirty (inPage : w.InPage id at_ byte) : w.InDirty id at_ byte :=
  fun p found _ => inPage p found

theorem Inv.not_pending {o : Op} (inv : w.Inv) (found : w.ops.lookup op = some o)
    (other : ∀ id at_, o.writes id at_ = false) (id at_ : Nat) : w.claim id at_ ≠ .pending op := by
  intro claimed
  obtain ⟨o', same, writes⟩ := inv.lone id at_ op claimed
  cases found.symm.trans same
  rw [other] at writes
  cases writes

theorem Inv.not_pending_free (inv : w.Inv) (free : w.ops.lookup op = none) (id at_ : Nat) :
    w.claim id at_ ≠ .pending op := by
  intro claimed
  obtain ⟨o', same, _⟩ := inv.lone id at_ op claimed
  cases free.symm.trans same

theorem Inv.nextRead (inv : w.Inv) {expect : Nat → Option Byte} {since : Nat → Nat} {stage : Read}
    (found : w.ops.lookup op = some (.read id pos len expect since stage)) :
    (w.put op (.read id pos len expect since (w.nextRead id pos len stage))).Inv := by
  refine inv.putPlain (fun at_ => ?_) (inv.not_pending found fun _ _ => rfl) rfl fun _ _ => rfl
  obtain ⟨older, sees⟩ := inv.fits op _ found at_
  refine ⟨older, fun byte expected current => ?_⟩
  obtain ⟨owed, sees⟩ := sees byte expected current
  obtain ⟨inFile, inPage⟩ := inv.owed id at_ byte owed
  have bound := inv.bound id at_ (by rw [owed]; exact Claim.noConfusion)
  exact ⟨owed, fun above below => nextRead_sees bound above below inFile inPage.dirty (sees above below)⟩

theorem take_bytes {p : Page} {index : Nat} (bound : pos + n ≤ PAGE * U32) (same : at_ / PAGE = index % U32) :
    (p.take index pos n buf).bytes (at_ % PAGE) =
      if p.dirty = true ∧ index = at_ / PAGE ∧ pos ≤ at_ ∧ at_ < pos + n then buf (at_ - pos)
      else p.bytes (at_ % PAGE) := by
  have parts : at_ / PAGE * PAGE + at_ % PAGE = at_ := Nat.div_add_mod' at_ PAGE
  have short : at_ % PAGE < PAGE := Nat.mod_lt _ (by decide)
  unfold Page.take
  split
  · rename_i isDirty
    by_cases hit : pos ≤ index * PAGE + at_ % PAGE ∧ index * PAGE + at_ % PAGE < pos + n
    · -- the byte is below 2 ^ 44, so its page's index was not cut
      have small : index < U32 := Nat.lt_of_mul_lt_mul_left (a := PAGE) (by rw [Nat.mul_comm PAGE index]; omega)
      rw [Nat.mod_eq_of_lt small] at same
      rw [← same, parts] at hit
      rw [if_pos ⟨isDirty, same.symm, hit⟩]
      simp only [short, true_and]
      rw [if_pos (by rw [← same, parts]; exact hit), ← same, parts]
    · have missed : ¬ (p.dirty = true ∧ index = at_ / PAGE ∧ pos ≤ at_ ∧ at_ < pos + n) := by
        rintro ⟨_, here, inside⟩
        rw [here, parts] at hit
        exact hit inside
      rw [if_neg missed]
      simp only [short, true_and]
      rw [if_neg hit]
  · rename_i isClean
    rw [if_neg (fun hit => isClean hit.1)]

theorem lookup_take {index : Nat} {key : Nat × Nat} {p' : Page}
    (found : (w.pages.adjust (id, index % U32) fun p => some (p.take index pos n buf)).lookup key = some p') :
    ∃ p, w.pages.lookup key = some p ∧ p'.dirty = p.dirty ∧
      (p' = p ∧ key ≠ (id, index % U32) ∨ p' = p.take index pos n buf ∧ key = (id, index % U32)) := by
  obtain ⟨rfl, p, before, ⟨⟩⟩ | ⟨here, found⟩ := Table.lookup_adjust_some found
  · refine ⟨p, before, ?_, .inr ⟨rfl, rfl⟩⟩
    unfold Page.take
    split <;> rfl
  · exact ⟨p', found, rfl, .inl ⟨rfl, here⟩⟩

theorem Inv.write_fits (inv : w.Inv) {stage : Write} (found : w.ops.lookup op = some (.write id pos len buf stage)) :
    (Op.write id pos len buf stage).Fits w op := inv.fits op _ found

theorem Inv.write_lone (inv : w.Inv) {stage stage' : Write}
    (found : w.ops.lookup op = some (.write id pos len buf stage)) (file at_ : Nat)
    (claimed : w.claim file at_ = .pending op) : (Op.write id pos len buf stage').writes file at_ = true := by
  obtain ⟨o, same, writes⟩ := inv.lone file at_ op claimed
  cases found.symm.trans same
  exact writes

theorem Inv.putWrite (inv : w.Inv) {stage stage' : Write}
    (found : w.ops.lookup op = some (.write id pos len buf stage)) (reached : stage.count = some n)
    (same : stage'.count = some n)
    (passed : ∀ at_, pos ≤ at_ → at_ < pos + n → w.claim id at_ = .pending op → stage'.passed (at_ / PAGE) →
      stage.passed (at_ / PAGE) ∨ w.InDirty id at_ (buf (at_ - pos))) :
    (w.put op (.write id pos len buf stage')).Inv := by
  obtain ⟨bound, short, fits⟩ := inv.write_fits found
  refine inv.put ⟨bound, ?_, ?_⟩ (inv.write_lone found) (fun _ _ _ copied => by cases copied) ?_
  · intro m counted
    cases same.symm.trans counted
    exact short n reached
  · intro at_ above below claimed
    obtain ⟨alone, placed⟩ := fits at_ above below claimed
    refine ⟨alone, fun m counted inside => ?_⟩
    cases same.symm.trans counted
    obtain ⟨inFile, inDirty⟩ := placed n reached inside
    refine ⟨inFile, fun now => ?_⟩
    rcases passed at_ above inside alone now with before | inDirty'
    · exact inDirty before
    · exact inDirty'
  · intro other o' foundOther file index copy copied
    have before := inv.apart other o' op _ foundOther found file index copy copied
    cases stage with
    | start => cases reached
    | through | copy | test | drop =>
      cases stage' with
      | start => rfl
      | through | copy | test | drop => exact before

theorem hasDirty_iff : w.hasDirty id = true ↔ ∃ index p, w.pages.lookup (id, index) = some p ∧ p.dirty = true := by
  rw [hasDirty, decide_eq_true_eq, Table.count_pos_iff]
  constructor
  · rintro ⟨⟨file, index⟩, p, found, picked⟩
    obtain ⟨same, dirty⟩ := Bool.and_eq_true _ _ ▸ picked
    cases beq_iff_eq.mp same
    exact ⟨index, p, found, dirty⟩
  · rintro ⟨index, p, found, dirty⟩
    exact ⟨(id, index), p, found, by simp [dirty]⟩

theorem Inv.through (inv : w.Inv) (found : w.ops.lookup op = some (.write id pos len buf (.through n))) :
    (w.put op (.write id pos len buf (if w.goesOver id pos n then .copy n (touched pos n) else .test n))).Inv := by
  obtain ⟨bound, short, _⟩ := inv.write_fits found
  have short := short n rfl
  split
  · refine inv.putWrite found rfl rfl fun at_ above below _ passed => ?_
    exact absurd (mem_touched above below) passed
  rename_i missing
  refine inv.putWrite found rfl rfl fun at_ above below _ _ => .inr fun p here dirty => ?_
  have whole : pos + n ≤ USIZE_MAX := Nat.le_trans (by omega) (show PAGE * U32 ≤ USIZE_MAX by decide)
  refine absurd ?_ missing
  simp only [goesOver, Bool.and_eq_true, decide_eq_true_eq]
  exact ⟨⟨by omega, whole⟩, hasDirty_iff.mpr ⟨_, p, here, dirty⟩⟩

theorem Inv.copy (inv : w.Inv) {index : Nat} {rest : List Nat}
    (found : w.ops.lookup op = some (.write id pos len buf (.copy n (index :: rest)))) :
    ((w.setPages (w.pages.adjust (id, index % U32) fun p => some (p.take index pos n buf))).put op
      (.write id pos len buf (.copy n rest))).Inv := by
  obtain ⟨bound, short, fits⟩ := inv.write_fits found
  have whole : pos + n ≤ PAGE * U32 := by
    have short := short n rfl
    omega
  -- a byte of another claim is outside the range, so the page keeps it
  have stays {file at_ : Nat} (other : w.claim file at_ ≠ .unknown) (notOurs : w.claim file at_ ≠ .pending op)
      {p' : Page} (foundPage : (w.pages.adjust (id, index % U32) fun p => some (p.take index pos n buf)).lookup
        (file, at_ / PAGE) = some p') :
      ∃ p, w.pages.lookup (file, at_ / PAGE) = some p ∧ p'.dirty = p.dirty ∧
        p'.bytes (at_ % PAGE) = p.bytes (at_ % PAGE) := by
    obtain ⟨p, before, dirty, ⟨rfl, _⟩ | ⟨rfl, key⟩⟩ := lookup_take foundPage
    · exact ⟨p', before, dirty, rfl⟩
    cases (Prod.mk.inj key).1
    refine ⟨p, before, dirty, ?_⟩
    rw [take_bytes whole (Prod.mk.inj key).2, if_neg]
    rintro ⟨_, _, above, below⟩
    exact notOurs (fits at_ above (by have short := short n rfl; omega) other).1
  refine inv.modifyPut rfl ⟨rfl, rfl, le_rfl, fun _ _ _ _ inFile => ⟨inFile.inside, inFile.data⟩, ?_, ?_⟩ ?_
    (inv.write_lone found)
    (fun _ _ _ copied => by cases copied) ?_
  · intro file at_ byte owed inPage p' foundPage
    obtain ⟨p, before, _, same⟩ := stays (by rw [owed]; exact Claim.noConfusion)
      (by rw [owed]; exact Claim.noConfusion) foundPage
    rw [same]
    exact inPage p before
  · intro file at_ byte writer o differs _ alone _ inDirty p' foundPage isDirty
    obtain ⟨p, before, dirty, same⟩ := stays (by rw [alone]; exact Claim.noConfusion)
      (by rw [alone]; exact fun equal => differs (Claim.pending.inj equal)) foundPage
    rw [same]
    exact inDirty p before (dirty ▸ isDirty)
  · refine ⟨bound, short, fun at_ above below claimed => ?_⟩
    obtain ⟨alone, placed⟩ := fits at_ above below claimed
    refine ⟨alone, fun m counted inside => ?_⟩
    cases counted
    obtain ⟨inFile, inDirty⟩ := placed n rfl inside
    refine ⟨⟨inFile.inside, inFile.data⟩, fun passed p' foundPage isDirty => ?_⟩
    obtain ⟨p, before, dirty, ⟨rfl, apart⟩ | ⟨rfl, key⟩⟩ := lookup_take foundPage
    · refine inDirty ?_ p' before isDirty
      intro member
      rcases List.mem_cons.mp member with same | later
      · have small := index_lt (inv.bound id at_ claimed)
        rw [same] at small apart
        rw [Nat.mod_eq_of_lt small] at apart
        exact apart rfl
      · exact passed later
    · rw [take_bytes whole (Prod.mk.inj key).2]
      split
      · rfl
      rename_i missed
      refine inDirty ?_ p before (dirty ▸ isDirty)
      intro member
      rcases List.mem_cons.mp member with same | later
      · exact missed ⟨dirty ▸ isDirty, same.symm, above, inside⟩
      · exact passed later
  · intro other o foundOther file index copy copied
    exact inv.apart other o op _ foundOther found file index copy copied

end Myos.Fs.PageCache.World
