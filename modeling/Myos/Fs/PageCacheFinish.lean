import Myos.Fs.PageCacheSteps

namespace Myos.Fs.PageCache.World
open Lib

variable {w w' : World} {id at_ op pos len n : Nat} {byte : Byte} {buf : Nat → Byte}

theorem Inv.start (inv : w.Inv) {count : Nat} (found : w.ops.lookup op = some (.write id pos len buf .start))
    (short : count ≤ len) (uncopied : w.ops.count (fun _ o => o.copies id pos len) = 0) :
    ((w.setFile id ((w.files id).write pos count buf)).put op (.write id pos len buf (.through count))).Inv := by
  obtain ⟨bound, _, fits⟩ := inv.write_fits found
  refine inv.modifyPut rfl ⟨rfl, rfl, le_rfl, ?_, fun _ _ _ _ inPage => inPage,
    fun _ _ _ _ _ _ _ _ _ inDirty => inDirty⟩ ?_ (inv.write_lone found) (fun _ _ _ copied => by cases copied) ?_
  · intro file at_ byte claimed inFile
    have outside : id = file → ¬ (pos ≤ at_ ∧ at_ < pos + count) := by
      intro same inside
      subst same
      have ours := fits at_ inside.1 (by omega)
      rcases claimed with owed | ⟨writer, o, differs, _, alone, _⟩
      · rw [owed] at ours
        exact Claim.noConfusion (ours Claim.noConfusion).1
      · rw [alone] at ours
        exact differs (Claim.pending.inj (ours Claim.noConfusion).1)
    have written : (w.setFile id ((w.files id).write pos count buf)).InFile file at_ byte :=
      inFile.write_of_outside outside
    exact ⟨written.inside, written.data⟩
  · refine ⟨bound, fun m counted => ?_, fun at_ above below claimed => ?_⟩
    · cases counted
      exact short
    refine ⟨(fits at_ above below claimed).1, fun m counted inside => ?_⟩
    cases counted
    have written : (w.setFile id ((w.files id).write pos count buf)).InFile id at_ (buf (at_ - pos)) :=
      inFile_write above inside
    exact ⟨⟨written.inside, written.data⟩, fun passed => passed.elim⟩
  · intro other o foundOther file index copy copied
    have apart := Table.count_eq_zero_iff.mp uncopied other o foundOther
    rw [Op.copies, copied] at apart
    have flip : (id == file) = (file == id) := Bool.beq_comm
    change (id == file && decide (pos < index * PAGE + PAGE ∧ index * PAGE < pos + len)) = false
    rw [flip]
    exact apart

theorem Inv.finish (inv : w.Inv) {stage : Write} (found : w.ops.lookup op = some (.write id pos len buf stage))
    (reached : stage.count = some n) (passed : ∀ index, stage.passed index)
    (dirty : ∀ index p, w.pages.lookup (id, index) = some p → p.dirty = true)
    (unread : ∀ other page shared dirty seen r, w.ops.lookup other = some (.map id page shared dirty (.reading seen r)) →
      seen ≠ w.changes) : (w.finish op id pos n buf).Inv := by
  obtain ⟨_, _, fits⟩ := inv.write_fits found
  have kept {file at_ : Nat} (other : w.claim file at_ ≠ .pending op) :
      (w.finish op id pos n buf).claim file at_ = w.claim file at_ := if_neg (fun both => other both.2)
  -- a byte is owed now because it was before, or because this write owes it
  have owes {file at_ : Nat} {byte : Byte} (owed : (w.finish op id pos n buf).claim file at_ = .owed byte) :
      w.claim file at_ = .owed byte ∨ file = id ∧ pos ≤ at_ ∧ at_ < pos + len ∧ w.claim id at_ = .pending op ∧
        w.InFile id at_ byte ∧ w.InDirty id at_ byte := by
    by_cases ours : w.claim file at_ = .pending op
    · have writes : (Op.write id pos len buf .start).writes file at_ = true := inv.write_lone found file at_ ours
      simp only [Op.writes, Bool.and_eq_true, beq_iff_eq, decide_eq_true_eq] at writes
      obtain ⟨rfl, above, below⟩ := writes
      have now : (w.finish op id pos n buf).claim id at_ = if at_ < pos + n then .owed (buf (at_ - pos)) else .unknown :=
        if_pos ⟨rfl, ours⟩
      rw [now] at owed
      split at owed <;> cases owed
      rename_i inside
      obtain ⟨inFile, inDirty⟩ := (fits at_ above below (by rw [ours]; exact Claim.noConfusion)).2 n reached inside
      exact .inr ⟨rfl, above, below, ours, inFile, inDirty (passed _)⟩
    · rw [kept ours] at owed
      exact .inl owed
  have claims {file at_ : Nat} (claimed : (w.finish op id pos n buf).claim file at_ ≠ .unknown) :
      w.claim file at_ ≠ .unknown := by
    intro before
    rw [kept (by rw [before]; exact Claim.noConfusion)] at claimed
    exact claimed before
  have erased {other : Nat} {o : Op} (foundOther : (w.finish op id pos n buf).ops.lookup other = some o) :
      other ≠ op ∧ w.ops.lookup other = some o := Table.lookup_erase_some foundOther
  refine ⟨fun file at_ claimed => inv.bound file at_ (claims claimed), ?_, ?_, ?_, ?_⟩
  · intro file at_ byte owed
    rcases owes owed with before | ⟨rfl, _, _, _, inFile, inDirty⟩
    · obtain ⟨inFile, inPage⟩ := inv.owed file at_ byte before
      exact ⟨⟨inFile.inside, inFile.data⟩, inPage⟩
    · exact ⟨⟨inFile.inside, inFile.data⟩, fun p here => inDirty p here (dirty _ p here)⟩
  · intro file at_ writer claimed
    by_cases ours : w.claim file at_ = .pending op
    · have now : (w.finish op id pos n buf).claim file at_ =
          if file = id ∧ w.claim file at_ = .pending op then
            if at_ < pos + n then .owed (buf (at_ - pos)) else .unknown
          else w.claim file at_ := rfl
      have same : (Op.write id pos len buf .start).writes file at_ = true := inv.write_lone found file at_ ours
      simp only [Op.writes, Bool.and_eq_true, beq_iff_eq] at same
      rw [now, if_pos ⟨same.1.symm, ours⟩] at claimed
      split at claimed <;> cases claimed
    · rw [kept ours] at claimed
      obtain ⟨o, foundWriter, writes⟩ := inv.lone file at_ writer claimed
      have differs : writer ≠ op := fun same => ours (same ▸ claimed)
      exact ⟨o, (AList.lookup_erase_ne differs).trans foundWriter, writes⟩
  · intro other o stays
    obtain ⟨differs, foundOther⟩ := erased stays
    have before := inv.fits other o foundOther
    cases o with
    | write file pos' len' buf' stage' =>
      refine ⟨before.1, before.2.1, fun at_ above below claimed => ?_⟩
      obtain ⟨alone, placed⟩ := before.2.2 at_ above below (claims claimed)
      have notOurs : w.claim file at_ ≠ .pending op := by
        rw [alone]
        exact fun same => differs (Claim.pending.inj same)
      rw [kept notOurs]
      refine ⟨alone, fun m counted inside => ?_⟩
      obtain ⟨inFile, inDirty⟩ := placed m counted inside
      exact ⟨⟨inFile.inside, inFile.data⟩, inDirty⟩
    | read file pos' len' expect since stage' =>
      intro at_
      refine ⟨(before at_).1, fun byte expected current => ?_⟩
      obtain ⟨owed, sees⟩ := (before at_).2 byte expected current
      rw [kept (by rw [owed]; exact Claim.noConfusion)]
      exact ⟨owed, sees⟩
    | back file unmapped stage' =>
      -- what this write owes is on no page that a write-back has copied
      have was {index : Nat} {copy : Nat → Byte} (copied : (Op.back file unmapped stage').copy? = some (file, index, copy))
          {at_ : Nat} {byte : Byte} (owed : (w.finish op id pos n buf).claim file at_ = .owed byte)
          (here : at_ / PAGE = index) : w.claim file at_ = .owed byte := by
        rcases owes owed with was | ⟨rfl, above, below, _, _, _⟩
        · exact was
        · have settled := inv.apart other _ op _ foundOther found file index copy copied
          rw [← here, unsettled_of_writes reached above below] at settled
          cases settled
      cases stage' with
      | pick first => trivial
      | copied index copy => exact fun at_ byte owed here => before at_ byte (was rfl owed here) here
      | sized index copy count =>
        exact ⟨before.1, fun at_ byte owed here => before.2 at_ byte (was rfl owed here) here⟩
    | map file page shared isDirty stage' =>
      refine ⟨before.1, fun seen r same => ?_⟩
      obtain ⟨older, sees⟩ := before.2 seen r same
      refine ⟨older, fun current at_ byte owed => ?_⟩
      rcases owes owed with was | ⟨rfl, _⟩
      · exact sees current at_ byte was
      · subst same
        exact absurd current (unread other page shared isDirty seen r foundOther)
  · intro copier o writer o' foundCopier foundWriter
    exact inv.apart copier o writer o' (erased foundCopier).2 (erased foundWriter).2

theorem Inv.test (inv : w.Inv) (found : w.ops.lookup op = some (.write id pos len buf (.test n)))
    (unused : (w.hasPages id || w.isReading id) = false) : (w.finish op id pos n buf).Inv := by
  obtain ⟨noPages, notRead⟩ := Bool.or_eq_false_iff.mp unused
  have noPages := Table.count_eq_zero_iff.mp (Nat.eq_zero_of_not_pos (of_decide_eq_false noPages))
  have notRead := Table.count_eq_zero_iff.mp (Nat.eq_zero_of_not_pos (of_decide_eq_false notRead))
  refine inv.finish found rfl (fun _ => trivial) (fun index p here => ?_) ?_
  · have missing := noPages _ p here
    simp at missing
  · intro other page shared dirty seen r foundOther
    have noneLeft := notRead _ _ foundOther
    simp [Op.reads] at noneLeft

theorem Inv.drop (inv : w.Inv) (found : w.ops.lookup op = some (.write id pos len buf (.drop n))) :
    (World.finish { w.setPages (w.pages.sift fun key p => key.1 != id || p.dirty) with changes := w.changes + 1 }
      op id pos n buf).Inv := by
  have sifted : (w.setPages (w.pages.sift fun key p => key.1 != id || p.dirty)).Inv := by
    refine inv.quietPages fun file index p here => ?_
    exact ⟨p, (Table.lookup_sift.mp here).1, rfl, .inl⟩
  have bumped : World.Inv { w.setPages (w.pages.sift fun key p => key.1 != id || p.dirty) with changes := w.changes + 1 } := by
    refine ⟨sifted.bound, fun file at_ byte owed => ?_, sifted.lone, fun other o foundOther => ?_, sifted.apart⟩
    · obtain ⟨inFile, inPage⟩ := sifted.owed file at_ byte owed
      exact ⟨⟨inFile.inside, inFile.data⟩, inPage⟩
    · exact (sifted.fits other o foundOther).mono rfl rfl (Nat.le_succ _)
        (fun _ _ _ _ _ inFile => ⟨inFile.inside, inFile.data⟩) (fun _ _ _ _ _ inDirty => inDirty)
  refine bumped.finish found rfl (fun _ => trivial) ?_ ?_
  · intro index p here
    simpa using (Table.lookup_sift.mp here).2
  · intro other page shared dirty seen r foundOther
    have older := ((inv.fits other _ foundOther).2 seen r rfl).1
    exact Nat.ne_of_lt (Nat.lt_succ_of_le older)

end Myos.Fs.PageCache.World
