import Myos.Fs.PageCacheFinish

namespace Myos.Fs.PageCache.World
open Lib

variable {w w' : World} {id at_ op pos len n : Nat} {byte : Byte} {buf : Nat → Byte}

variable {count : Nat} {hit : Nat → Bool} {claim : Nat → Claim}

theorem Inv.nextWrite (inv : w.Inv) {stage : Write}
    (found : w.ops.lookup op = some (.write id pos len buf stage)) (met : w.meets (.next op count) = true)
    (stepped : w.nextWrite op id pos len buf count stage = some w') : w'.Inv := by
  cases stage with
  | start =>
    simp only [World.nextWrite] at stepped
    split at stepped <;> cases stepped
    rename_i short
    simp only [meets, found, beq_iff_eq] at met
    exact inv.start found short met
  | through n =>
    cases stepped
    exact inv.through found
  | copy n rest =>
    cases rest with
    | nil =>
      cases stepped
      exact inv.putWrite found rfl rfl fun _ _ _ _ _ => .inl List.not_mem_nil
    | cons index rest =>
      cases stepped
      exact inv.copy found
  | test n =>
    simp only [World.nextWrite] at stepped
    split at stepped
    · cases stepped
      exact inv.putWrite found rfl rfl fun _ _ _ _ passed => .inl passed
    · rename_i unused
      cases stepped
      exact inv.test found (Bool.eq_false_iff.mpr unused)
  | drop n =>
    cases stepped
    exact inv.drop found

theorem nextDirty_found {first index : Nat} {unmapped : Bool} (found : w.nextDirty id first unmapped = some index) :
    ∃ p, w.pages.lookup (id, index) = some p ∧ p.dirty = true := by
  have member := List.min?_mem found
  obtain ⟨⟨file, _⟩, kept, rfl⟩ := List.mem_map.mp member
  have picked := (List.mem_filter.mp kept).2
  simp only [Bool.and_eq_true, beq_iff_eq] at picked
  obtain ⟨⟨rfl, _⟩, wanted⟩ := picked
  obtain ⟨p, found, wanted⟩ := (Option.any_eq_true _ _).mp wanted
  exact ⟨p, found, (Bool.and_eq_true _ _ ▸ wanted).1⟩

theorem Inv.nextBack (inv : w.Inv) {unmapped : Bool} {stage : Back}
    (found : w.ops.lookup op = some (.back id unmapped stage)) (met : w.meets (.next op count) = true)
    (stepped : w.nextBack op id unmapped count stage = some w') : w'.Inv := by
  have notOurs := inv.not_pending found fun _ _ => rfl
  cases stage with
  | pick first =>
    simp only [World.nextBack] at stepped
    simp only [meets, found] at met
    cases picked : w.nextDirty id first unmapped with
    | none =>
      rw [picked] at stepped
      cases stepped
      exact inv.gone notOurs
    | some index =>
      obtain ⟨p, foundPage, _⟩ := nextDirty_found picked
      rw [picked, Option.all_some] at met
      simp only [picked, foundPage] at stepped
      cases stepped
      have cleaned : (w.setPages (w.pages.insert (id, index) { p with dirty := p.dirty && p.maps != 0 })).Inv :=
        inv.insertPage foundPage rfl fun dirty => .inl (Bool.and_eq_true _ _ ▸ dirty).1
      refine cleaned.put ?_ (fun file at_ claimed => absurd claimed (notOurs file at_)) ?_
        (fun _ _ _ _ _ _ _ => rfl)
      · intro at_ byte owed here
        refine (inv.owed id at_ byte owed).2 p ?_
        rw [here]
        exact foundPage
      · intro file index' copy copied
        cases copied
        exact calm_iff.mp met
  | copied index copy =>
    cases stepped
    have fits := inv.fits op _ found
    refine inv.put ?_ (fun file at_ claimed => absurd claimed (notOurs file at_)) ?_ (fun _ _ _ _ _ _ _ => rfl)
    · split
      · exact ⟨Nat.min_le_right _ _, fits⟩
      · trivial
    · intro file index' copy' copied writer o' foundWriter
      split at copied <;> cases copied
      exact inv.apart op _ writer o' found foundWriter id index copy rfl
  | sized index copy most =>
    simp only [World.nextBack] at stepped
    split at stepped <;> cases stepped
    have fits := inv.fits op _ found
    refine inv.modifyPut rfl ⟨rfl, rfl, le_rfl, fun file at_ byte claimed inFile => ?_,
      fun _ _ _ _ inPage => inPage, fun _ _ _ _ _ _ _ _ _ inDirty => inDirty⟩ trivial
        (fun file at_ claimed => absurd claimed (notOurs file at_))
      (fun _ _ _ copied => by cases copied) fun _ _ _ _ _ _ _ => rfl
    suffices written : (w.setFile id ((w.files id).write (index * PAGE) count copy)).InFile file at_ byte from
      ⟨written.inside, written.data⟩
    by_cases hit : id = file ∧ index * PAGE ≤ at_ ∧ at_ < index * PAGE + count
    · obtain ⟨rfl, above, below⟩ := hit
      have page : at_ / PAGE = index :=
        Nat.div_eq_of_lt_le above (by rw [Nat.succ_mul]; have small := fits.1; omega)
      rcases claimed with owed | ⟨writer, o, _, foundWriter, _, busy⟩
      · have same := fits.2 at_ byte owed page
        rw [Nat.mod_eq_sub_div_mul, page] at same
        rw [← same]
        exact inFile_write above below
      · rw [page, inv.apart op _ writer o found foundWriter id index copy rfl] at busy
        cases busy
    · exact inFile.write_of_outside fun same inside => hit ⟨same, inside⟩

theorem Inv.nextMap (inv : w.Inv) {page : Nat} {shared dirty : Bool} {stage : Map}
    (found : w.ops.lookup op = some (.map id page shared dirty stage)) (met : w.meets (.next op count) = true) :
    (w.nextMap op id page shared dirty stage).Inv := by
  have notOurs := inv.not_pending found fun _ _ => rfl
  obtain ⟨small, fits⟩ := inv.fits op _ found
  have index : page % U32 = page := Nat.mod_eq_of_lt small
  have put {stage' : Map} (fits : (Op.map id page shared dirty stage').Fits w op) :
      (w.put op (.map id page shared dirty stage')).Inv := inv.putPlain fits notOurs rfl fun _ _ => rfl
  -- the cached page is mapped once more
  have mapped {p : Page} (foundPage : w.pages.lookup (id, page % U32) = some p)
      (calm : (!dirty || w.calm id page) = true) :
      ((w.setPages (w.pages.insert (id, page % U32) (p.map dirty))).gone op).Inv := by
    have inserted : (w.setPages (w.pages.insert (id, page % U32) (p.map dirty))).Inv := by
      refine inv.insertPage foundPage rfl fun isDirty => ?_
      rw [index]
      cases dirty with
      | false => exact .inl (by simpa [Page.map] using isDirty)
      | true => exact .inr (by simpa using calm)
    exact inserted.gone notOurs
  cases stage with
  | look =>
    simp only [meets, found] at met
    unfold World.nextMap
    cases foundPage : w.pages.lookup (id, page % U32) with
    | some p => exact mapped foundPage met
    | none => exact put ⟨small, fun _ _ same => by cases same⟩
  | count =>
    refine put ⟨small, fun seen r same => ?_⟩
    cases same
    exact ⟨le_rfl, fun _ _ _ _ _ => trivial⟩
  | reading seen r =>
    obtain ⟨older, sees⟩ := fits seen r rfl
    have read (r' : Read) (next : r' = w.nextRead id (page * PAGE) PAGE r) :
        (w.put op (.map id page shared dirty (.reading seen r'))).Inv := by
      refine put ⟨small, fun _ _ same => ?_⟩
      cases same
      refine ⟨older, fun current at_ byte owed here => ?_⟩
      obtain ⟨inFile, inPage⟩ := inv.owed id at_ byte owed
      have bound := inv.bound id at_ (by rw [owed]; exact Claim.noConfusion)
      have above : page * PAGE ≤ at_ := here ▸ Nat.div_mul_le_self at_ PAGE
      have below : at_ < page * PAGE + PAGE := here ▸ Nat.lt_div_mul_add (by decide)
      rw [next]
      exact nextRead_sees bound above below inFile inPage.dirty (sees current at_ byte owed here)
    cases r with
    | start | got | overlay => exact read _ rfl
    | done n out =>
      simp only [meets, found] at met
      simp only [World.nextMap]
      split
      · split
        · exact put ⟨small, fun _ _ same => by cases same⟩
        · exact inv.gone notOurs
      rename_i current
      have current : seen = w.changes := (Decidable.not_not.mp current).symm
      cases foundPage : w.pages.lookup (id, page % U32) with
      | some p => exact mapped foundPage met
      | none =>
        have kept : (w.setPages (w.pages.insert (id, page % U32) ⟨out, 1, dirty⟩)).Inv := by
          rw [index]
          refine inv.setPages ?_ ?_
          · intro file at_ byte owed inPage p' foundNew
            obtain ⟨key, rfl⟩ | ⟨_, before⟩ := Table.lookup_insert_some foundNew
            · obtain ⟨rfl, here⟩ := Prod.mk.inj key
              rw [Nat.mod_eq_sub_div_mul, here]
              exact (sees current at_ byte owed here).2
            · exact inPage p' before
          intro file at_ byte writer o foundWriter _ busy inDirty p' foundNew isDirty
          obtain ⟨key, rfl⟩ | ⟨_, before⟩ := Table.lookup_insert_some foundNew
          · obtain ⟨rfl, here⟩ := Prod.mk.inj key
            have isDirty : dirty = true := isDirty
            rw [isDirty] at met
            rw [here, calm_iff.mp met writer o foundWriter] at busy
            cases busy
          · exact inDirty p' before isDirty
        exact kept.gone notOurs

theorem Inv.next (inv : w.Inv) (met : w.meets (.next op count) = true)
    (stepped : w.next op count = some w') : w'.Inv := by
  unfold World.next at stepped
  cases found : w.ops.lookup op with
  | none =>
    rw [found] at stepped
    cases stepped
  | some o =>
    rw [found] at stepped
    cases o with
    | write id pos len buf stage => exact inv.nextWrite found met stepped
    | read id pos len expect since stage =>
      cases stepped
      exact inv.nextRead found
    | back id unmapped stage => exact inv.nextBack found met stepped
    | map id page shared dirty stage =>
      cases stepped
      exact inv.nextMap found met

theorem disturb_claim {file : Nat}
    (missed : ¬ (file = id ∧ hit at_ = true)) : (w.disturb id hit claim).claim file at_ = w.claim file at_ :=
  if_neg missed

theorem disturb_owed {file : Nat} (missing : ∀ at_ byte, claim at_ ≠ .owed byte)
    (owed : (w.disturb id hit claim).claim file at_ = .owed byte) :
    ¬ (file = id ∧ hit at_ = true) ∧ w.claim file at_ = .owed byte := by
  by_cases missed : file = id ∧ hit at_ = true
  · have now : (w.disturb id hit claim).claim file at_ = claim at_ := if_pos missed
    exact absurd (now.symm.trans owed) (missing at_ byte)
  · exact ⟨missed, (disturb_claim missed).symm.trans owed⟩

theorem Fits.disturb {o : Op} {other : Nat} (fits : o.Fits w other)
    (missing : ∀ at_ byte, claim at_ ≠ .owed byte)
    (alone : ∀ at_, hit at_ = true → o.writes id at_ = true → claim at_ = .unknown) :
    o.Fits (w.disturb id hit claim) other := by
  cases o with
  | write file pos len buf stage =>
    refine ⟨fits.1, fits.2.1, fun at_ above below claimed => ?_⟩
    by_cases missed : file = id ∧ hit at_ = true
    · have now : (w.disturb id hit claim).claim file at_ = claim at_ := if_pos missed
      refine absurd (now.trans (alone at_ missed.2 ?_)) claimed
      simp only [Op.writes, Bool.and_eq_true, beq_iff_eq, decide_eq_true_eq]
      exact ⟨missed.1, above, below⟩
    rw [disturb_claim missed] at claimed ⊢
    obtain ⟨alone, placed⟩ := fits.2.2 at_ above below claimed
    refine ⟨alone, fun n counted inside => ?_⟩
    obtain ⟨inFile, inDirty⟩ := placed n counted inside
    exact ⟨⟨inFile.inside, inFile.data⟩, inDirty⟩
  | read file pos len expect since stage =>
    intro at_
    obtain ⟨older, sees⟩ := fits at_
    by_cases missed : file = id ∧ hit at_ = true
    · have now : (w.disturb id hit claim).version file at_ = w.version file at_ + 1 := if_pos missed
      rw [now]
      exact ⟨by omega, fun byte _ current => by omega⟩
    · have now : (w.disturb id hit claim).version file at_ = w.version file at_ := if_neg missed
      rw [now, disturb_claim missed]
      exact ⟨older, sees⟩
  | back file unmapped stage =>
    cases stage with
    | pick first => trivial
    | copied index copy => exact fun at_ byte owed => fits at_ byte (disturb_owed missing owed).2
    | sized index copy count => exact ⟨fits.1, fun at_ byte owed => fits.2 at_ byte (disturb_owed missing owed).2⟩
  | map file page shared dirty stage =>
    refine ⟨fits.1, fun seen r same => ?_⟩
    obtain ⟨older, sees⟩ := fits.2 seen r same
    exact ⟨older, fun current at_ byte owed => sees current at_ byte (disturb_owed missing owed).2⟩

theorem Inv.disturb (inv : w.Inv) (hit : Nat → Bool) : (w.disturb id hit fun _ => .unknown).Inv where
  bound := by
    intro file at_ claimed
    refine inv.bound file at_ fun before => claimed ?_
    change (if _ then _ else _) = _
    split
    · rfl
    · exact before
  owed := by
    intro file at_ byte owed
    obtain ⟨inFile, inPage⟩ := inv.owed file at_ byte (disturb_owed (fun _ _ => Claim.noConfusion) owed).2
    exact ⟨⟨inFile.inside, inFile.data⟩, inPage⟩
  lone := by
    intro file at_ op claimed
    by_cases missed : file = id ∧ hit at_ = true
    · have now : (w.disturb id hit fun _ => .unknown).claim file at_ = .unknown := if_pos missed
      cases now.symm.trans claimed
    · exact inv.lone file at_ op ((disturb_claim missed).symm.trans claimed)
  fits := fun other o found =>
    Fits.disturb (inv.fits other o found) (fun _ _ => Claim.noConfusion) fun _ _ _ => rfl
  apart := inv.apart

theorem Inv.store (inv : w.Inv) {index off : Nat} (stepped : w.store id index off byte = some w') : w'.Inv := by
  unfold World.store at stepped
  cases found : w.pages.lookup (id, index) with
  | none =>
    rw [found] at stepped
    cases stepped
  | some p =>
    simp only [found] at stepped
    split at stepped <;> cases stepped
    -- the byte stored has no claim any more, so the page's other bytes are what counts
    have forgotten : (w.disturb id (· == index * PAGE + off) fun _ => .unknown).Inv := inv.disturb _
    have other {file at_ : Nat} {p' : Page}
        (claimed : (w.disturb id (· == index * PAGE + off) fun _ => .unknown).claim file at_ ≠ .unknown)
        (foundNew : (w.pages.insert (id, index) { p with bytes := Function.update p.bytes off byte }).lookup
          (file, at_ / PAGE) = some p') :
        ∃ q, w.pages.lookup (file, at_ / PAGE) = some q ∧ q.dirty = p'.dirty ∧
          p'.bytes (at_ % PAGE) = q.bytes (at_ % PAGE) := by
      obtain ⟨key, rfl⟩ | ⟨_, before⟩ := Table.lookup_insert_some foundNew
      · obtain ⟨rfl, here⟩ := Prod.mk.inj key
        refine ⟨p, here ▸ found, rfl, Function.update_of_ne ?_ _ _⟩
        intro same
        refine claimed (if_pos ⟨rfl, beq_iff_eq.mpr ?_⟩)
        rw [← here, ← same]
        exact (Nat.div_add_mod' at_ PAGE).symm
      · exact ⟨p', before, rfl, rfl⟩
    refine forgotten.setPages ?_ ?_
    · intro file at_ byte' owed inPage p' foundNew
      obtain ⟨q, before, _, same⟩ := other (by rw [owed]; exact Claim.noConfusion) foundNew
      rw [same]
      exact inPage q before
    · intro file at_ byte' writer o _ alone _ inDirty p' foundNew isDirty
      obtain ⟨q, before, dirty, same⟩ := other (by rw [alone]; exact Claim.noConfusion) foundNew
      rw [same]
      exact inDirty q before (dirty.trans isDirty)

theorem Inv.write (inv : w.Inv) (free : w.ops.lookup op = none) (bound : pos + len ≤ PAGE * U32) :
    ((w.disturb id (fun at_ => decide (pos ≤ at_ ∧ at_ < pos + len)) fun at_ =>
      if w.contended id at_ then .unknown else .pending op).put op (.write id pos len buf .start)).Inv := by
  generalize range : (fun at_ => decide (pos ≤ at_ ∧ at_ < pos + len)) = hit
  generalize new : (fun at_ => if w.contended id at_ then Claim.unknown else .pending op) = claim
  have missing (at_ : Nat) (byte : Byte) : claim at_ ≠ .owed byte := by
    rw [← new]
    dsimp only
    split <;> exact Claim.noConfusion
  have here : ((w.disturb id hit claim).put op (.write id pos len buf .start)).ops.lookup op =
      some (.write id pos len buf .start) := AList.lookup_insert _
  have there {other : Nat} {o : Op} (differs : other ≠ op)
      (found : ((w.disturb id hit claim).put op (.write id pos len buf .start)).ops.lookup other = some o) :
      w.ops.lookup other = some o := (AList.lookup_insert_ne differs).symm.trans found
  have inRange {at_ : Nat} (isHit : hit at_ = true) : pos ≤ at_ ∧ at_ < pos + len := by
    rw [← range] at isHit
    exact of_decide_eq_true isHit
  refine ⟨?_, ?_, ?_, ?_, ?_⟩
  · intro file at_ claimed
    by_cases missed : file = id ∧ hit at_ = true
    · have inside := inRange missed.2
      omega
    · exact inv.bound file at_ fun before => claimed ((disturb_claim missed).trans before)
  · intro file at_ byte owed
    obtain ⟨inFile, inPage⟩ := inv.owed file at_ byte (disturb_owed missing owed).2
    exact ⟨⟨inFile.inside, inFile.data⟩, inPage⟩
  · intro file at_ writer claimed
    by_cases missed : file = id ∧ hit at_ = true
    · have now : (w.disturb id hit claim).claim file at_ = claim at_ := if_pos missed
      have ours : claim at_ = .pending writer := now.symm.trans claimed
      rw [← new] at ours
      dsimp only at ours
      split at ours
      · cases ours
      cases ours
      refine ⟨_, here, ?_⟩
      simp only [Op.writes, Bool.and_eq_true, beq_iff_eq, decide_eq_true_eq]
      exact ⟨missed.1.symm, inRange missed.2⟩
    · have before : w.claim file at_ = .pending writer := (disturb_claim missed).symm.trans claimed
      obtain ⟨o, found, writes⟩ := inv.lone file at_ writer before
      have differs : writer ≠ op := fun same => inv.not_pending_free free file at_ (same ▸ before)
      exact ⟨o, (AList.lookup_insert_ne differs).trans found, writes⟩
  · intro other o found
    by_cases same : other = op
    · subst same
      cases here.symm.trans found
      refine ⟨bound, fun _ counted => (by cases counted), fun at_ above below claimed => ?_⟩
      refine ⟨?_, fun _ counted => (by cases counted)⟩
      have now : (w.disturb id hit claim).claim id at_ = claim at_ :=
        if_pos ⟨rfl, by rw [← range]; exact decide_eq_true ⟨above, below⟩⟩
      change (w.disturb id hit claim).claim id at_ ≠ _ at claimed
      change (w.disturb id hit claim).claim id at_ = _
      rw [now, ← new] at claimed ⊢
      dsimp only at claimed ⊢
      split at claimed
      · exact absurd rfl claimed
      · rename_i free
        rw [if_neg free]
    · have before := there same found
      have disturbed : o.Fits (w.disturb id hit claim) other := by
        refine Fits.disturb (inv.fits other o before) missing fun at_ _ writes => ?_
        rw [← new]
        exact if_pos (decide_eq_true (Table.count_pos_iff.mpr ⟨other, o, before, writes⟩))
      exact disturbed.mono rfl rfl le_rfl (fun _ _ _ _ _ inFile => ⟨inFile.inside, inFile.data⟩)
        (fun _ _ _ _ _ inDirty => inDirty)
  · intro copier o writer o' foundCopier foundWriter file index copy copied
    by_cases same : writer = op
    · subst same
      cases here.symm.trans foundWriter
      rfl
    by_cases same' : copier = op
    · subst same'
      cases here.symm.trans foundCopier
      cases copied
    · exact inv.apart copier o writer o' (there same' foundCopier) (there same foundWriter) file index copy copied

theorem Inv.step (inv : w.Inv) {event : Event} (met : w.meets event = true) (stepped : w.step event = some w') :
    w'.Inv := by
  cases event with
  | write op id pos len buf =>
    exact guarded stepped fun free => inv.write (Option.isNone_iff_eq_none.mp free) (of_decide_eq_true met)
  | read op id pos len =>
    refine guarded stepped fun free => ?_
    refine inv.putPlain (fun at_ => ⟨le_rfl, fun byte expected _ => ⟨?_, fun _ _ => trivial⟩⟩)
      (inv.not_pending_free (Option.isNone_iff_eq_none.mp free)) rfl fun _ _ => rfl
    dsimp only at expected
    cases claimed : w.claim id at_ with
    | owed byte' =>
      rw [claimed] at expected
      cases expected
      rfl
    | unknown | pending op =>
      rw [claimed] at expected
      cases expected
  | back op id unmapped =>
    exact guarded stepped fun free => inv.putPlain trivial
      (inv.not_pending_free (Option.isNone_iff_eq_none.mp free)) rfl fun _ _ => rfl
  | map op id page shared dirty =>
    exact guarded stepped fun free => inv.putPlain ⟨of_decide_eq_true met, fun _ _ same => by cases same⟩
      (inv.not_pending_free (Option.isNone_iff_eq_none.mp free)) rfl fun _ _ => rfl
  | next op count => exact inv.next met stepped
  | store id index off byte => exact inv.store stepped
  | dirtied id index =>
    cases stepped
    refine inv.adjustPage fun p p' changed => ?_
    cases changed
    exact ⟨rfl, fun _ => .inr met⟩
  | share id index | release id index =>
    cases stepped
    refine inv.adjustPage fun p p' changed => ?_
    cases changed
    exact ⟨rfl, .inl⟩
  | evict id index =>
    cases stepped
    refine inv.adjustPage fun p p' changed => ?_
    split at changed
    · cases changed
    · cases changed
      exact ⟨rfl, .inl⟩

theorem reach_kept (w : World) (reachable : system.Reach (fun w event => w.meets event = true) w) : w.Kept := by
  have inv : w.Inv := reachable.invariant (fun _ boot => Inv.boot boot) fun _ _ _ inv met stepped => inv.step met stepped
  exact inv.kept

def boot : World := ⟨fun _ => ⟨2, fun _ => 0⟩, ∅, 0, ∅, fun _ _ => .unknown, fun _ _ => 0⟩

def stored : List Event :=
  [.map 0 0 0 true true, .next 0 0, .next 0 0, .next 0 0, .next 0 0, .next 0 0, .store 0 0 1 5]

/-- A write over a dirty page, and a read of both bytes after it. -/
theorem reach_kept_overlay : ∃ w n out, system.Reach (fun w event => w.meets event = true) w ∧ w.Kept ∧
    (∃ expect since, w.ops.lookup 2 = some (.read 0 0 2 expect since (.done n out)) ∧ expect 0 = some 7) ∧
    n = 2 ∧ out 0 = 7 ∧ out 1 = 5 := by
  have booted : system.Reach (fun w event => w.meets event = true) boot := .start ⟨rfl, rfl, fun _ _ => rfl⟩
  have reached := booted.runMeeting (stored ++
    [.write 1 0 0 1 (fun _ => 7), .next 1 1, .next 1 0, .next 1 0, .next 1 0, .next 1 0, .next 1 0,
      .read 2 0 0 2, .next 2 0, .next 2 0, .next 2 0, .next 2 0]) rfl
  exact ⟨_, _, _, reached, reach_kept _ reached, ⟨_, _, rfl, rfl⟩, rfl, rfl, rfl⟩

/-- A write-back copies the page that the mapping left and cleans it; a write to the page completes; the
copy then reaches the file over it. -/
theorem write_undone : ¬ ∀ w, system.Reach System.Any w → w.Kept := by
  intro holds
  have booted : system.Reach System.Any boot := .start ⟨rfl, rfl, fun _ _ => rfl⟩
  have reached := booted.run (stored ++
    [.release 0 0, .back 1 0 false, .next 1 0,
      .write 2 0 0 1 (fun _ => 7), .next 2 1, .next 2 0, .next 2 0, .next 2 0,
      .next 1 0, .next 1 2]) rfl
  have kept := ((holds _ reached).file 0 0 7 rfl rfl).2
  exact absurd kept (by decide)

end Myos.Fs.PageCache.World
