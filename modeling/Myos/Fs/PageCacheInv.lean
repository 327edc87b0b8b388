import Myos.Fs.PageCacheSpec

namespace Myos.Fs.PageCache
open Lib

theorem unsettled_of_writes {id at_ pos len : Nat} {buf : Nat → Byte} {stage : Write} {n : Nat}
    (reached : stage.count = some n) (above : pos ≤ at_) (below : at_ < pos + len) :
    (Op.write id pos len buf stage).unsettled id (at_ / PAGE) = true := by
  have lower : at_ / PAGE * PAGE ≤ at_ := Nat.div_mul_le_self at_ PAGE
  have upper : at_ < at_ / PAGE * PAGE + PAGE := Nat.lt_div_mul_add (by decide)
  cases stage with
  | start => cases reached
  | through m | copy m rest | test m | drop m =>
    simp only [Op.unsettled, BEq.rfl, Bool.true_and, decide_eq_true_eq]
    omega

theorem Op.Fits.mono {w w' : World} {op : Nat} {o : Op} (fits : o.Fits w op) (claim : w'.claim = w.claim)
    (version : w'.version = w.version) (changes : w.changes ≤ w'.changes)
    (file : ∀ id at_ byte, w.claim id at_ = .pending op → o.unsettled id (at_ / PAGE) = true →
      w.InFile id at_ byte → w'.InFile id at_ byte)
    (dirty : ∀ id at_ byte, w.claim id at_ = .pending op → o.unsettled id (at_ / PAGE) = true →
      w.InDirty id at_ byte → w'.InDirty id at_ byte) : o.Fits w' op := by
  cases o with
  | write id pos len buf stage =>
    refine ⟨fits.1, fits.2.1, fun at_ above below claimed => ?_⟩
    rw [claim] at claimed ⊢
    obtain ⟨alone, reached⟩ := fits.2.2 at_ above below claimed
    refine ⟨alone, fun n counted inside => ?_⟩
    have busy : (Op.write id pos len buf stage).unsettled id (at_ / PAGE) = true :=
      unsettled_of_writes counted above below
    obtain ⟨inFile, inDirty⟩ := reached n counted inside
    exact ⟨file id at_ _ alone busy inFile, fun passed => dirty id at_ _ alone busy (inDirty passed)⟩
  | read id pos len expect since stage =>
    intro at_
    rw [claim, version]
    exact fits at_
  | back id unmapped stage =>
    cases stage with
    | pick first => trivial
    | copied index copy =>
      intro at_ byte owed
      rw [claim] at owed
      exact fits at_ byte owed
    | sized index copy count =>
      refine ⟨fits.1, fun at_ byte owed => ?_⟩
      rw [claim] at owed
      exact fits.2 at_ byte owed
  | map id page shared dirty stage =>
    refine ⟨fits.1, fun seen r same => ?_⟩
    obtain ⟨older, sees⟩ := fits.2 seen r same
    refine ⟨Nat.le_trans older changes, fun current at_ byte owed => ?_⟩
    rw [claim] at owed
    exact sees (by omega) at_ byte owed

namespace World

variable {w : World} {id at_ op : Nat} {byte : Byte}

theorem InFile.write_of_outside (inFile : w.InFile id at_ byte) {file pos n : Nat} {buf : Nat → Byte}
    (outside : file = id → ¬ (pos ≤ at_ ∧ at_ < pos + n)) :
    (w.setFile file ((w.files file).write pos n buf)).InFile id at_ byte := by
  by_cases same : file = id
  · subst same
    constructor
    · simp only [setFile, Function.update_self, Stored.write]
      have inside := inFile.inside
      split <;> omega
    have inside := inFile.inside
    simp only [setFile, Function.update_self, Stored.write]
    rw [if_neg (outside rfl), if_neg (by omega)]
    exact inFile.data
  · have files : (w.setFile file ((w.files file).write pos n buf)).files id = w.files id :=
      Function.update_of_ne (Ne.symm same) _ _
    constructor
    · rw [files]
      exact inFile.inside
    · rw [files]
      exact inFile.data

theorem inFile_write {pos n : Nat} {buf : Nat → Byte} (above : pos ≤ at_) (below : at_ < pos + n) :
    (w.setFile id ((w.files id).write pos n buf)).InFile id at_ (buf (at_ - pos)) := by
  constructor
  · simp only [setFile, Function.update_self, Stored.write]
    split <;> omega
  · simp only [setFile, Function.update_self, Stored.write]
    rw [if_pos ⟨above, below⟩]

structure Keeps (w w' : World) (op : Nat) : Prop where
  claim : w'.claim = w.claim
  version : w'.version = w.version
  changes : w.changes ≤ w'.changes
  file : ∀ id at_ byte, w.claim id at_ = .owed byte ∨ (∃ writer o, writer ≠ op ∧
      w.ops.lookup writer = some o ∧ w.claim id at_ = .pending writer ∧ o.unsettled id (at_ / PAGE) = true) →
    w.InFile id at_ byte → w'.InFile id at_ byte
  page : ∀ id at_ byte, w.claim id at_ = .owed byte → w.InPage id at_ byte → w'.InPage id at_ byte
  dirty : ∀ id at_ byte writer o, writer ≠ op → w.ops.lookup writer = some o →
    w.claim id at_ = .pending writer → o.unsettled id (at_ / PAGE) = true →
    w.InDirty id at_ byte → w'.InDirty id at_ byte

theorem keeps_ops (ops : Table Nat Op) : w.Keeps { w with ops := ops } op :=
  ⟨rfl, rfl, le_rfl, fun _ _ _ _ inFile => ⟨inFile.inside, inFile.data⟩, fun _ _ _ _ inPage => inPage,
    fun _ _ _ _ _ _ _ _ _ inDirty => inDirty⟩

variable (inv : w.Inv)
include inv

theorem Inv.modify {w' : World} (kept : w.Keeps w' op)
    (others : ∀ other, other ≠ op → w'.ops.lookup other = w.ops.lookup other)
    (fits : ∀ o, w'.ops.lookup op = some o → o.Fits w' op)
    (lone : ∀ id at_, w.claim id at_ = .pending op → ∃ o, w'.ops.lookup op = some o ∧ o.writes id at_ = true)
    (copies : ∀ o, w'.ops.lookup op = some o → ∀ id index copy, o.copy? = some (id, index, copy) →
      ∀ writer o', w.ops.lookup writer = some o' → o'.unsettled id index = false)
    (settles : ∀ o, w'.ops.lookup op = some o → ∀ other o', w.ops.lookup other = some o' →
      ∀ id index copy, o'.copy? = some (id, index, copy) → o.unsettled id index = false) : w'.Inv where
  bound := by
    intro id at_ claimed
    rw [kept.claim] at claimed
    exact inv.bound id at_ claimed
  owed := by
    intro id at_ byte owed
    rw [kept.claim] at owed
    obtain ⟨inFile, inPage⟩ := inv.owed id at_ byte owed
    exact ⟨kept.file id at_ byte (.inl owed) inFile, kept.page id at_ byte owed inPage⟩
  lone := by
    intro id at_ writer claimed
    rw [kept.claim] at claimed
    by_cases same : writer = op
    · subst same
      exact lone id at_ claimed
    · rw [others writer same]
      exact inv.lone id at_ writer claimed
  fits := by
    intro other o found
    by_cases same : other = op
    · subst same
      exact fits o found
    rw [others other same] at found
    exact (inv.fits other o found).mono kept.claim kept.version kept.changes
      (fun id at_ byte alone busy => kept.file id at_ byte (.inr ⟨other, o, same, found, alone, busy⟩))
      (fun id at_ byte alone busy => kept.dirty id at_ byte other o same found alone busy)
  apart := by
    intro copier o writer o' foundCopier foundWriter id index copy copied
    by_cases self : writer = op
    · subst self
      by_cases same : copier = writer
      · subst same
        cases foundCopier.symm.trans foundWriter
        -- one call is not both a write and a write-back
        cases o with
        | write | read | map => cases copied
        | back => rfl
      · rw [others copier same] at foundCopier
        exact settles o' foundWriter copier o foundCopier id index copy copied
    · rw [others writer self] at foundWriter
      by_cases same : copier = op
      · subst same
        exact copies o foundCopier id index copy copied writer o' foundWriter
      · rw [others copier same] at foundCopier
        exact inv.apart copier o writer o' foundCopier foundWriter id index copy copied

theorem Inv.modifyPut {w' : World} {o : Op} (ops : w'.ops = w.ops.insert op o) (kept : w.Keeps w' op)
    (fits : o.Fits w' op) (lone : ∀ id at_, w.claim id at_ = .pending op → o.writes id at_ = true)
    (copies : ∀ id index copy, o.copy? = some (id, index, copy) →
      ∀ writer o', w.ops.lookup writer = some o' → o'.unsettled id index = false)
    (settles : ∀ other o', w.ops.lookup other = some o' →
      ∀ id index copy, o'.copy? = some (id, index, copy) → o.unsettled id index = false) : w'.Inv := by
  have here : w'.ops.lookup op = some o := ops ▸ AList.lookup_insert _
  have only {o' : Op} (found : w'.ops.lookup op = some o') : o = o' := Option.some.inj (here.symm.trans found)
  refine inv.modify kept (fun other apart => ?_) (fun o' found => ?_) (fun id at_ claimed => ⟨o, here, lone id at_ claimed⟩)
    (fun o' found => ?_) (fun o' found => ?_)
  · rw [ops, AList.lookup_insert_ne apart]
  · cases only found
    exact fits
  · cases only found
    exact copies
  · cases only found
    exact settles

theorem Inv.put {o : Op} (fits : o.Fits w op)
    (lone : ∀ id at_, w.claim id at_ = .pending op → o.writes id at_ = true)
    (copies : ∀ id index copy, o.copy? = some (id, index, copy) →
      ∀ writer o', w.ops.lookup writer = some o' → o'.unsettled id index = false)
    (settles : ∀ other o', w.ops.lookup other = some o' →
      ∀ id index copy, o'.copy? = some (id, index, copy) → o.unsettled id index = false) :
    (w.put op o).Inv := by
  refine inv.modifyPut rfl (keeps_ops _) ?_ lone copies settles
  exact fits.mono rfl rfl le_rfl (fun _ _ _ _ _ inFile => ⟨inFile.inside, inFile.data⟩)
    (fun _ _ _ _ _ inDirty => inDirty)

theorem Inv.putPlain {o : Op} (fits : o.Fits w op) (notOurs : ∀ id at_, w.claim id at_ ≠ .pending op)
    (uncopied : o.copy? = none) (settled : ∀ id index, o.unsettled id index = false) : (w.put op o).Inv := by
  refine inv.put fits (fun id at_ claimed => absurd claimed (notOurs id at_)) (fun _ _ _ copied => ?_)
    fun _ _ _ id index _ _ => settled id index
  cases uncopied.symm.trans copied

theorem Inv.gone (lone : ∀ id at_, w.claim id at_ ≠ .pending op) : (w.gone op).Inv := by
  have missing : (w.gone op).ops.lookup op = none := AList.lookup_erase _ _
  refine inv.modify (keeps_ops _) (fun other apart => AList.lookup_erase_ne apart) ?_ ?_ ?_ ?_
  · intro o found
    cases missing.symm.trans found
  · intro id at_ claimed
    exact absurd claimed (lone id at_)
  · intro o found
    cases missing.symm.trans found
  · intro o found
    cases missing.symm.trans found

theorem Inv.setPages {pages : Table (Nat × Nat) Page}
    (page : ∀ id at_ byte, w.claim id at_ = .owed byte → w.InPage id at_ byte →
      (w.setPages pages).InPage id at_ byte)
    (dirty : ∀ id at_ byte writer o, w.ops.lookup writer = some o → w.claim id at_ = .pending writer →
      o.unsettled id (at_ / PAGE) = true → w.InDirty id at_ byte → (w.setPages pages).InDirty id at_ byte) :
    (w.setPages pages).Inv where
  bound := inv.bound
  owed := by
    intro id at_ byte owed
    obtain ⟨inFile, inPage⟩ := inv.owed id at_ byte owed
    exact ⟨⟨inFile.inside, inFile.data⟩, page id at_ byte owed inPage⟩
  lone := inv.lone
  fits := by
    intro other o found
    exact (inv.fits other o found).mono rfl rfl le_rfl
      (fun _ _ _ _ _ inFile => ⟨inFile.inside, inFile.data⟩)
      (fun id at_ byte alone busy => dirty id at_ byte other o found alone busy)
  apart := inv.apart

omit inv in
theorem calm_iff {index : Nat} : w.calm id index = true ↔
    ∀ writer o, w.ops.lookup writer = some o → o.unsettled id index = false := by
  rw [calm, beq_iff_eq]
  exact Table.count_eq_zero_iff

theorem Inv.quietPages {pages : Table (Nat × Nat) Page}
    (quiet : ∀ id index p', pages.lookup (id, index) = some p' → ∃ p, w.pages.lookup (id, index) = some p ∧
      p'.bytes = p.bytes ∧ (p'.dirty = true → p.dirty = true ∨ w.calm id index = true)) :
    (w.setPages pages).Inv := by
  refine inv.setPages ?_ ?_
  · intro id at_ byte _ inPage p' found
    obtain ⟨p, before, kept, _⟩ := quiet id _ p' found
    rw [kept]
    exact inPage p before
  intro id at_ byte writer o found _ busy inDirty p' foundPage isDirty
  obtain ⟨p, before, kept, wasDirty⟩ := quiet id _ p' foundPage
  rw [kept]
  rcases wasDirty isDirty with was | calm
  · exact inDirty p before was
  · rw [calm_iff.mp calm writer o found] at busy
    cases busy

theorem Inv.adjustPage {id index : Nat} {change : Page → Option Page}
    (quiet : ∀ p p', change p = some p' →
      p'.bytes = p.bytes ∧ (p'.dirty = true → p.dirty = true ∨ w.calm id index = true)) :
    (w.setPages (w.pages.adjust (id, index) change)).Inv := by
  refine inv.quietPages fun id' index' p' found => ?_
  obtain ⟨⟨⟩, p, before, changed⟩ | ⟨_, found⟩ := Table.lookup_adjust_some found
  · exact ⟨p, before, quiet p p' changed⟩
  · exact ⟨p', found, rfl, .inl⟩

theorem Inv.insertPage {id index : Nat} {p p' : Page} (before : w.pages.lookup (id, index) = some p)
    (bytes : p'.bytes = p.bytes) (dirty : p'.dirty = true → p.dirty = true ∨ w.calm id index = true) :
    (w.setPages (w.pages.insert (id, index) p')).Inv := by
  refine inv.quietPages fun id' index' q found => ?_
  obtain ⟨⟨⟩, rfl⟩ | ⟨_, found⟩ := Table.lookup_insert_some found
  · exact ⟨p, before, bytes, dirty⟩
  · exact ⟨q, found, rfl, .inl⟩

end World
end Myos.Fs.PageCache
