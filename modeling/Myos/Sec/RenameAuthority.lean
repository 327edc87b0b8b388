import Mathlib.Data.List.Nodup
import Myos.Sec.RenameSpec

namespace Myos.Sec
open Myos.Fs

variable {c : Caller} {v : Vfs} {real other : RealPath} {ns ns' need : Rights}

theorem contains_ns (isReal : real.made = false) (granted : Rights.contains (c.rightsIn v real ns) need = true) :
    Rights.contains ns need = true := by
  rw [Caller.rightsIn, RealPath.synthetic, isReal, if_neg Bool.false_ne_true] at granted
  cases current : c.current with
  | none =>
    rw [current] at granted
    exact granted
  | some policy =>
    rw [current] at granted
    dsimp only at granted
    rw [Rights.contains_and, Bool.and_eq_true] at granted
    exact granted.2

/-- Two names of one file have the same rights by the policy. -/
theorem rightsIn_alias (real other : RealPath) (isReal : real.made = false) (otherReal : other.made = false)
    (same : canonical v real.comps = canonical v other.comps) (granted : Rights.contains (c.rightsIn v real ns) need = true)
    (named : Rights.contains ns' need = true) : Rights.contains (c.rightsIn v other ns') need = true := by
  rw [Caller.rightsIn, RealPath.synthetic, isReal, if_neg Bool.false_ne_true] at granted
  rw [Caller.rightsIn, RealPath.synthetic, otherReal, if_neg Bool.false_ne_true]
  cases current : c.current with
  | none => exact named
  | some policy =>
    have label : c.labelAt v policy.1 other = c.labelAt v policy.1 real := by
      unfold Caller.labelAt
      rw [same]
    rw [current] at granted
    dsimp only at granted ⊢
    rw [Rights.contains_and, Bool.and_eq_true] at granted ⊢
    exact ⟨label ▸ granted.1, named⟩

theorem contains_ns_join (c : Caller) {fixed : Option Rights} (sub : List Name)
    (granted : Rights.contains (RenameCall.ns c real fixed) need = true) :
    Rights.contains (RenameCall.ns c (real.join sub) fixed) need = true := by
  cases fixed with
  | some rights => exact granted
  | none =>
    refine (Rights.contains_iff_bits _ _).mpr fun i inside set => ?_
    exact Task.Ns.nsRights_mono c.view (List.prefix_append ..) i inside
      ((Rights.contains_iff_bits _ _).mp granted i inside set)

theorem RealPath.join_nil (real : RealPath) : real.join [] = real := by
  rw [RealPath.join, List.append_nil]

section Let

variable {r : RenameCall} (enforcing : c.Enforcing) (let_ : r.mayRename c v = true)
include enforcing let_

theorem removes_met {met : List Name} (isMet : Met v r.old.comps met) :
    Rights.contains (c.rightsIn v (r.old.join met) (RenameCall.ns c (r.old.join met) r.oldNs)) Rights.REMOVE = true := by
  obtain ⟨oldAllowed, -, passes⟩ := RenameCall.mayRename_iff.mp let_
  rw [← Caller.allowedIn_eq enforcing]
  cases isMet with
  | here => rwa [RealPath.join_nil]
  | beneath walks isListed => exact ((passes _ walks).allowed _ isListed).1

theorem new_allowed : Rights.contains (c.rightsIn v r.new (RenameCall.ns c r.new r.newNs)) Rights.CREATE = true ∧
    (r.replaced = true → Rights.contains (c.rightsIn v r.new (RenameCall.ns c r.new r.newNs)) Rights.REMOVE = true) := by
  obtain ⟨-, newAllowed, -⟩ := RenameCall.mayRename_iff.mp let_
  rw [Caller.allowedIn_eq enforcing, RenameCall.needNew] at newAllowed
  split at newAllowed
  · rw [Rights.contains_or, Bool.and_eq_true] at newAllowed
    exact ⟨newAllowed.1, fun _ => newAllowed.2⟩
  · exact ⟨newAllowed, fun replaced => absurd replaced ‹_›⟩

theorem creates_met {met : List Name} (isMet : Met v r.old.comps met) :
    Rights.contains (c.rightsIn v (r.new.join met) (RenameCall.ns c (r.new.join met) r.newNs)) Rights.CREATE = true := by
  obtain ⟨-, -, passes⟩ := RenameCall.mayRename_iff.mp let_
  cases isMet with
  | here =>
    rw [RealPath.join_nil]
    exact (new_allowed enforcing let_).1
  | beneath walks isListed =>
    rw [← Caller.allowedIn_eq enforcing]
    exact ((passes _ walks).allowed _ isListed).2

theorem authorised_of_covered (oldReal : r.old.made = false) (newReal : r.new.made = false)
    (covered : Covered v r.old.comps r.new.comps r.replaced) : Authorised c v r := by
  have old := removes_met enforcing let_ .here
  rw [RealPath.join_nil] at old
  obtain ⟨new, replaces⟩ := new_allowed enforcing let_
  refine ⟨old, new, replaces, fun sub nonempty isThere => ⟨?_, ?_⟩⟩
  · have named := contains_ns_join c sub (contains_ns oldReal old)
    rcases covered.removed sub nonempty isThere with ⟨met, isMet, same⟩ | ⟨replaced, same⟩
    · exact rightsIn_alias (r.old.join met) _ oldReal oldReal same (removes_met enforcing let_ isMet) named
    · exact rightsIn_alias _ _ newReal oldReal same (replaces replaced) named
  · obtain ⟨met, isMet, same⟩ := covered.created sub nonempty isThere
    exact rightsIn_alias (r.new.join met) _ newReal newReal same (creates_met enforcing let_ isMet)
      (contains_ns_join c sub (contains_ns newReal new))

end Let

theorem captures_lit (target path : List Name) :
    Pattern.captures (target.map Seg.lit) path = if path = target then some [] else none := by
  induction target generalizing path with
  | nil => cases path <;> simp [Pattern.captures]
  | cons l target ih =>
    cases path with
    | nil => simp [Pattern.captures]
    | cons c path =>
      simp only [List.map_cons, Pattern.captures, ih, List.cons.injEq]
      by_cases same : c = l <;> simp [same]

/-- Every right everywhere, but for `need` at `target`. -/
def denyPolicy (need : Rights) (target : List Name) : Policy where
  enforcing := true
  users := []
  groups := []
  domains := [⟨[], [⟨.kind 0, .any, Rights.ALL⟩, ⟨.kind 1, .any, Rights.ALL &&& ~~~need⟩]⟩]
  kinds := [UNLABELED, []]
  labels := [⟨target.map .lit, 1, .none⟩]
  execs := []
  login := none
  boot := (0, 0)

def denied (need : Rights) (target : List Name) : Caller := ⟨some (denyPolicy need target, 0, 0), fun _ => none, none⟩

theorem denied_enforcing (need : Rights) (target : List Name) : (denied need target).Enforcing := by
  rintro p u d ⟨⟩
  rfl

theorem labelAt_denied (need : Rights) (target : List Name) (real : RealPath) :
    (denied need target).labelAt v (denyPolicy need target) real =
      ⟨if canonical v real.comps = target then 1 else 0, none⟩ := by
  simp only [Caller.labelAt, denied, Policy.labelOf, denyPolicy, List.reverse_singleton, List.findSome?_cons,
    List.findSome?_nil, captures_lit]
  by_cases same : canonical v real.comps = target
  · simp only [same, if_true]
    rfl
  · simp only [same, if_false]
    rfl

theorem rights_denyPolicy (target : List Name) (need_ : need = Rights.CREATE ∨ need = Rights.REMOVE) (set : Bool) :
    (denyPolicy need target).rights 0 0 ⟨if set then 1 else 0, none⟩ =
      if set then Rights.ALL &&& ~~~need else Rights.ALL := by
  have unlabelled : (denyPolicy need target).rights 0 0 = (denyPolicy need []).rights 0 0 := rfl
  rw [unlabelled]
  rcases need_ with rfl | rfl <;> cases set <;> decide

theorem rightsIn_denied (target : List Name) (need_ : need = Rights.CREATE ∨ need = Rights.REMOVE)
    (isReal : real.made = false) : (denied need target).rightsIn v real Rights.ALL =
      if canonical v real.comps = target then Rights.ALL &&& ~~~need else Rights.ALL := by
  have granted := rights_denyPolicy target need_ (decide (canonical v real.comps = target))
  simp only [decide_eq_true_eq] at granted
  rw [Caller.rightsIn, RealPath.synthetic, isReal, if_neg Bool.false_ne_true]
  change (denyPolicy need target).rights 0 0 ((denied need target).labelAt v (denyPolicy need target) real) &&&
    Rights.ALL = _
  rw [labelAt_denied, granted]
  rcases need_ with rfl | rfl <;> split <;> decide

theorem join_denied {sub : List Name} (need_ : need = Rights.CREATE ∨ need = Rights.REMOVE) (isReal : real.made = false) :
    ¬Rights.contains ((denied need (canonical v (real.comps ++ sub))).rightsIn v (real.join sub) Rights.ALL) need = true := by
  have joined : (real.join sub).made = false := isReal
  rw [rightsIn_denied _ need_ joined, RealPath.join, if_pos rfl]
  rcases need_ with rfl | rfl <;> decide

theorem contains_needNew (replaced : Bool) : Rights.contains Rights.ALL (RenameCall.needNew replaced) = true := by
  cases replaced <;> decide

section Denied

variable {target : List Name} {old new : RealPath} {replaced : Bool} (isNeed : need = Rights.CREATE ∨ need = Rights.REMOVE)
include isNeed

theorem allowedIn_denied {asked : Rights} (real : RealPath) (isReal : real.made = false)
    (granted : Rights.contains Rights.ALL asked = true)
    (free : Rights.contains (Rights.ALL &&& ~~~need) asked = true ∨ canonical v real.comps ≠ target) :
    (denied need target).allowedIn v real asked Rights.ALL = true := by
  rw [Caller.allowedIn_eq (denied_enforcing need target), rightsIn_denied target isNeed isReal]
  split
  · exact free.resolve_right (absurd ‹_›)
  · exact granted

theorem mayRename_denied (oldReal : old.made = false) (newReal : new.made = false) (unrefused : ¬Refused v old.comps)
    (removes : ∀ met, Met v old.comps met →
      Rights.contains (Rights.ALL &&& ~~~need) Rights.REMOVE = true ∨ canonical v (old.comps ++ met) ≠ target)
    (creates : ∀ met, Met v old.comps met →
      Rights.contains (Rights.ALL &&& ~~~need) Rights.CREATE = true ∨ canonical v (new.comps ++ met) ≠ target)
    (replaces : Rights.contains (Rights.ALL &&& ~~~need) (RenameCall.needNew replaced) = true ∨
      canonical v new.comps ≠ target) :
    RenameCall.mayRename (denied need target) v ⟨old, none, new, none, replaced⟩ = true := by
  refine RenameCall.mayRename_iff.mpr ⟨?_, ?_, fun rel walks => ⟨?_, fun name isListed => ?_, fun name isListed => ⟨?_, ?_⟩⟩⟩
  · exact allowedIn_denied isNeed old oldReal (by decide) (old.comps.append_nil ▸ removes [] .here)
  · exact allowedIn_denied isNeed new newReal (contains_needNew replaced) replaces
  · by_contra cut
    exact unrefused ⟨rel, walks, .inl (by simpa using cut)⟩
  · by_contra invalid
    exact unrefused ⟨rel, walks, .inr ⟨name, isListed, by simpa using invalid⟩⟩
  · exact allowedIn_denied isNeed (old.join _) oldReal (by decide) (removes _ (.beneath walks isListed))
  · exact allowedIn_denied isNeed (new.join _) newReal (by decide) (creates _ (.beneath walks isListed))

end Denied

def kernel : Caller := ⟨none, fun _ => none, none⟩

theorem kernel_enforcing : kernel.Enforcing := by
  rintro p u d ⟨⟩

variable {old new : RealPath} {replaced : Bool} (oldReal : old.made = false) (newReal : new.made = false)
  (unrefused : ¬Refused v old.comps)
include oldReal newReal unrefused

theorem removes_uncovered {sub : List Name} (nonempty : sub ≠ []) (isThere : (v.stat (old.comps ++ sub)).isSome = true)
    (unmet : ¬((∃ met, Met v old.comps met ∧ canonical v (old.comps ++ met) = canonical v (old.comps ++ sub)) ∨
      replaced = true ∧ canonical v new.comps = canonical v (old.comps ++ sub))) :
    ¬NameByName v old new replaced := by
  intro holds
  obtain ⟨unmet, apart⟩ := not_or.mp unmet
  have let_ : RenameCall.mayRename (denied Rights.REMOVE (canonical v (old.comps ++ sub))) v
      ⟨old, none, new, none, replaced⟩ = true := by
    refine mayRename_denied (.inr rfl) oldReal newReal unrefused (fun met isMet => .inr fun same => unmet ⟨met, isMet, same⟩)
      (fun _ _ => .inl (by decide)) ?_
    cases replaced with
    | false => exact .inl (by decide)
    | true => exact .inr fun same => apart ⟨rfl, same⟩
  have removed := (((holds _ none none (denied_enforcing _ _)).1 let_).beneath sub nonempty isThere).1
  exact join_denied (.inr rfl) oldReal removed

theorem creates_uncovered {sub : List Name} (nonempty : sub ≠ []) (isThere : (v.stat (old.comps ++ sub)).isSome = true)
    (unmet : ¬∃ met, Met v old.comps met ∧ canonical v (new.comps ++ met) = canonical v (new.comps ++ sub)) :
    ¬NameByName v old new replaced := by
  intro holds
  have apart {met : List Name} (isMet : Met v old.comps met) :
      canonical v (new.comps ++ met) ≠ canonical v (new.comps ++ sub) := fun same => unmet ⟨met, isMet, same⟩
  have let_ : RenameCall.mayRename (denied Rights.CREATE (canonical v (new.comps ++ sub))) v ⟨old, none, new, none, replaced⟩ :=
    mayRename_denied (.inl rfl) oldReal newReal unrefused (fun _ _ => .inl (by decide)) (fun _ isMet => .inr (apart isMet))
    (.inr fun same => apart .here (by rwa [List.append_nil]))
  have created := (((holds _ none none (denied_enforcing _ _)).1 let_).beneath sub nonempty isThere).2
  exact join_denied (.inl rfl) newReal created

theorem mayRename_kernel (replaced : Bool) : RenameCall.mayRename kernel v ⟨old, none, new, none, replaced⟩ = true := by
  have allowed (real : RealPath) (isReal : real.made = false) {asked : Rights}
      (granted : Rights.contains Rights.ALL asked = true) :
      kernel.allowedIn v real asked Rights.ALL = true := by
    simp [Caller.allowedIn, kernel, RealPath.synthetic, isReal, granted]
  refine RenameCall.mayRename_iff.mpr ⟨allowed old oldReal (by decide), allowed new newReal (contains_needNew replaced),
    fun rel walks => ⟨?_, fun name isListed => ?_, fun name _ => ⟨?_, ?_⟩⟩⟩
  · by_contra cut
    exact unrefused ⟨rel, walks, .inl (by simpa using cut)⟩
  · by_contra invalid
    exact unrefused ⟨rel, walks, .inr ⟨name, isListed, by simpa using invalid⟩⟩
  · exact allowed (old.join _) oldReal (by decide)
  · exact allowed (new.join _) newReal (by decide)

omit oldReal newReal unrefused

theorem mayRename_of_made (c : Caller) (r : RenameCall) (made : r.old.made = true ∨ r.new.made = true) :
    r.mayRename c v = false := by
  have refused : ∀ real : RealPath, real.made = true → ∀ ns, c.allowedIn v real Rights.REMOVE ns = false ∧
      c.allowedIn v real (RenameCall.needNew r.replaced) ns = false := by
    intro real isMade ns
    simp only [Caller.allowedIn, RealPath.synthetic, isMade, if_true]
    cases r.replaced <;> decide
  by_contra let_
  rw [Bool.not_eq_false] at let_
  obtain ⟨oldAllowed, newAllowed, -⟩ := RenameCall.mayRename_iff.mp let_
  rcases made with isMade | isMade
  · rw [(refused _ isMade _).1] at oldAllowed
    cases oldAllowed
  · rw [(refused _ isMade _).2] at newAllowed
    cases newAllowed

theorem mayRename_of_refused (c : Caller) {r : RenameCall} (refused : Refused v r.old.comps) : r.mayRename c v = false := by
  by_contra let_
  rw [Bool.not_eq_false] at let_
  obtain ⟨-, -, passes⟩ := RenameCall.mayRename_iff.mp let_
  obtain ⟨rel, walks, cut | ⟨name, isListed, invalid⟩⟩ := refused
  · rw [(passes rel walks).whole] at cut
    cases cut
  · rw [(passes rel walks).utf8 name isListed] at invalid
    cases invalid

theorem nameByName_iff (v : Vfs) (old new : RealPath) (replaced : Bool) : NameByName v old new replaced ↔
    old.made = true ∨ new.made = true ∨ Refused v old.comps ∨ Covered v old.comps new.comps replaced ∧
      ∀ sub, v.statDir (old.comps ++ sub) = true → ¬Overfull v (old.comps ++ sub) := by
  by_cases oldMade : old.made = true
  · refine iff_of_true (fun c oldNs newNs _ => ?_) (.inl oldMade)
    rw [mayRename_of_made c _ (.inl oldMade)]
    exact ⟨nofun, fun _ => rfl⟩
  by_cases newMade : new.made = true
  · refine iff_of_true (fun c oldNs newNs _ => ?_) (.inr (.inl newMade))
    rw [mayRename_of_made c _ (.inr newMade)]
    exact ⟨nofun, fun _ => rfl⟩
  by_cases refused : Refused v old.comps
  · refine iff_of_true (fun c oldNs newNs _ => ?_) (.inr (.inr (.inl refused)))
    rw [mayRename_of_refused c refused]
    exact ⟨nofun, fun _ => rfl⟩
  have oldReal : old.made = false := by simpa using oldMade
  have newReal : new.made = false := by simpa using newMade
  rw [or_iff_right oldMade, or_iff_right newMade, or_iff_right refused]
  constructor
  · intro holds
    refine ⟨⟨fun sub nonempty isThere => ?_, fun sub nonempty isThere => ?_⟩, fun sub isDir overfull => ?_⟩
    · by_contra unmet
      exact removes_uncovered oldReal newReal refused nonempty isThere unmet holds
    · by_contra unmet
      exact creates_uncovered oldReal newReal refused nonempty isThere unmet holds
    · have let_ := mayRename_kernel oldReal newReal refused replaced
      rw [(holds _ none none kernel_enforcing).2 ⟨sub, isDir, overfull⟩] at let_
      cases let_
  · rintro ⟨covered, fit⟩ c oldNs newNs enforcing
    exact ⟨fun let_ => authorised_of_covered enforcing let_ oldReal newReal covered,
      fun ⟨sub, isDir, overfull⟩ => absurd overfull (fit sub isDir)⟩

section Crowded

def files : List Name → Forest
  | [] => .nil
  | name :: rest => .cons name .file (files rest)

theorem names_files (names : List Name) : (files names).names = names := by
  induction names with
  | nil => rfl
  | cons name rest ih => rw [files, Forest.names, ih]

theorem find_files {names : List Name} {name : Name} {t : Tree} (found : (files names).find name = some t) : t = .file := by
  induction names with
  | nil => cases found
  | cons other rest ih =>
    rw [files, Forest.find] at found
    split at found
    · exact (Option.some.inj found).symm
    · exact ih found

theorem find_files_mem {names : List Name} {name : Name} (nonempty : name ≠ []) (member : name ∈ names) :
    (files names).find name = some .file := by
  induction names with
  | nil => cases member
  | cons other rest ih =>
    rw [files, Forest.find]
    split
    · rfl
    · rename_i apart
      refine ih ((List.mem_cons.mp member).resolve_left fun same => apart ⟨same.symm, nonempty⟩)

theorem isUtf8_of_ascii {bytes : List UInt8} (ascii : ∀ b ∈ bytes, b < 0x80) : isUtf8 bytes = true := by
  induction bytes with
  | nil => rfl
  | cons b rest ih =>
    unfold isUtf8
    rw [if_pos (ascii b (.head _))]
    exact ih fun other member => ascii other (.tail _ member)

def crowdName (i : Nat) : Name := UInt8.ofNat (97 + i / 64) :: UInt8.ofNat (48 + i % 64) :: List.replicate 252 120

def crowd : List Name := (List.range 1029).map crowdName

def crowded : Vfs := .rooted (.dir (.cons [100] (.dir (files crowd)) .nil))

theorem crowdName_bytes {i : Nat} (inside : i < 1029) : ∀ b ∈ crowdName i, 48 ≤ b.toNat ∧ b.toNat < 0x80 := by
  intro b member
  simp only [crowdName, List.mem_cons, List.mem_replicate] at member
  rcases member with rfl | rfl | ⟨-, rfl⟩
  · simp only [UInt8.toNat_ofNat']
    omega
  · simp only [UInt8.toNat_ofNat']
    omega
  · decide

theorem crowd_bytes {name : Name} (member : name ∈ crowd) : ∀ b ∈ name, 48 ≤ b.toNat ∧ b.toNat < 0x80 := by
  obtain ⟨i, inside, rfl⟩ := List.mem_map.mp member
  exact crowdName_bytes (List.mem_range.mp inside)

theorem crowd_length {name : Name} (member : name ∈ crowd) : name.length = 254 := by
  obtain ⟨i, -, rfl⟩ := List.mem_map.mp member
  simp only [crowdName, List.length_cons, List.length_replicate]

theorem crowd_nodup : crowd.Nodup := by
  refine List.Nodup.map_on ?_ List.nodup_range
  intro i iInside j jInside same
  rw [List.mem_range] at iInside jInside
  simp only [crowdName, List.cons.injEq] at same
  have first := congrArg UInt8.toNat same.1
  have second := congrArg UInt8.toNat same.2.1
  simp only [UInt8.toNat_ofNat'] at first second
  omega

theorem size_of_length {names : List Name} (length : ∀ name ∈ names, name.length = 254) :
    Fs.size names = 255 * names.length := by
  induction names with
  | nil => rfl
  | cons name rest ih =>
    have others := ih fun other member => length other (.tail _ member)
    have this := length name (.head _)
    simp only [Fs.size, List.map_cons, List.sum_cons, List.length_cons] at others ⊢
    omega

theorem crowd_shown {name : Name} (member : name ∈ crowd) : [[100], name].any (0 ∈ ·) = false := by
  have shown : (0 : UInt8) ∉ name := fun hidden => absurd (crowd_bytes member 0 hidden).1 (by decide)
  simp [shown]

theorem crowd_line {name : Name} (member : name ∈ crowd) : name ≠ [] ∧ NL ∉ name :=
  ⟨List.ne_nil_of_length_eq_add_one (crowd_length member), fun newline => absurd (crowd_bytes member NL newline).1 (by decide)⟩

theorem stat_below (f : Forest) {name : Name} (shown : [[100], name].any (0 ∈ ·) = false) :
    (Vfs.rooted (.dir (.cons [100] (.dir f) .nil))).stat [[100], name] = f.find name := by
  rw [Vfs.stat_rooted shown]
  change (f.find name).bind some = f.find name
  cases f.find name <;> rfl

theorem listdir_crowd : ∃ written left, crowd = written ++ left ∧ left ≠ [] ∧
    crowded.listdir RENAME_LIST_MAX [[100]] = text written := by
  obtain ⟨written, left, same, wrote, next⟩ := writeNames_spec RENAME_LIST_MAX [] crowd
  have member {name : Name} (isWritten : name ∈ written) : name ∈ crowd := same ▸ List.mem_append_left _ isWritten
  have visible : written.filter (fun name => 0 ∉ name) = written := by
    rw [List.filter_eq_self]
    intro name isWritten
    simpa using crowd_shown (member isWritten)
  refine ⟨written, left, same, ?_, ?_⟩
  · rintro rfl
    have short : (writeNames RENAME_LIST_MAX [] crowd).length ≤ RENAME_LIST_MAX :=
      writeNames_length_le RENAME_LIST_MAX crowd (Nat.zero_le _)
    rw [wrote, List.nil_append, text_length, size_of_length fun name isWritten => crowd_length (member isWritten)] at short
    have count : written.length = 1029 := by
      rw [List.append_nil] at same
      rw [← same]
      simp [crowd]
    rw [count] at short
    exact absurd short (by decide)
  · have names : (Tree.dir (.cons [100] (.dir (files crowd)) .nil)).namesAt [[100]] = crowd := names_files crowd
    rw [crowded, Vfs.listdir_rooted _ (by decide), names, wrote, List.nil_append,
      withoutHidden_text fun name isWritten => (crowd_line (member isWritten)).2, visible]

/-- A directory of 1029 names of 254 bytes: the last one is renamed without its rights asked for. -/
theorem crowded_rename_unauthorised : ¬(∀ v old new replaced, NameByName v old new replaced) := by
  intro holds
  obtain ⟨written, left, same, more, listing⟩ := listdir_crowd
  obtain ⟨name, rest, rfl⟩ := List.exists_cons_of_ne_nil more
  have member {other : Name} (isWritten : other ∈ written) : other ∈ crowd := same ▸ List.mem_append_left _ isWritten
  have isName : name ∈ crowd := by
    rw [same]
    simp
  have isListed : listed crowded [[100]] = written := by
    rw [listed, listing, readNames_text fun other isWritten => (crowd_line (member isWritten)).2, List.filter_eq_self]
    exact fun other isWritten => decide_eq_true (crowd_line (member isWritten)).1
  have unlisted : name ∉ listed crowded [[100]] := by
    have once := crowd_nodup
    rw [same] at once
    rw [isListed]
    exact fun isWritten => (List.nodup_append.mp once).2.2 name isWritten name (.head _) rfl
  have isThere : crowded.stat [[100], name] = some .file :=
    (stat_below _ (crowd_shown isName)).trans (find_files_mem (crowd_line isName).1 isName)
  have unrefused : ¬Refused crowded [[100]] := by
    rintro ⟨rel, walks, refused⟩
    have here : rel = [] := by
      rcases walks.cases_start with rfl | ⟨other, isOther, isDir, -⟩
      · rfl
      rw [List.append_nil, isListed] at isOther
      obtain ⟨t, found, isDir⟩ := Option.any_eq_true _ _ |>.mp isDir
      rw [find_files ((stat_below _ (crowd_shown (member isOther))).symm.trans found)] at isDir
      cases isDir
    subst here
    rcases refused with cut | ⟨other, isWritten, invalid⟩
    · have length : (text written).length = 255 * written.length := by
        rw [text_length, size_of_length fun other isWritten => crowd_length (member isWritten)]
      rw [List.append_nil, listing] at cut
      simp only [RenameCall.cutOff, length, Bool.or_eq_true, beq_iff_eq, Bool.and_eq_true, decide_eq_true_eq,
        bne_iff_ne, RENAME_LIST_MAX] at cut
      rcases cut with full | ⟨positive, torn⟩
      · omega
      · refine torn (getLast?_text ?_)
        rintro rfl
        cases positive
    · rw [List.append_nil, isListed] at isWritten
      rw [isUtf8_of_ascii fun b isByte => UInt8.lt_iff_toNat_lt.mpr (crowd_bytes (member isWritten) b isByte).2] at invalid
      cases invalid
  refine creates_uncovered rfl rfl unrefused (List.cons_ne_nil name []) (by rw [List.singleton_append, isThere]; rfl) ?_
    (holds _ ⟨false, [[100]]⟩ ⟨false, [[101]]⟩ false)
  rintro ⟨met, isMet, sameMet⟩
  have isSame : met = [name] := List.append_cancel_left (show [[101]] ++ met = [[101]] ++ [name] from sameMet)
  generalize isSub : met = sub at isMet
  rw [isSame] at isSub
  cases isMet with
  | here => cases isSub
  | @beneath rel other walks isOther =>
    obtain ⟨rfl, last⟩ := List.append_inj' (show [] ++ [name] = rel ++ [other] from isSub) rfl
    cases last
    exact unlisted isOther

end Crowded

end Myos.Sec
