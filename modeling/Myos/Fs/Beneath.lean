import Myos.Fs.Resolve

namespace Myos.Fs
open Myos.Sec Myos.Task.Ns

abbrev Links := Path → Option (List UInt8)

def Links.read (links : Links) (path : Path) : Option (List UInt8) := (links path).map (·.take PATH_MAX)

def walkBeneath (links : Links) (base : Path) (followLast : Bool) (hops : Nat) (done : Path) (todo : List Name) : Option Path :=
  match todo with
  | [] => some done
  | c :: todo =>
    if c = [] ∨ c = DOT then walkBeneath links base followLast hops done todo
    else if c = DOTDOT then if done = [] then none else walkBeneath links base followLast hops done.dropLast todo
    else if todo = [] ∧ followLast = false then walkBeneath links base followLast hops (done ++ [c]) todo
    else
      match links.read (base ++ (done ++ [c])) with
      | none => walkBeneath links base followLast hops (done ++ [c]) todo
      | some target =>
        match hops with
        | 0 => none
        | hops + 1 =>
          if isUtf8 target = false ∨ target = [] ∨ target.head? = some SLASH then none
          else walkBeneath links base followLast hops done (target.splitOn SLASH ++ todo)
termination_by (hops, todo.length)

def resolveBeneath (links : Links) (base : Path) (path : List UInt8) (followLast : Bool) : Option Path :=
  if path.head? = some SLASH then none
  else
    (walkBeneath links base followLast MAX_SYMLINKS [] (path.splitOn SLASH)).bind fun done =>
      if pathLen (base ++ done) ≤ PATH_MAX then some (base ++ done) else none

def Plain (c : Name) : Prop := ¬(c = [] ∨ c = DOT) ∧ c ≠ DOTDOT

/-- The walk from `done` on, in which each symlink met is replaced by its whole target. There is none above the base, through an
absolute or an empty target, or through more links than `hops`. -/
inductive Walk (links : Links) (base : Path) (followLast : Bool) : Nat → Path → List Name → Path → Prop
  | done {hops done} : Walk links base followLast hops done [] done
  | stay {hops done c todo p} : c = [] ∨ c = DOT → Walk links base followLast hops done todo p →
      Walk links base followLast hops done (c :: todo) p
  | up {hops done todo p} : done ≠ [] → Walk links base followLast hops done.dropLast todo p →
      Walk links base followLast hops done (DOTDOT :: todo) p
  | last {hops done c} : Plain c → followLast = false → Walk links base followLast hops done [c] (done ++ [c])
  | down {hops done c todo p} : Plain c → links (base ++ (done ++ [c])) = none →
    Walk links base followLast hops (done ++ [c]) todo p →
      Walk links base followLast hops done (c :: todo) p
  | link {hops done c todo target p} : Plain c → todo ≠ [] ∨ followLast = true → links (base ++ (done ++ [c])) = some target →
      target ≠ [] → target.head? ≠ some SLASH → Walk links base followLast hops done (target.splitOn SLASH ++ todo) p →
      Walk links base followLast (hops + 1) done (c :: todo) p

/-- Where the walk comes upon the first link whose target does not fit `PATH_MAX` bytes: the links it may follow after it, what
it has walked, the target, and what is left to walk. -/
structure Cut where
  hops : Nat
  done : Path
  target : List UInt8
  todo : List Name

def firstCut (links : Links) (base : Path) (followLast : Bool) (hops : Nat) (done : Path) (todo : List Name) : Option Cut :=
  match todo with
  | [] => none
  | c :: todo =>
    if c = [] ∨ c = DOT then firstCut links base followLast hops done todo
    else if c = DOTDOT then if done = [] then none else firstCut links base followLast hops done.dropLast todo
    else if todo = [] ∧ followLast = false then none
    else
      match links (base ++ (done ++ [c])) with
      | none => firstCut links base followLast hops (done ++ [c]) todo
      | some target =>
        match hops with
        | 0 => none
        | hops + 1 =>
          if PATH_MAX < target.length then some ⟨hops, done, target, todo⟩
          else if isUtf8 target = false ∨ target = [] ∨ target.head? = some SLASH then none
          else firstCut links base followLast hops done (target.splitOn SLASH ++ todo)
termination_by (hops, todo.length)

/-- Where the code's walk goes from there, by the first `PATH_MAX` bytes of the target. -/
def Cut.walked (cut : Cut) (links : Links) (base : Path) (followLast : Bool) : Option Path :=
  let target := cut.target.take PATH_MAX
  if isUtf8 target = false ∨ target = [] ∨ target.head? = some SLASH then none
  else walkBeneath links base followLast cut.hops cut.done (target.splitOn SLASH ++ cut.todo)

/-- Where the whole target leads. -/
def Cut.Leads (cut : Cut) (links : Links) (base : Path) (followLast : Bool) (p : Path) : Prop :=
  cut.target ≠ [] ∧ cut.target.head? ≠ some SLASH ∧
    Walk links base followLast cut.hops cut.done (cut.target.splitOn SLASH ++ cut.todo) p

variable {links : Links} {base done todo p : Path} {followLast : Bool} {hops : Nat} {path : List UInt8} {c : Name}

theorem walk_nil : Walk links base followLast hops done [] p ↔ p = done := by
  constructor
  · intro walk
    cases walk
    rfl
  · rintro rfl
    exact .done

theorem walk_stay (stays : c = [] ∨ c = DOT) :
    Walk links base followLast hops done (c :: todo) p ↔ Walk links base followLast hops done todo p := by
  refine ⟨fun walk => ?_, .stay stays⟩
  cases walk with
  | stay _ walk => exact walk
  | up => exact absurd stays (by decide)
  | last plain | down plain | link plain => exact absurd stays plain.1

theorem walk_up (inside : done ≠ []) :
    Walk links base followLast hops done (DOTDOT :: todo) p ↔ Walk links base followLast hops done.dropLast todo p := by
  refine ⟨fun walk => ?_, .up inside⟩
  cases walk with
  | stay stays => exact absurd stays (by decide)
  | up _ walk => exact walk
  | last plain => exact absurd rfl plain.2
  | down plain => exact absurd rfl plain.2
  | link plain => exact absurd rfl plain.2

theorem walk_last (plain : Plain c) (keep : followLast = false) :
    Walk links base followLast hops done [c] p ↔ p = done ++ [c] := by
  constructor
  · intro walk
    cases walk with
    | stay stays => exact absurd stays plain.1
    | up => exact absurd rfl plain.2
    | last => rfl
    | down _ _ walk => exact walk_nil.mp walk
    | link _ followed =>
      rcases followed with more | follow
      · exact absurd rfl more
      · cases follow.symm.trans keep
  · rintro rfl
    exact .last plain keep

theorem walk_down (plain : Plain c) (free : links (base ++ (done ++ [c])) = none) :
    Walk links base followLast hops done (c :: todo) p ↔ Walk links base followLast hops (done ++ [c]) todo p := by
  refine ⟨fun walk => ?_, .down plain free⟩
  cases walk with
  | stay stays => exact absurd stays plain.1
  | up => exact absurd rfl plain.2
  | last => exact .done
  | down _ _ walk => exact walk
  | link _ _ found => cases found.symm.trans free

theorem walk_link {target : List UInt8} (plain : Plain c) (followed : todo ≠ [] ∨ followLast = true)
    (found : links (base ++ (done ++ [c])) = some target) :
    Walk links base followLast (hops + 1) done (c :: todo) p ↔
      target ≠ [] ∧ target.head? ≠ some SLASH ∧ Walk links base followLast hops done (target.splitOn SLASH ++ todo) p := by
  constructor
  · intro walk
    cases walk with
    | stay stays => exact absurd stays plain.1
    | up => exact absurd rfl plain.2
    | last _ keep =>
      rcases followed with more | follow
      · exact absurd rfl more
      · cases follow.symm.trans keep
    | down _ free => cases found.symm.trans free
    | link _ _ same held relative walk =>
      cases found.symm.trans same
      exact ⟨held, relative, walk⟩
  · rintro ⟨held, relative, walk⟩
    exact .link plain followed found held relative walk

-- Up to the first link that is cut, the code's walk and the one by whole targets take the same steps.
theorem walkBeneath_iff : (walkBeneath links base followLast hops done todo = some p →
      Walk links base followLast hops done todo p) ↔
    ∀ cut, firstCut links base followLast hops done todo = some cut →
      cut.walked links base followLast = some p → cut.Leads links base followLast p := by
  fun_induction firstCut links base followLast hops done todo with
  | case1 hops done =>
    rw [walkBeneath, walk_nil]
    exact iff_of_true (fun walked => (Option.some.inj walked).symm) nofun
  | case2 hops done c todo stays ih =>
    rw [walkBeneath, if_pos stays, walk_stay stays]
    exact ih
  | case3 hops todo stays =>
    rw [walkBeneath, if_neg stays, if_pos rfl, if_pos rfl]
    exact iff_of_true nofun nofun
  | case4 hops done todo inside stays ih =>
    rw [walkBeneath, if_neg stays, if_pos rfl, if_neg inside, walk_up inside]
    exact ih
  | case5 hops done c todo stays up last =>
    obtain ⟨rfl, keep⟩ := last
    rw [walkBeneath, if_neg stays, if_neg up, if_pos ⟨rfl, keep⟩, walkBeneath, walk_last ⟨stays, up⟩ keep]
    exact iff_of_true (fun walked => (Option.some.inj walked).symm) nofun
  | case6 hops done c todo stays up more free ih =>
    rw [walkBeneath, if_neg stays, if_neg up, if_neg more, Links.read, free, walk_down ⟨stays, up⟩ free]
    exact ih
  | case7 done c todo stays up more target found =>
    rw [walkBeneath, if_neg stays, if_neg up, if_neg more, Links.read, found]
    exact iff_of_true nofun nofun
  | case8 done c todo stays up more target found hops long =>
    have followed : todo ≠ [] ∨ followLast = true := by
      simpa using Decidable.not_and_iff_not_or_not.mp more
    rw [walkBeneath, if_neg stays, if_neg up, if_neg more, Links.read, found, walk_link ⟨stays, up⟩ followed found]
    refine ⟨fun exact_ cut same => ?_, fun exact_ => exact_ _ rfl⟩
    cases same
    exact exact_
  | case9 done c todo stays up more target found hops short bad =>
    rw [walkBeneath, if_neg stays, if_neg up, if_neg more, Links.read, found, Option.map_some,
      List.take_of_length_le (Nat.le_of_not_lt short)]
    dsimp only
    rw [if_pos bad]
    exact iff_of_true nofun nofun
  | case10 done c todo stays up more target found hops short good ih =>
    have followed : todo ≠ [] ∨ followLast = true := by
      simpa using Decidable.not_and_iff_not_or_not.mp more
    have held := not_or.mp (not_or.mp good).2
    rw [walkBeneath, if_neg stays, if_neg up, if_neg more, Links.read, found, Option.map_some,
      List.take_of_length_le (Nat.le_of_not_lt short), walk_link ⟨stays, up⟩ followed found]
    dsimp only
    rw [if_neg good, and_iff_right held.1, and_iff_right held.2]
    exact ih

def Clear (links : Links) (base done : Path) : Prop :=
  (∀ c ∈ done, Plain c) ∧ ∀ q, q <+: done → q ≠ [] → links (base ++ q) = none

theorem Clear.mono {q : Path} (clear : Clear links base done) (above : q <+: done) : Clear links base q :=
  ⟨fun c mem => clear.1 c (above.subset mem), fun r before => clear.2 r (before.trans above)⟩

theorem plain_append (plain : ∀ c ∈ done, Plain c) (last : Plain c) : ∀ d ∈ done ++ [c], Plain d := by
  intro d mem
  rcases List.mem_append.mp mem with old | new
  · exact plain d old
  · exact List.mem_singleton.mp new ▸ last

theorem Clear.append (clear : Clear links base done) (plain : Plain c) (free : links (base ++ (done ++ [c])) = none) :
    Clear links base (done ++ [c]) := by
  refine ⟨plain_append clear.1 plain, fun q above held => ?_⟩
  rcases List.prefix_concat_iff.mp above with rfl | above
  · exact free
  · exact clear.2 q above held

theorem walkBeneath_ends (walked : walkBeneath links base followLast hops done todo = some p)
    (clear : Clear links base done) :
    (∀ c ∈ p, Plain c) ∧ ∀ q, q <+: p → q ≠ [] → q ≠ p ∨ followLast = true → links (base ++ q) = none := by
  fun_induction walkBeneath links base followLast hops done todo with
  | case1 hops done =>
    cases walked
    exact ⟨clear.1, fun q above held _ => clear.2 q above held⟩
  | case2 hops done c todo stays ih => exact ih walked clear
  | case3 => cases walked
  | case4 hops done todo inside _ ih => exact ih walked (clear.mono (List.dropLast_prefix _))
  | case5 hops done c todo stays up last ih =>
    obtain ⟨rfl, keep⟩ := last
    rw [walkBeneath] at walked
    cases walked
    refine ⟨plain_append clear.1 ⟨stays, up⟩, fun q above held other => ?_⟩
    rcases List.prefix_concat_iff.mp above with same | above
    · rcases other with differs | follow
      · exact absurd same differs
      · cases follow.symm.trans keep
    · exact clear.2 q above held
  | case6 hops done c todo stays up _ read ih =>
    exact ih walked (clear.append ⟨stays, up⟩ (Option.map_eq_none_iff.mp read))
  | case7 => cases walked
  | case8 => cases walked
  | case9 done c todo _ _ _ target _ hops _ ih => exact ih walked clear

def RealDir (links : Links) (base : Path) : Prop := Clear links [] base

/-- `p` is a path beneath `base`, of plain names and without a link on the way (nor at its end, if that is followed). -/
def Beneath (links : Links) (base : Path) (followLast : Bool) (p : Path) : Prop :=
  base <+: p ∧ (∀ c ∈ p, Plain c) ∧ ∀ q, q <+: p → q ≠ [] → q ≠ p ∨ followLast = true → links q = none

theorem beneath_append (real : RealDir links base)
    (walked : walkBeneath links base followLast hops [] todo = some done) : Beneath links base followLast (base ++ done) := by
  have nothing : Clear links base [] := ⟨nofun, fun q above held => absurd (List.prefix_nil.mp above) held⟩
  obtain ⟨plain, free⟩ := walkBeneath_ends walked nothing
  refine ⟨List.prefix_append _ _, fun c mem => ?_, fun q above held other => ?_⟩
  · rcases List.mem_append.mp mem with old | new
    · exact real.1 c old
    · exact plain c new
  · rcases List.prefix_or_prefix_of_prefix above (List.prefix_append base done) with inBase | ⟨r, rfl⟩
    · exact real.2 q inBase held
    by_cases same : r = []
    · subst same
      rw [List.append_nil] at held ⊢
      exact real.2 base (List.prefix_refl _) held
    · refine free r ((List.prefix_append_right_inj base).mp above) same (other.imp_left fun differs is => differs ?_)
      rw [is]

/-- Whatever the links, the path found lies beneath the base. It is the one the whole targets lead to exactly when the first link
met that is cut, if there is one, leads by its first `PATH_MAX` bytes nowhere or where its whole target leads. -/
theorem resolveBeneath_iff (links : Links) (base : Path) (real : RealDir links base) (path : List UInt8) (followLast : Bool) :
    (∀ p, resolveBeneath links base path followLast = some p →
      Beneath links base followLast p ∧ path.head? ≠ some SLASH) ∧
    ((∀ p, resolveBeneath links base path followLast = some (base ++ p) →
        Walk links base followLast MAX_SYMLINKS [] (path.splitOn SLASH) p) ↔
      path.head? = some SLASH ∨ ∀ cut, firstCut links base followLast MAX_SYMLINKS [] (path.splitOn SLASH) = some cut →
        ∀ p, pathLen (base ++ p) ≤ PATH_MAX → cut.walked links base followLast = some p →
          cut.Leads links base followLast p) := by
  constructor
  · intro p found
    obtain ⟨relative, found⟩ := Option.ite_none_left_eq_some.mp found
    obtain ⟨done, walked, found⟩ := Option.bind_eq_some_iff.mp found
    obtain ⟨_, same⟩ := Option.ite_none_right_eq_some.mp found
    cases same
    exact ⟨beneath_append real walked, relative⟩
  by_cases relative : path.head? = some SLASH
  · refine iff_of_true (fun p found => ?_) (.inl relative)
    rw [resolveBeneath, if_pos relative] at found
    cases found
  have found (p : Path) : resolveBeneath links base path followLast = some (base ++ p) ↔
      walkBeneath links base followLast MAX_SYMLINKS [] (path.splitOn SLASH) = some p ∧ pathLen (base ++ p) ≤ PATH_MAX := by
    rw [resolveBeneath, if_neg relative, Option.bind_eq_some_iff]
    simp only [Option.ite_none_right_eq_some, Option.some.injEq, List.append_cancel_left_eq]
    constructor
    · rintro ⟨done, walked, fits, rfl⟩
      exact ⟨walked, fits⟩
    · rintro ⟨walked, fits⟩
      exact ⟨p, walked, fits, rfl⟩
  rw [or_iff_right relative]
  constructor
  · intro exact_ cut first p fits
    exact walkBeneath_iff.mp (fun walked => exact_ p ((found p).mpr ⟨walked, fits⟩)) cut first
  · intro leads p resolved
    obtain ⟨walked, fits⟩ := (found p).mp resolved
    exact walkBeneath_iff.mpr (fun cut first => leads cut first p fits) walked

theorem walkBeneath_stays {c : List Name} (stays : ∀ name ∈ c, name = [] ∨ name = DOT) :
    walkBeneath links base followLast hops done (c ++ todo) = walkBeneath links base followLast hops done todo := by
  induction c with
  | nil => rfl
  | cons name rest ih =>
    rw [List.cons_append, walkBeneath, if_pos (stays name (.head _))]
    exact ih fun other mem => stays other (.tail _ mem)

theorem Walk.of_stays {c : List Name} (stays : ∀ name ∈ c, name = [] ∨ name = DOT)
    (walk : Walk links base followLast hops done (c ++ todo) p) : Walk links base followLast hops done todo p := by
  induction c with
  | nil => exact walk
  | cons name rest ih =>
    exact ih (fun other mem => stays other (.tail _ mem)) ((walk_stay (stays name (.head _))).mp walk)

def longTarget : List UInt8 := (List.replicate 128 [46, SLASH]).flatten ++ [120]

def longLink : Links := fun at_ => if at_ = [[108]] then some longTarget else none

theorem longLink_walk (walk : Walk longLink [] true hops [] [[108]] p) : p = [[120]] := by
  have stays : ∀ name ∈ List.replicate 128 DOT, name = [] ∨ name = DOT := fun name mem => .inr (List.eq_of_mem_replicate mem)
  have split : longTarget.splitOn SLASH ++ [] = List.replicate 128 DOT ++ [[120]] := by decide +kernel
  cases walk with
  | stay stays => exact absurd stays (by decide)
  | down _ none => exact absurd none (by decide)
  | link _ _ found _ _ walk =>
    cases found
    rw [split] at walk
    cases walk.of_stays stays with
    | stay stays => exact absurd stays (by decide)
    | down _ _ walk =>
      cases walk
      rfl
    | link _ _ found => cases found
    | last _ keep => cases keep
  | last _ keep => cases keep

theorem longLink_resolved : resolveBeneath longLink [] [108] true = some [] := by
  have read : longLink.read ([] ++ ([] ++ [[108]])) = some (List.replicate 128 [46, SLASH]).flatten := by decide +kernel
  have good : ¬(isUtf8 (List.replicate 128 [46, SLASH]).flatten = false ∨ (List.replicate 128 [46, SLASH]).flatten = [] ∨
      (List.replicate 128 [46, SLASH]).flatten.head? = some SLASH) := by decide +kernel
  have stays : ∀ name ∈ (List.replicate 128 [46, SLASH]).flatten.splitOn SLASH, name = [] ∨ name = DOT := by decide +kernel
  have walked : walkBeneath longLink [] true MAX_SYMLINKS [] [[108]] = some [] := by
    rw [walkBeneath, if_neg (by decide), if_neg (by decide), if_neg (by decide), read, MAX_SYMLINKS]
    dsimp only
    rw [if_neg good, walkBeneath_stays stays, walkBeneath]
  have split : List.splitOn SLASH [108] = [[108]] := by decide
  rw [resolveBeneath, if_neg (by decide), split, walked]
  rfl

-- The long link is in the tree but not on the way.
theorem resolveBeneath_iff_plain : Beneath longLink [] true [[120]] ∧
    Walk longLink [] true MAX_SYMLINKS [] (List.splitOn SLASH [120]) [[120]] := by
  have real : RealDir longLink [] := ⟨nofun, fun _ above held => absurd (List.prefix_nil.mp above) held⟩
  have split : List.splitOn SLASH [120] = [[120]] := by decide
  have walked : walkBeneath longLink [] true MAX_SYMLINKS [] [[120]] = some [[120]] := by
    rw [walkBeneath, if_neg (by decide), if_neg (by decide), if_neg (by decide)]
    exact walkBeneath.eq_1 ..
  have found : resolveBeneath longLink [] [120] true = some [[120]] := by
    rw [resolveBeneath, if_neg (by decide), split, walked]
    rfl
  have whole : firstCut longLink [] true MAX_SYMLINKS [] [[120]] = none := by
    rw [firstCut, if_neg (by decide), if_neg (by decide), if_neg (by decide)]
    exact firstCut.eq_1 ..
  obtain ⟨beneath, leads⟩ := resolveBeneath_iff longLink [] real [120] true
  refine ⟨(beneath _ found).1, leads.mpr (.inr fun cut first => ?_) _ found⟩
  rw [split, whole] at first
  cases first

theorem cut_target_misleads : ∃ p, resolveBeneath longLink [] [108] true = some p ∧
    ¬Walk longLink [] true MAX_SYMLINKS [] (List.splitOn SLASH [108]) p := by
  have split : List.splitOn SLASH [108] = [[108]] := by decide
  refine ⟨[], longLink_resolved, fun walk => ?_⟩
  rw [split] at walk
  cases longLink_walk walk

end Myos.Fs
