import Myos.Fs.Vfs
import Myos.Task.NsSpec

namespace Myos.Task.Ns.Namespace
open Lib

variable (n : Namespace)

def throughBindings (v : Fs.Vfs) (real : Path) : Option Path :=
  (maxByKey (fun entry => pathLen entry.2.1) (n.binds.filterMap fun b =>
    (v.unbind b.source).bind fun source => (below real source).map fun rest => (b, source, rest))).map
      fun (b, _, rest) => join b.target rest

def toVirtual (v : Fs.Vfs) (real : Path) : Option Path :=
  (v.unbind real).bind fun real =>
    (n.throughBindings v real).orElse fun _ => (v.boundNames real).findSome? (n.throughBindings v)

end Myos.Task.Ns.Namespace

namespace Myos.User.ListDir
open Myos.Fs Myos.Sec Myos.Task.Ns

def LISTDIR_MAX : Nat := 256 * 1024

def LISTDIR_NAME_MARGIN : Nat := 1024

def MAX_PATH : Nat := 256

def Component (name : Name) : Prop := name ≠ [] ∧ name.length < LISTDIR_NAME_MARGIN

/-- The tables of the tree and the caller's namespace; their paths come from calls that take at most `MAX_PATH`
bytes. -/
structure View where
  vfs : Vfs
  ns : Option Namespace
  mounts : ∀ m ∈ vfs.mounts, ∀ point ∈ m.point, ∀ name ∈ point, Component name
  binds : ∀ b ∈ vfs.binds, ∀ name ∈ b.target, Component name
  targets : ∀ n ∈ ns, ∀ b ∈ n.binds, ∀ name ∈ b.target, Component name

namespace View

variable (w : View)

def children (virt : Path) : List Name := (w.ns.map fun n => n.children virt).getD []

def toVirtual (real : Path) : Option Path := w.ns.bind fun n => n.toVirtual w.vfs real

def bound (real : Path) : List Name := (w.toVirtual real).elim [] w.children

end View

/-- A directory by its path in the caller's view, symlinks followed, or by its real path: an fd's, or one found
beneath a capability. -/
inductive Named
  | path (virt : Path)
  | fd (real : Path)

inductive Found
  | dir (real : Path)
  | made (virt : Path)

def virtualToReal (w : View) (virt : Path) : Option Found :=
  match w.ns with
  | none => some (.dir virt)
  | some n =>
    match n.map virt with
    | some (.real real) => if MAX_PATH < pathLen real then none else some (.dir real)
    | some .synthetic => if MAX_PATH < pathLen virt + 1 then none else some (.made virt)
    | none => none

def Named.found (w : View) : Named → Option Found
  | .path virt => virtualToReal w virt
  | .fd real => some (.dir real)

def withBoundNames (cap : Nat) (out : List UInt8) (names : List Name) : List UInt8 := mergeNames false cap out names

def Found.names (w : View) (cap : Nat) : Found → List UInt8
  | .dir real => withBoundNames cap (w.vfs.listdir cap real) (w.bound real)
  | .made virt => writeNames cap [] (w.children virt)

structure Call where
  cap : Nat
  range : Bool
  dir : Option Named
  may : Bool
  copied : Bool

def Call.room (c : Call) : Nat := min c.cap LISTDIR_MAX

def sysListdirat (w : View) (c : Call) : Option (List UInt8) :=
  if c.room = 0 ∨ c.range = false then none
  else
    (c.dir.bind fun d => d.found w).bind fun f =>
      if c.may = false ∨ c.copied = false then none
      else some ((f.names w (c.room + LISTDIR_NAME_MARGIN)).take c.room)

/-- What a real directory holds: what its filesystem has, what can be found there, and what is mounted or bound
there. -/
def View.Holds (w : View) (real : Path) (name : Name) : Prop :=
  (∃ m point rel, w.vfs.resolveIndex real = some (m, point, rel) ∧
    (name ∈ m.root.namesAt rel ∧ 0 ∉ name ∨ name ∈ w.vfs.mountNames (point ++ rel))) ∨
  (w.vfs.stat (real ++ [name])).isSome = true ∨ name ∈ w.vfs.bindNames real

/-- The path names in the directory are looked up at: the caller's own, or for an fd the one that paths relative to
it start from. -/
def Named.virt (w : View) : Named → Option Path
  | .path virt => some virt
  | .fd real => w.toVirtual real

def Named.Shows (w : View) (d : Named) (name : Name) : Prop :=
  (∃ virt, d.virt w = some virt ∧ name ∈ w.children virt) ∨ ∃ real, d.found w = some (.dir real) ∧ w.Holds real name

/-- The lines of a listing, each ended by its newline. -/
def lines (out : List UInt8) : List Name := (out.splitOn NL).dropLast

/-- A listing shorter than its buffer has every name on one line; another fills its buffer. -/
def Tells (w : View) (d : Named) (room : Nat) (out : List UInt8) : Prop :=
  if out.length < room then (lines out).Nodup ∧ ∀ name, name ∈ lines out ↔ d.Shows w name else out.length = room

def fitting : Nat → List Name → List Name
  | _, [] => []
  | cap, name :: rest => if cap < name.length + 1 then [] else name :: fitting (cap - (name.length + 1)) rest

def linesOf (names : List Name) : List Name := names.flatMap (List.splitOn NL)

/-- The lines of a listing with the names that are none of them yet, whatever their size. -/
def merge : List Name → List Name → List Name
  | l, [] => l
  | l, name :: rest => merge (if l.contains name then l else l ++ name.splitOn NL) rest

/-- The lines of the filesystem's names that fit, of mounts and of binds. -/
def vfsLines (v : Vfs) (cap : Nat) (real : Path) : List Name :=
  match v.resolveIndex real with
  | none => []
  | some (m, point, rel) =>
    merge (merge ((linesOf (fitting cap (m.root.namesAt rel))).filter fun line => 0 ∉ line)
      ((v.mountNames (point ++ rel)).filter fun child => child ≠ [] ∧ NL ∉ child))
      ((v.bindNames real).filter fun child => child ≠ [])

def Found.lines (w : View) (cap : Nat) : Found → List Name
  | .dir real => merge (vfsLines w.vfs cap real) (w.bound real)
  | .made virt => linesOf (w.children virt)

/-- Only the filesystem's own names are held to the longer buffer: the lines that these, the mounts, the binds and
the namespace make fill the caller's, or are the names of the directory, each once. -/
def Fits (w : View) (d : Named) (f : Found) (room : Nat) : Prop :=
  room ≤ size (f.lines w (room + LISTDIR_NAME_MARGIN)) ∨
    (f.lines w (room + LISTDIR_NAME_MARGIN)).Nodup ∧
      ∀ name, name ∈ f.lines w (room + LISTDIR_NAME_MARGIN) ↔ d.Shows w name

variable {w : View} {names l l' : List Name} {name : Name} {cap room : Nat} {stops : Bool}

theorem size_cons (name : Name) (rest : List Name) : size (name :: rest) = name.length + 1 + size rest := by
  simp [size]

theorem size_append (l l' : List Name) : size (l ++ l') = size l + size l' := by
  simp [size]

theorem text_modifyHead (b : UInt8) {l : List Name} (nonempty : l ≠ []) : text (l.modifyHead (b :: ·)) = b :: text l := by
  cases l with
  | nil => exact absurd rfl nonempty
  | cons name rest => simp [text]

theorem text_splitOn (name : Name) : text (name.splitOn NL) = name ++ [NL] := by
  rw [List.splitOn]
  induction name with
  | nil => rfl
  | cons b rest ih =>
    rw [List.splitOnP_cons_eq_if_modifyHead]
    split
    · rename_i newline
      rw [text_cons, ih, beq_iff_eq.mp newline]
      rfl
    · rw [text_modifyHead b (List.splitOnP_ne_nil _ _), ih]
      rfl

theorem whole_splitOn (name : Name) : ∀ line ∈ name.splitOn NL, NL ∉ line := by
  rw [List.splitOn]
  induction name with
  | nil => simp
  | cons b rest ih =>
    rw [List.splitOnP_cons_eq_if_modifyHead]
    split
    · exact List.forall_mem_cons.mpr ⟨List.not_mem_nil, ih⟩
    · rename_i other
      cases parts : List.splitOnP (· == NL) rest with
      | nil => exact absurd parts (List.splitOnP_ne_nil _ _)
      | cons first others =>
        rw [parts] at ih
        obtain ⟨here, ih⟩ := List.forall_mem_cons.mp ih
        refine List.forall_mem_cons.mpr ⟨fun newline => ?_, ih⟩
        rcases List.mem_cons.mp newline with same | later
        · exact other (beq_iff_eq.mpr same.symm)
        · exact here later

theorem text_linesOf (names : List Name) : text (linesOf names) = text names := by
  induction names with
  | nil => rfl
  | cons name rest ih =>
    have split : linesOf (name :: rest) = name.splitOn NL ++ linesOf rest := rfl
    rw [split, text, List.flatMap_append, ← text, ← text, ih, text_splitOn, text_cons]

theorem size_linesOf (names : List Name) : size (linesOf names) = size names := by
  rw [← text_length, text_linesOf, text_length]

theorem whole_linesOf (names : List Name) : ∀ line ∈ linesOf names, NL ∉ line := by
  intro line member
  obtain ⟨name, -, isLine⟩ := List.mem_flatMap.mp member
  exact whole_splitOn name line isLine

theorem text_concat (l : List Name) (name : Name) : text l ++ (name ++ [NL]) = text (l ++ name.splitOn NL) := by
  rw [← text_splitOn, text, text, text, List.flatMap_append]

theorem lines_text (whole : ∀ line ∈ l, NL ∉ line) : lines (text l) = l := by
  rw [lines, splitOn_text whole, List.dropLast_concat]

theorem bufContainsEntry_text (whole : ∀ line ∈ l, NL ∉ line) (nonempty : name ≠ []) :
    bufContainsEntry (text l) name = true ↔ name ∈ l := by
  rw [bufContainsEntry, splitOn_text whole]
  simp [nonempty]

theorem size_le_merge (l names : List Name) : size l ≤ size (merge l names) := by
  induction names generalizing l with
  | nil => exact Nat.le_refl _
  | cons name rest ih =>
    refine Nat.le_trans ?_ (ih _)
    split
    · exact Nat.le_refl _
    · rw [size_append]
      exact Nat.le_add_right ..

section Fitting

theorem writeNames_eq (cap : Nat) (out : List UInt8) (names : List Name) :
    writeNames (out.length + cap) out names = out ++ text (fitting cap names) := by
  induction names generalizing out cap with
  | nil => simp [writeNames, fitting, text]
  | cons name rest ih =>
    simp only [writeNames, fitting, Nat.add_lt_add_iff_left]
    split
    · simp [text]
    have room : out.length + cap = (out ++ (name ++ [NL])).length + (cap - (name.length + 1)) := by
      simp only [List.length_append, List.length_singleton]
      omega
    rw [room, ih, text_cons, List.append_assoc]

theorem writeNames_nil (cap : Nat) (names : List Name) :
    writeNames cap [] names = text (linesOf (fitting cap names)) := by
  simpa [text_linesOf] using writeNames_eq cap [] names

theorem size_fitting_le (cap : Nat) (names : List Name) : size (fitting cap names) ≤ size names := by
  induction names generalizing cap with
  | nil => exact Nat.le_refl _
  | cons name rest ih =>
    rw [fitting, size_cons]
    split
    · exact Nat.zero_le _
    · rw [size_cons]
      exact Nat.add_le_add_left (ih _) _

theorem fitting_components (cap : Nat) (components : ∀ name ∈ names, Component name) :
    cap < size (fitting cap names) + LISTDIR_NAME_MARGIN ∨ fitting cap names = names := by
  induction names generalizing cap with
  | nil => exact .inr rfl
  | cons name rest ih =>
    obtain ⟨⟨_, short⟩, components⟩ := List.forall_mem_cons.mp components
    rw [fitting]
    split
    · exact .inl (by omega)
    · rw [size_cons]
      exact (ih (cap - (name.length + 1)) components).imp (fun beyond => by omega) (congrArg (name :: ·))

end Fitting

/-- The lines of the shorter buffer and those of an unlimited one are the same, or both are beyond the caller's. -/
def Agrees (room : Nat) (l l' : List Name) : Prop := l = l' ∨ room < size l ∧ room < size l'

section Merge

variable (components : ∀ name ∈ names, Component name)
include components

theorem mergeNames_grows (stops : Bool) (cap : Nat) (whole : ∀ line ∈ l, NL ∉ line) :
    ∃ l', mergeNames stops cap (text l) names = text l' ∧ (∀ line ∈ l', NL ∉ line) ∧ size l ≤ size l' := by
  induction names generalizing l with
  | nil => exact ⟨l, rfl, whole, Nat.le_refl _⟩
  | cons name rest ih =>
    obtain ⟨-, components⟩ := List.forall_mem_cons.mp components
    rw [mergeNames]
    split
    · exact ih components whole
    split
    · split
      · exact ⟨l, rfl, whole, Nat.le_refl _⟩
      · exact ih components whole
    · obtain ⟨l', made, whole, more⟩ := ih components (l := l ++ name.splitOn NL)
        (List.forall_mem_append.mpr ⟨whole, whole_splitOn name⟩)
      rw [size_append] at more
      exact ⟨l', text_concat l name ▸ made, whole, by omega⟩

theorem mergeNames_agrees_self (stops : Bool) (room : Nat) (whole : ∀ line ∈ l, NL ∉ line) :
    ∃ l', mergeNames stops (room + LISTDIR_NAME_MARGIN) (text l) names = text l' ∧ (∀ line ∈ l', NL ∉ line) ∧
      Agrees room l' (merge l names) := by
  induction names generalizing l with
  | nil => exact ⟨l, rfl, whole, .inl rfl⟩
  | cons name rest ih =>
    obtain ⟨⟨nonempty, short⟩, others⟩ := List.forall_mem_cons.mp components
    by_cases listed : name ∈ l
    · rw [mergeNames, if_pos ((bufContainsEntry_text whole nonempty).mpr listed), merge,
        if_pos (List.contains_iff_mem.mpr listed)]
      exact ih others whole
    by_cases past : room + LISTDIR_NAME_MARGIN < (text l).length + (name.length + 1)
    · obtain ⟨l', made, whole', more⟩ := mergeNames_grows components stops (room + LISTDIR_NAME_MARGIN) whole
      rw [text_length] at past
      have least := size_le_merge l (name :: rest)
      exact ⟨l', made, whole', .inr ⟨by omega, by omega⟩⟩
    · rw [mergeNames, if_neg fun isLine => listed ((bufContainsEntry_text whole nonempty).mp isLine), if_neg past,
        text_concat, merge, if_neg (mt List.contains_iff_mem.mp listed)]
      exact ih others (List.forall_mem_append.mpr ⟨whole, whole_splitOn name⟩)

theorem mergeNames_agrees {full : List Name} (stops : Bool) (whole : ∀ line ∈ l, NL ∉ line) (agrees : Agrees room l full) :
    ∃ l', mergeNames stops (room + LISTDIR_NAME_MARGIN) (text l) names = text l' ∧ (∀ line ∈ l', NL ∉ line) ∧
      Agrees room l' (merge full names) := by
  rcases agrees with rfl | ⟨past, fullPast⟩
  · exact mergeNames_agrees_self components stops room whole
  · obtain ⟨l', made, whole', more⟩ := mergeNames_grows components stops (room + LISTDIR_NAME_MARGIN) whole
    exact ⟨l', made, whole', .inr ⟨Nat.lt_of_lt_of_le past more, Nat.lt_of_lt_of_le fullPast (size_le_merge ..)⟩⟩

end Merge

theorem View.children_components (w : View) (virt : Path) : ∀ name ∈ w.children virt, Component name := by
  unfold View.children
  cases isNs : w.ns with
  | none => exact nofun
  | some n =>
    refine List.foldlRecOn (motive := fun out => ∀ name ∈ out, Component name) n.binds _ (by simp) ?_
    intro out components b member
    split
    · rename_i name rest found
      split
      · exact components
      · have target : name ∈ b.target := by simp [below_eq_some.mp found]
        exact List.forall_mem_append.mpr
          ⟨components, List.forall_mem_singleton.mpr (w.targets n isNs b member name target)⟩
    · exact components

theorem View.bound_components (w : View) (real : Path) : ∀ name ∈ w.bound real, Component name := by
  unfold View.bound
  cases w.toVirtual real with
  | none => exact nofun
  | some virt => exact w.children_components virt

theorem View.mountNames_components (w : View) (dir : Path) : ∀ name ∈ w.vfs.mountNames dir, Component name := by
  intro name member
  obtain ⟨m, isMount, placed⟩ := List.mem_filterMap.mp member
  obtain ⟨point, isPoint, found⟩ := Option.bind_eq_some_iff.mp placed
  exact w.mounts m isMount point isPoint name (List.mem_of_getElem? (Option.ite_none_right_eq_some.mp found).2)

theorem View.bindNames_components (w : View) (real : Path) : ∀ name ∈ w.vfs.bindNames real, Component name := by
  intro name member
  obtain ⟨b, isBind, found⟩ := List.mem_filterMap.mp member
  exact w.binds b isBind name (List.mem_of_getLast? (Option.ite_none_right_eq_some.mp found).2)

theorem listdir_agrees (w : View) (room : Nat) (real : Path) :
    ∃ l, w.vfs.listdir (room + LISTDIR_NAME_MARGIN) real = text l ∧ (∀ line ∈ l, NL ∉ line) ∧
      Agrees room l (vfsLines w.vfs (room + LISTDIR_NAME_MARGIN) real) := by
  unfold Vfs.listdir vfsLines
  obtain resolved | ⟨⟨m, point, rel⟩, resolved⟩ := Option.eq_none_or_eq_some (w.vfs.resolveIndex real)
  · rw [resolved]
    exact ⟨[], rfl, nofun, .inl rfl⟩
  rw [resolved]
  dsimp only
  have whole := whole_linesOf (fitting (room + LISTDIR_NAME_MARGIN) (m.root.namesAt rel))
  rw [writeNames_nil, withoutHidden_text whole]
  obtain ⟨l₁, made₁, whole₁, agrees₁⟩ := mergeNames_agrees_self
    (fun name member => w.mountNames_components (point ++ rel) name (List.mem_filter.mp member).1) true room
    fun line member => whole line (List.mem_filter.mp member).1
  obtain ⟨l₂, made₂, whole₂, agrees₂⟩ := mergeNames_agrees
    (fun name member => w.bindNames_components real name (List.mem_filter.mp member).1) true whole₁ agrees₁
  refine ⟨l₂, ?_, whole₂, agrees₂⟩
  simp only [addNames]
  rw [made₁, made₂]

theorem Found.names_agrees (w : View) (room : Nat) (f : Found) :
    ∃ l, f.names w (room + LISTDIR_NAME_MARGIN) = text l ∧ (∀ line ∈ l, NL ∉ line) ∧
      Agrees room l (f.lines w (room + LISTDIR_NAME_MARGIN)) := by
  cases f with
  | dir real =>
    obtain ⟨l, made, whole, agrees⟩ := listdir_agrees w room real
    obtain ⟨l', made', whole', agrees'⟩ := mergeNames_agrees (w.bound_components real) false whole agrees
    exact ⟨l', by rw [Found.names, made]; exact made', whole', agrees'⟩
  | made virt =>
    refine ⟨_, writeNames_nil .., whole_linesOf _, ?_⟩
    rcases fitting_components (room + LISTDIR_NAME_MARGIN) (w.children_components virt) with beyond | all
    · have := size_fitting_le (room + LISTDIR_NAME_MARGIN) (w.children virt)
      refine .inr ?_
      rw [Found.lines, size_linesOf, size_linesOf]
      omega
    · rw [all]
      exact .inl rfl

theorem tells_text {d : Named} (whole : ∀ line ∈ l, NL ∉ line) : Tells w d room ((text l).take room) ↔
    room ≤ size l ∨ l.Nodup ∧ ∀ name, name ∈ l ↔ d.Shows w name := by
  rw [Tells, List.length_take, text_length]
  split
  · rw [List.take_of_length_le (by rw [text_length]; omega), lines_text whole, or_iff_right (by omega : ¬ room ≤ size l)]
  · exact iff_of_true (by omega) (.inl (by omega))

/-- One filesystem with one file. -/
def View.single (name : Name) (ns : Option Namespace) (targets : ∀ n ∈ ns, ∀ b ∈ n.binds, ∀ name ∈ b.target, Component name) :
    View where
  vfs := .rooted (.dir (.cons name .file .nil))
  ns := ns
  mounts := by
    rintro m member point placed
    cases List.mem_singleton.mp member
    cases placed
    exact nofun
  binds := nofun
  targets := targets

theorem holds_single {ns : Option Namespace} {targets : ∀ n ∈ ns, ∀ b ∈ n.binds, ∀ name ∈ b.target, Component name}
    {other : Name} (shown : 0 ∉ name) : (View.single name ns targets).Holds [] other ↔ other = name := by
  have resolved : (View.single name ns targets).vfs.resolveIndex [] = some (⟨some [], _⟩, [], []) :=
    Vfs.resolveIndex_rooted rfl
  constructor
  · rintro (⟨m, point, rel, isResolved, ⟨listed, -⟩ | mounted⟩ | found | bound)
    · cases resolved.symm.trans isResolved
      exact List.mem_singleton.mp listed
    · cases resolved.symm.trans isResolved
      cases mounted
    · cases hidden : [other].any (0 ∈ ·) with
      | true => simp [Vfs.stat, Vfs.resolveIndex, hidden] at found
      | false =>
        rw [List.nil_append, View.single, Vfs.stat_rooted hidden] at found
        by_contra apart
        simp [Tree.at_, Forest.find, Ne.symm apart] at found
    · cases bound
  · rintro rfl
    exact .inl ⟨_, _, _, resolved, .inl ⟨.head _, shown⟩⟩

/-- The root bound at `/b` and a file of its own at `/b/x`. -/
def boundBelow : Namespace := ⟨[⟨[[98]], [], Rights.ALL⟩, ⟨[[98], [120]], [[97]], Rights.ALL⟩]⟩

def bWithX : View := .single [97] (some boundBelow) (by
  rintro n ⟨⟩ b member name target
  simp only [boundBelow, List.mem_cons, List.not_mem_nil, or_false] at member
  rcases member with rfl | rfl <;> simp only [List.mem_cons, List.not_mem_nil, or_false] at target
  · exact target ▸ ⟨nofun, by decide⟩
  · rcases target with rfl | rfl <;> exact ⟨nofun, by decide⟩)

theorem sysListdirat_single_long {targets : ∀ n ∈ none, ∀ b ∈ Namespace.binds n, ∀ name ∈ b.target, Component name}
    (long : 512 + LISTDIR_NAME_MARGIN ≤ name.length) :
    sysListdirat (.single name none targets) ⟨512, true, some (.path []), true, true⟩ = some [] := by
  have wrote : writeNames (512 + LISTDIR_NAME_MARGIN) [] [name] = [] := if_pos (by simpa using Nat.lt_succ_of_le long)
  have listing : (View.single name none targets).vfs.listdir (512 + LISTDIR_NAME_MARGIN) [] = [] := by
    rw [View.single, Vfs.listdir_rooted _ rfl]
    exact congrArg withoutHidden wrote
  have names : (Found.dir []).names (.single name none targets) (512 + LISTDIR_NAME_MARGIN) = [] := by
    rw [Found.names, listing]
    rfl
  exact congrArg (fun out => some (List.take 512 out)) names

end Myos.User.ListDir
