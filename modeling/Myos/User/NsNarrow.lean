import Myos.Lib.System
import Myos.Task.NsSpec
import Myos.User.SysNs

namespace Myos.User
open Lib Myos.Sec Myos.Task.Ns Myos.Fs

/-- The caller can bind the real path: some word of a specification resolves to it, and it exists. -/
def Bindable (v : View) (source : Path) : Prop :=
  ∃ word : List Char, word ≠ [] ∧ (∀ c ∈ word, isWhitespace c = false) ∧
    v.resolveUserPath (utf8 word) = some ⟨false, source⟩ ∧ (v.stat ⟨false, source⟩).isSome = true

/-- No binding of the caller's hides from it a part of what it can bind. -/
def SourcesWhole (v : View) : Prop := ∀ source, Bindable v source → ∀ rest, Names v.ns (source ++ rest)

theorem mem_of_mem_splitOnP {α : Type*} (p : α → Bool) {xs part : List α} (split : part ∈ xs.splitOnP p)
    {x : α} (member : x ∈ part) : p x = false := by
  induction xs generalizing part with
  | nil =>
    rw [List.splitOnP_nil, List.mem_singleton] at split
    rw [split] at member
    cases member
  | cons y xs ih =>
    rw [List.splitOnP_cons_eq_if_modifyHead] at split
    by_cases sep : p y = true
    · rw [if_pos sep, List.mem_cons] at split
      obtain rfl | split := split
      · cases member
      · exact ih split member
    rw [if_neg sep] at split
    cases parts : xs.splitOnP p with
    | nil =>
      rw [parts] at split
      cases split
    | cons head tail =>
      rw [parts, List.modifyHead_cons, List.mem_cons] at split
      obtain rfl | split := split
      · obtain rfl | member := List.mem_cons.mp member
        · exact eq_false_of_ne_true sep
        · exact ih (parts ▸ List.mem_cons_self ..) member
      · exact ih (parts ▸ List.mem_cons_of_mem _ split) member

variable {spec word : List Char} {m : Namespace} {source : Path} {v : View}

theorem mem_splitWhitespace {line : List Char} (member : word ∈ splitWhitespace line) :
    word ≠ [] ∧ ∀ c ∈ word, isWhitespace c = false := by
  obtain ⟨split, nonempty⟩ := List.mem_filter.mp member
  exact ⟨of_decide_eq_true nonempty, fun c inside => mem_of_mem_splitOnP _ split inside⟩

theorem mapM_mem {α β : Type} {f : α → Option β} {xs : List α} {ys : List β} (mapped : xs.mapM f = some ys) {y : β}
    (member : y ∈ ys) : ∃ x ∈ xs, f x = some y := by
  induction xs generalizing ys with
  | nil =>
    cases mapped
    cases member
  | cons x xs ih =>
    rw [List.mapM_cons] at mapped
    obtain ⟨first, here, mapped⟩ := Option.bind_eq_some_iff.mp mapped
    obtain ⟨others, there, mapped⟩ := Option.bind_eq_some_iff.mp mapped
    cases mapped
    obtain rfl | member := List.mem_cons.mp member
    · exact ⟨x, List.mem_cons_self .., here⟩
    · obtain ⟨x', inside, same⟩ := ih there member
      exact ⟨x', List.mem_cons_of_mem _ inside, same⟩

theorem bindLine_bindable {line : List Char} {b : Binding} (made : bindLine v line = some b) :
    Bindable v b.source ∧ ∃ rights, b.rights = rights &&& nsRights v.ns b.source := by
  unfold bindLine at made
  split at made
  · rename_i target source rest words
    obtain ⟨rights, -, made⟩ := Option.bind_eq_some_iff.mp made
    obtain ⟨path, -, made⟩ := Option.bind_eq_some_iff.mp made
    obtain ⟨real, resolved, made⟩ := Option.bind_eq_some_iff.mp made
    split at made
    · cases made
    rename_i exists_
    cases made
    have isWord : source ∈ splitWhitespace line := by simp [words]
    obtain ⟨nonempty, plain⟩ := mem_splitWhitespace isWord
    obtain ⟨made, comps⟩ := real
    simp only [RealPath.synthetic, Bool.or_eq_true, Option.isNone_iff_eq_none, not_or,
      Bool.not_eq_true] at exists_
    obtain ⟨rfl, present⟩ := exists_
    exact ⟨⟨source, nonempty, plain, resolved, Option.isSome_iff_ne_none.mpr present⟩, rights, rfl⟩
  · cases made

variable (accepted : sysNs v spec = some m)
include accepted

theorem sysNs_bindable {b : Binding}
    (member : b ∈ m.binds) : Bindable v b.source ∧ ∃ rights, b.rights = rights &&& nsRights v.ns b.source := by
  unfold sysNs at accepted
  split at accepted
  · cases accepted
  · obtain ⟨binds, mapped, rfl⟩ := Option.map_eq_some_iff.mp accepted
    obtain ⟨line, -, made⟩ := mapM_mem mapped member
    exact bindLine_bindable made

theorem sysNs_rights (p : Path)
    (i : Nat) (inside : i < 16) (granted : (m.rights p)[i] = true) : (nsRights v.ns p)[i] = true := by
  obtain ⟨b, member, above, set⟩ := (Namespace.getElem_rights p i inside).mp granted
  obtain ⟨-, rights, narrowed⟩ := sysNs_bindable accepted member
  rw [narrowed, BitVec.getElem_and, Bool.and_eq_true] at set
  exact nsRights_mono v.ns above i inside set.2

theorem sysNs_names
    (whole : SourcesWhole v) {p : Path} (named : Names (some m) p) : Names v.ns p := by
  obtain ⟨virt, mapped⟩ := named m rfl
  obtain ⟨b, rest, member, -, rfl, -⟩ := Namespace.map_eq_real mapped
  exact whole b.source (sysNs_bindable accepted member).1 rest

theorem sysNs_narrows
    (whole : SourcesWhole v) : Narrows v.ns (some m) := by
  intro p r named granted
  refine ⟨sysNs_names accepted whole named, ?_⟩
  rw [Rights.contains_iff_bits] at granted ⊢
  exact fun i inside asked => sysNs_rights accepted p i inside (granted i inside asked)

omit accepted

theorem length_utf8 (text : List Char) : (utf8 text).length = byteLen text := by
  simp only [utf8, byteLen, List.length_flatMap]
  congr 1
  exact List.map_congr_left fun c _ => String.length_utf8EncodeChar c

theorem resolveAgainstCwd_short {cwd : Path} {path : List UInt8} {virt : Path}
    (resolved : resolveAgainstCwd cwd path = some virt) : path.length ≤ PATH_MAX := by
  by_cases plain : path = [] ∨ path = DOT
  · obtain rfl | rfl := plain <;> decide
  simp only [resolveAgainstCwd, if_neg plain, Option.ite_none_left_eq_some] at resolved
  have short := resolved.1
  split_ifs at short
  · omega
  · rw [List.length_cons] at short
    omega
  · rw [List.length_append, List.length_cons] at short
    omega

theorem resolveUserPath_short {path : List UInt8} {real : RealPath}
    (resolved : v.resolveUserPath path = some real) : path.length ≤ PATH_MAX := by
  obtain ⟨real', walked, -⟩ := Option.bind_eq_some_iff.mp resolved
  have lookup : ∃ virt, v.resolveUserPathVirtual path = some virt := by
    unfold View.resolveUserPathWalk at walked
    split at walked
    all_goals
      obtain ⟨virt, found, -⟩ := Option.bind_eq_some_iff.mp walked
      exact ⟨virt, found⟩
  obtain ⟨virt, found⟩ := lookup
  unfold View.resolveUserPathVirtual at found
  split at found
  · exact resolveAgainstCwd_short found
  · obtain ⟨cwd, -, found⟩ := Option.bind_eq_some_iff.mp found
    exact resolveAgainstCwd_short found

def rootLine (word : List Char) : List Char := '/' :: ' ' :: word

theorem dropWhile_of_head {α : Type*} {p : α → Bool} {xs : List α} (first : ∀ x ∈ xs.head?, p x = false) :
    xs.dropWhile p = xs := by
  cases xs with
  | nil => rfl
  | cons x xs => exact List.dropWhile_cons_of_neg (by simp [first x rfl])

theorem trim_rootLine (nonempty : word ≠ []) (plain : ∀ c ∈ word, isWhitespace c = false) :
    trim (rootLine word) = rootLine word := by
  have front : (rootLine word).dropWhile isWhitespace = rootLine word := dropWhile_of_head (by simp [rootLine]; decide)
  have back : (rootLine word).reverse.dropWhile isWhitespace = (rootLine word).reverse := by
    refine dropWhile_of_head fun c last => plain c ?_
    rw [List.head?_reverse, rootLine, List.getLast?_cons_cons] at last
    rw [List.getLast?_cons_of_ne_nil nonempty] at last
    exact List.mem_of_getLast? last
  rw [trim, front, back, List.reverse_reverse]

theorem splitWhitespace_rootLine (nonempty : word ≠ [])
    (plain : ∀ c ∈ word, isWhitespace c = false) : splitWhitespace (rootLine word) = [['/'], word] := by
  have split : (rootLine word).splitOnP isWhitespace = [['/'], word] := by
    have parts := List.splitOnP_append_cons (p := isWhitespace) ['/'] word (show isWhitespace ' ' = true from rfl)
    rw [List.splitOnP_eq_singleton plain] at parts
    exact parts
  simp [splitWhitespace, split, nonempty]

theorem specLines_rootLine (nonempty : word ≠ []) (plain : ∀ c ∈ word, isWhitespace c = false) :
    specLines (rootLine word) = [rootLine word] := by
  have single : (rootLine word).splitOn '\n' = [rootLine word] := by
    refine List.splitOnP_eq_singleton fun c member => ?_
    obtain rfl | rfl | member := (by simpa [rootLine] using member : c = '/' ∨ c = ' ' ∨ c ∈ word)
    · decide
    · decide
    have isPlain := plain c member
    by_contra isNewline
    rw [Bool.not_eq_false, beq_iff_eq] at isNewline
    rw [isNewline] at isPlain
    exact absurd isPlain (by decide)
  rw [specLines, single, List.map_singleton, trim_rootLine nonempty plain]
  rfl

theorem bindLine_rootLine (nonempty : word ≠ [])
    (plain : ∀ c ∈ word, isWhitespace c = false) (resolved : v.resolveUserPath (utf8 word) = some ⟨false, source⟩)
    (present : (v.stat ⟨false, source⟩).isSome = true) :
    bindLine v (rootLine word) = some ⟨[], source, Rights.ALL &&& nsRights v.ns source⟩ := by
  have rights : parseRights ['a', 'l', 'l'] = some Rights.ALL := by decide
  have target : resolveAgainstCwd [] (utf8 ['/']) = some [] := by decide
  obtain ⟨dir, stat⟩ := Option.isSome_iff_exists.mp present
  simp [bindLine, splitWhitespace_rootLine nonempty plain, rights, target, resolved, RealPath.synthetic, stat]

theorem sysNs_rootLine (bindable : Bindable v source) :
    ∃ spec, sysNs v spec = some ⟨[⟨[], source, Rights.ALL &&& nsRights v.ns source⟩]⟩ := by
  obtain ⟨word, nonempty, plain, resolved, present⟩ := bindable
  have short := resolveUserPath_short resolved
  rw [length_utf8] at short
  have size : byteLen (rootLine word) = 2 + byteLen word := by
    simp only [rootLine, byteLen, List.map_cons, List.sum_cons, ← Nat.add_assoc]
    rfl
  refine ⟨rootLine word, ?_⟩
  rw [sysNs, if_neg, specLines_rootLine nonempty plain]
  · simp [bindLine_rootLine nonempty plain resolved present]
  · rw [size]
    simp only [NS_SPEC_MAX, PATH_MAX] at short ⊢
    omega

theorem sourcesWhole_of_narrows
    (narrows : ∀ spec m, sysNs v spec = some m → Narrows v.ns (some m)) : SourcesWhole v := by
  intro source bindable rest
  obtain ⟨spec, accepted⟩ := sysNs_rootLine bindable
  have named : Names (some ⟨[⟨[], source, Rights.ALL &&& nsRights v.ns source⟩]⟩) (source ++ rest) := by
    rintro m ⟨⟩
    exact ⟨rest, Namespace.map_root source rest _⟩
  exact (narrows spec _ accepted (source ++ rest) Rights.NONE named ((Rights.contains_iff_bits ..).mpr (by simp [Rights.NONE]))).1

theorem virtualToReal_named {virt : Path} (mapped : v.virtualToReal virt = some ⟨false, source⟩) :
    Names v.ns source := by
  intro n same
  unfold View.virtualToReal at mapped
  rw [same] at mapped
  refine ⟨virt, ?_⟩
  cases leads : n.map virt with
  | none => simp [leads] at mapped
  | some place =>
    cases place with
    | real r =>
      simp only [leads, Option.ite_none_left_eq_some, Option.some.injEq, RealPath.mk.injEq, true_and] at mapped
      rw [mapped.2]
    | synthetic => simp [leads] at mapped

theorem Bindable.named (bindable : Bindable v source) : Names v.ns source := by
  obtain ⟨word, -, -, resolved, -⟩ := bindable
  obtain ⟨real, walked, resolved⟩ := Option.bind_eq_some_iff.mp resolved
  obtain ⟨-, same⟩ := Option.ite_none_left_eq_some.mp resolved
  cases same
  unfold View.resolveUserPathWalk at walked
  split at walked
  · rename_i bare
    intro n same
    simp [same] at bare
  obtain ⟨virt, -, walked⟩ := Option.bind_eq_some_iff.mp walked
  split at walked
  all_goals
    obtain ⟨followed, -, mapped⟩ := Option.bind_eq_some_iff.mp walked
    exact virtualToReal_named mapped

theorem sourcesWhole_of_flat (flat : ∀ n, v.ns = some n → n.Flat) : SourcesWhole v := by
  intro source bindable rest n same
  obtain ⟨virt, mapped⟩ := bindable.named n same
  obtain ⟨b, tail, member, -, rfl, -⟩ := Namespace.map_eq_real mapped
  exact ⟨b.target ++ (tail ++ rest), by rw [(flat n same).map_below member, List.append_assoc]⟩

structure NsCall where
  cwd : Option Path
  symlinksPossible : Bool
  readlink : RealPath → Option (List UInt8)
  stat : RealPath → Option Bool
  spec : List Char

def NsCall.view (call : NsCall) (n : Option Namespace) : View :=
  ⟨n, call.cwd, call.symlinksPossible, call.readlink, call.stat⟩

def nsSystem (first : Option Namespace) : System (Option Namespace) NsCall :=
  ⟨(· = first), fun n call => (sysNs (call.view n) call.spec).map some⟩

theorem reach_narrows {first n : Option Namespace}
    (reachable : (nsSystem first).Reach (fun n call => SourcesWhole (call.view n)) n) : Narrows first n := by
  refine reachable.invariant ?_ ?_
  · rintro n rfl
    exact Narrows.refl n
  · intro n call next narrowed whole stepped
    exact Lib.mapped stepped fun m accepted => narrowed.trans (sysNs_narrows accepted whole)

theorem sysNs_narrows_iff_sourcesWhole (v : View) (first n : Option Namespace) :
    ((∀ spec m, sysNs v spec = some m → Narrows v.ns (some m)) ↔ SourcesWhole v) ∧
      ((nsSystem first).Reach (fun n call => SourcesWhole (call.view n)) n → Narrows first n) :=
  ⟨⟨sourcesWhole_of_narrows, fun whole _ _ accepted => sysNs_narrows accepted whole⟩, reach_narrows⟩

def HOME : Name := [104, 111, 109, 101]
def TMP : Name := [116, 109, 112]
def KEYS : Name := [107, 101, 121, 115]

def allFiles (spec : String) : NsCall := ⟨some [], false, fun _ => none, fun _ => some true, spec.toList⟩

/-- A process confined to `/home` takes `/home/keys` as its `/`. -/
theorem sysNs_narrows_iff_sourcesWhole_chroot :
    let home : Namespace := ⟨[⟨[], [HOME], Rights.ALL⟩]⟩
    let keys : Namespace := ⟨[⟨[], [HOME, KEYS], Rights.READ⟩]⟩
    (nsSystem (some home)).Reach (fun n call => SourcesWhole (call.view n)) (some keys) ∧
      Narrows (some home) (some keys) := by
  intro home keys
  have reached : (nsSystem (some home)).Reach (fun n call => SourcesWhole (call.view n)) (some keys) := by
    have stepped : (nsSystem (some home)).step (some home) (allFiles "/ /keys read") = some (some keys) := by decide
    refine .next (.start rfl) (sourcesWhole_of_flat ?_) stepped
    rintro n ⟨⟩ b isFirst c isSecond -
    rw [List.mem_singleton.mp isFirst, List.mem_singleton.mp isSecond]
  exact ⟨reached, (sysNs_narrows_iff_sourcesWhole ((allFiles "").view none) _ _).2 reached⟩

def overlaid : Namespace := ⟨[⟨[], [], Rights.ALL⟩, ⟨[HOME], [TMP], Rights.ALL⟩]⟩

theorem overlaid_hides : ¬ Names (some overlaid) [HOME, KEYS] := by
  intro named
  obtain ⟨virt, mapped⟩ := named overlaid rfl
  obtain ⟨b, rest, member, rfl, same, longest⟩ := Namespace.map_eq_real mapped
  simp only [overlaid, List.mem_cons, List.not_mem_nil, or_false] at member
  obtain rfl | rfl := member
  · have above : [HOME] <+: [] ++ rest := same ▸ List.prefix_append [HOME] [KEYS]
    exact absurd (longest ⟨[HOME], [TMP], Rights.ALL⟩ (by simp [overlaid]) above) (by decide)
  · exact absurd (List.cons.inj same).1 (by decide)

theorem overlaid_bound_again : ¬ ∀ v spec m, sysNs v spec = some m → Narrows v.ns (some m) := by
  intro narrows
  have accepted : sysNs ((allFiles "").view (some overlaid)) "/ /".toList =
      some ⟨[⟨[], [], Rights.ALL⟩]⟩ := by rfl
  have named : Names (some ⟨[⟨[], [], Rights.ALL⟩]⟩) [HOME, KEYS] := by
    rintro m ⟨⟩
    exact ⟨[HOME, KEYS], Namespace.map_root [] [HOME, KEYS] _⟩
  exact overlaid_hides (narrows _ _ _ accepted [HOME, KEYS] Rights.READ named (by decide)).1

end Myos.User
