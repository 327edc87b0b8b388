import Myos.Task.FileIo

namespace Myos.Task.FileIo
open Lib Checked Fs.Io

/-- Every file's size is one its file system holds, and every position one `lseek` could set. -/
structure Files.Wf (files : Files) : Prop where
  nodes : ∀ node, (files.nodes node).Wf
  opens : ∀ id file, files.opens id = some file → file.pos < 2 ^ 63

namespace Files

variable {files : Files} {id node pos : Nat} {file : File}

theorem Wf.setNode (wf : files.Wf) (fits : file.Wf) : (files.setNode node file).Wf := by
  refine ⟨fun n => ?_, wf.opens⟩
  show (if n = node then file else files.nodes n).Wf
  split
  · exact fits
  · exact wf.nodes n

theorem Wf.setPos (wf : files.Wf) (below : pos < 2 ^ 63) : (files.setPos id pos).Wf := by
  refine ⟨wf.nodes, fun i file found => ?_⟩
  change (if i = id then (files.opens id).map ({ · with pos }) else files.opens i) = some file at found
  split at found
  · obtain ⟨old, _, same⟩ := Option.map_eq_some_iff.mp found
    rw [← same]
    exact below
  · exact wf.opens i file found

theorem setPos_same {old : OpenFile} (found : files.opens id = some old) : files.setPos id old.pos = files := by
  unfold Files.setPos
  congr 1
  funext i
  split
  · rename_i same
    rw [same, found]
    rfl
  · rfl

end Files

theorem addable_of_lt {pos len : Nat} (file : File) (fits : pos + len < 2 ^ 64) : file.Addable pos len := by
  cases file with
  | tmpfs data => trivial
  | ext2 g size => trivial
  | fat cluster flen => exact fits

namespace Caller

variable {caller : Caller} {files : Files} {fd buf len : Nat} {off : Option Nat}

variable {id n pos : Nat} {file : OpenFile}

theorem openFile_opens (found : caller.openFile files fd = some (id, file)) :
    files.opens id = some file := by
  obtain ⟨i, _, found⟩ := Option.bind_eq_some_iff.mp found
  obtain ⟨f, found, same⟩ := Option.map_eq_some_iff.mp found
  cases same
  exact found

theorem bufferOk_fits {start : Nat} (ok : caller.bufferOk start n = true) : start + n < 2 ^ 64 :=
  of_decide_eq_true (Bool.and_eq_true_iff.mp ok).1

theorem userBufOk_fits {start : Nat} (positive : n ≠ 0) (ok : caller.userBufOk start n = true) : start + n < 2 ^ 64 := by
  rcases Bool.or_eq_true_iff.mp ok with none | ok
  · exact absurd (beq_iff_eq.mp none) positive
  · exact bufferOk_fits ok

theorem safe_readRest {file : File} (wf : file.Wf) (fuel total : Nat) (within : total ≤ len)
    (last : pos + total ≤ LIMIT) (fits : buf + total < 2 ^ 64) :
    Safe (caller.readRest file pos buf len fuel total) fun n => n ≤ len ∧ pos + n ≤ LIMIT := by
  have limit : LIMIT = 2 ^ 45 := rfl
  have piece : FILE_READ_TMP = 16384 := rfl
  induction fuel generalizing total with
  | zero => exact ⟨within, last⟩
  | succ fuel ih =>
    unfold readRest
    split
    · exact ⟨within, last⟩
    refine (safe_sub within).bind fun left same => (safe_add (by omega)).bind fun start same => ?_
    subst same
    refine (File.safe_vfsRead (caller.env total) wf (pos + total) (by omega)).bind fun n read => ?_
    split
    · exact ⟨within, last⟩
    refine Safe.add fits ?_
    split
    · exact ⟨within, last⟩
    rename_i ok
    have mapped : caller.bufferOk (buf + total) n = true := by
      cases known : caller.bufferOk (buf + total) n with
      | true => rfl
      | false => exact absurd (by rw [known]; rfl) ok
    have ends := bufferOk_fits mapped
    refine Safe.add (by omega) ?_
    split
    · exact ⟨by omega, by omega⟩
    · exact ih (total + n) (by omega) (by omega) (by omega)

theorem readRest_fuel {file : File} (fuel total : Nat) (enough : len ≤ total + fuel) :
    caller.readRest file pos buf len (fuel + 1) total = caller.readRest file pos buf len fuel total := by
  induction fuel generalizing total with
  | zero => exact if_pos enough
  | succ fuel ih =>
    rw [readRest, readRest]
    split
    · rfl
    refine bind_congr_ok fun left _ => bind_congr_ok fun start _ => bind_congr_ok fun n _ => ?_
    split
    · rfl
    refine bind_congr_ok fun start _ => ?_
    split
    · rfl
    refine bind_congr_ok fun next added => ?_
    split
    · rfl
    · exact ih next (by rw [add_eq_ok added]; omega)

theorem safe_readMore {file : File} (wf : file.Wf)
    (last : n = 0 ∨ pos + n ≤ LIMIT) (fits : buf + n < 2 ^ 64) :
    Safe (caller.readMore file pos buf len n) fun total => total = 0 ∨ pos + total ≤ LIMIT := by
  have piece : FILE_READ_TMP = 16384 := rfl
  unfold readMore
  split
  · exact (safe_readRest wf len n (by omega) (last.resolve_left (by omega)) fits).mono fun total read => .inr read.2
  · exact last

theorem safe_fdRead (wf : files.Wf) (fd : Nat) (word : len < 2 ^ 64) :
    Safe (caller.fdRead files fd buf len off) fun out => out.1.Wf := by
  have limit : LIMIT = 2 ^ 45 := rfl
  have piece : FILE_READ_TMP = 16384 := rfl
  unfold fdRead
  split
  · exact wf
  split
  · exact wf
  rename_i positive ok
  have fits := userBufOk_fits (by omega) (Bool.not_eq_false _ ▸ ok)
  cases found : caller.openFile files fd with
  | none => exact wf
  | some entry =>
    obtain ⟨id, file⟩ := entry
    have below := wf.opens id file (openFile_opens found)
    dsimp only
    split
    · exact wf
    refine (File.safe_readOrWait (caller.env 0) (wf.nodes file.node) (off.getD file.pos) (by omega)).bind fun n read => ?_
    split
    · exact wf
    refine (safe_readMore (wf.nodes file.node) read.2 (by omega)).bind fun total last => ?_
    cases off with
    | some base => exact wf
    | none =>
      change total = 0 ∨ file.pos + total ≤ LIMIT at last
      refine Safe.add (by omega) ?_
      exact wf.setPos (by omega)

def Ready (caller : Caller) (files : Files) (fd len : Nat) (off : Option Nat) (total : Nat) : Prop :=
  ∀ entry ∈ caller.openFile files fd, entry.2.append = false → ∀ base ∈ off,
    (files.nodes entry.2.node).Addable (base + total) (min (len - total) FILE_IO_TMP)

instance (files : Files) (fd len : Nat) (off : Option Nat) (total : Nat) :
    Decidable (caller.Ready files fd len off total) :=
  inferInstanceAs (Decidable (∀ entry ∈ caller.openFile files fd, entry.2.append = false → ∀ base ∈ off,
    (files.nodes entry.2.node).Addable (base + total) (min (len - total) FILE_IO_TMP)))

theorem addable_writePos (wf : files.Wf) {total : Nat}
    (found : caller.openFile files fd = some (id, file)) (ready : caller.Ready files fd len off total)
    (placed : writePos file (files.nodes file.node).size total off = some pos) :
    (files.nodes file.node).Addable pos (min (len - total) FILE_IO_TMP) := by
  have piece : FILE_IO_TMP = 8192 := rfl
  have below := wf.opens id file (openFile_opens found)
  have atEnd : (files.nodes file.node).Addable (files.nodes file.node).size (min (len - total) FILE_IO_TMP) := by
    have fits := wf.nodes file.node
    cases known : files.nodes file.node with
    | tmpfs data => trivial
    | ext2 g size => trivial
    | fat cluster flen =>
      rw [known] at fits
      have largest : U32_MAX = 2 ^ 32 - 1 := rfl
      have short := fits.2
      exact addable_of_lt (.fat cluster flen) (show flen + _ < _ by omega)
  cases off with
  | none =>
    dsimp only [writePos] at placed
    split at placed
    all_goals cases placed
    · exact atEnd
    · exact addable_of_lt _ (by omega)
  | some base =>
    dsimp only [writePos] at placed
    split at placed
    · cases placed
      exact atEnd
    · rename_i plain
      split at placed <;> cases placed
      exact ready (id, file) found (Bool.not_eq_true _ ▸ plain) base rfl

theorem safe_movedTo (off : Option Nat) {old : Nat} (below : old < 2 ^ 63) (last : pos + n ≤ LIMIT) :
    Safe (movedTo off old pos n) fun moved => moved < 2 ^ 63 ∧ ∀ base, off = some base → moved = old := by
  have limit : LIMIT = 2 ^ 45 := rfl
  cases off with
  | some base => exact ⟨below, fun _ _ => rfl⟩
  | none =>
    refine (safe_add (by omega)).mono fun moved same => ⟨by omega, fun base absent => ?_⟩
    cases absent

theorem ready_next {total moved : Nat} {after : File}
    (found : caller.openFile files fd = some (id, file))
    (placed : writePos file (files.nodes file.node).size total off = some pos) (last : pos + n ≤ LIMIT)
    (stays : ∀ base, off = some base → moved = file.pos) :
    caller.Ready ((files.setNode file.node after).setPos id moved) fd len off (total + n) := by
  rintro ⟨id', file'⟩ found' plain base given
  have limit : LIMIT = 2 ^ 45 := rfl
  have piece : FILE_IO_TMP = 8192 := rfl
  have opened : (files.setNode file.node after).opens id = some file := openFile_opens found
  rw [stays base given, Files.setPos_same opened] at found'
  have same : some (id, file) = some (id', file') := found.symm.trans found'
  cases same
  rw [given] at placed
  dsimp only [writePos] at placed
  rw [plain, if_neg Bool.false_ne_true] at placed
  split at placed
  all_goals cases placed
  exact addable_of_lt _ (by omega)

theorem safe_writeChunks (fuel total : Nat) (wf : files.Wf) (within : total ≤ len)
    (fits : buf + total < 2 ^ 64) (ready : caller.Ready files fd len off total) :
    Safe (caller.writeChunks fd buf len off fuel total files) fun out => out.1.Wf := by
  have piece : FILE_IO_TMP = 8192 := rfl
  induction fuel generalizing total files with
  | zero => exact wf
  | succ fuel ih =>
    unfold writeChunks
    split
    · exact wf
    refine (safe_sub within).bind fun left same => (safe_add fits).bind fun start first => ?_
    subst same first
    split
    · exact wf
    rename_i more ok
    have mapped : caller.userBufOk (buf + total) (min (len - total) FILE_IO_TMP) = true := by
      cases known : caller.userBufOk (buf + total) (min (len - total) FILE_IO_TMP) with
      | true => rfl
      | false => exact absurd (by rw [known]; rfl) ok
    have ends := userBufOk_fits (by omega) mapped
    cases found : caller.openFile files fd with
    | none => exact wf
    | some entry =>
      obtain ⟨id, file⟩ := entry
      dsimp only
      split
      · exact wf
      rename_i pos placed
      split at placed
      case isFalse => cases placed
      have addable := addable_writePos wf found ready placed
      have length : (caller.bytes (buf + total) (min (len - total) FILE_IO_TMP)).length =
          min (len - total) FILE_IO_TMP := by
        rw [bytes, List.length_map, List.length_range]
      rw [← length] at addable
      refine (File.safe_write (caller.env total) (wf.nodes file.node) addable).bind fun out wrote => ?_
      obtain ⟨after, written⟩ := out
      have kept : (files.setNode file.node after).Wf := wf.setNode wrote.1
      cases written with
      | error e => exact kept
      | ok n =>
        have count := wrote.2 n rfl
        dsimp only
        split
        · exact kept
        rename_i positive
        have last := count.2.resolve_left positive
        refine (safe_movedTo off (wf.opens id file (openFile_opens found)) last).bind fun moved stays => ?_
        refine Safe.add (by omega) ?_
        exact ih (total + n) (kept.setPos stays.1) (by omega) (by omega) (ready_next found placed last stays.2)

theorem writeChunks_fuel (fuel total : Nat) (enough : len ≤ total + fuel) :
    caller.writeChunks fd buf len off (fuel + 1) total files = caller.writeChunks fd buf len off fuel total files := by
  induction fuel generalizing total files with
  | zero => exact if_pos enough
  | succ fuel ih =>
    rw [writeChunks, writeChunks]
    split
    · rfl
    refine bind_congr_ok fun left _ => bind_congr_ok fun start _ => ?_
    split
    · rfl
    split
    · rfl
    split
    · rfl
    refine bind_congr_ok fun out _ => ?_
    obtain ⟨after, written⟩ := out
    cases written with
    | error e => rfl
    | ok n =>
      dsimp only
      split
      · rfl
      refine bind_congr_ok fun moved _ => bind_congr_ok fun next added => ?_
      exact ih next (by rw [add_eq_ok added]; omega)

theorem safe_fdWrite (wf : files.Wf) (first : buf < 2 ^ 64)
    (ready : caller.Ready files fd len off 0) : Safe (caller.fdWrite files fd buf len off) fun out => out.1.Wf :=
  safe_writeChunks len 0 wf (Nat.zero_le _) first ready

theorem safe_fdSetSize (wf : files.Wf) (fd : Nat) {size : Nat} (word : size < 2 ^ 64) :
    Safe (caller.fdSetSize files fd size) fun out => out.1.Wf := by
  unfold fdSetSize
  cases caller.openFile files fd with
  | none => exact wf
  | some entry =>
    dsimp only
    split
    · exact wf
    rcases (File.safe_setSize (caller.env 0) (wf.nodes entry.2.node) word).cases with ⟨out, resized, fits⟩ | ⟨e, failed⟩
    · rw [resized]
      exact wf.setNode fits
    · rw [failed]
      exact wf

theorem seekTo_lt (pos size : Nat) {offset : Int} (word : offset < 2 ^ 63) (whence : Nat) :
    seekTo pos size offset whence < 2 ^ 63 := by
  unfold seekTo
  split
  · exact word
  · unfold saturatingAdd
    omega
  · unfold saturatingAdd
    omega
  · decide

theorem wf_fdLseek (wf : files.Wf) (fd : Nat) {offset : Int} (word : offset < 2 ^ 63) (whence : Nat) :
    (caller.fdLseek files fd offset whence).1.Wf := by
  unfold fdLseek
  cases caller.openFile files fd with
  | none => exact wf
  | some entry =>
    dsimp only
    split
    · exact wf
    · have below := seekTo_lt entry.2.pos (files.nodes entry.2.node).size word whence
      exact wf.setPos (by omega)

end Caller
end Myos.Task.FileIo
