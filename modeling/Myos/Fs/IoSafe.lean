import Myos.Fs.Io

namespace Myos.Fs.Io
open Lib Checked

namespace Tmpfs

variable {data : Bytes} {pos : Nat}

theorem safe_readAt (cap : data.length ≤ FILE_CAP) (pos len : Nat) :
    Safe (readAt data pos len) fun out => out.length ≤ len ∧ (0 < out.length → pos + out.length ≤ FILE_CAP) := by
  have limit : FILE_CAP = 134217728 := rfl
  unfold readAt
  dsimp only
  split
  · exact ⟨Nat.zero_le _, fun missing => by cases missing⟩
  refine Safe.add (by omega) ?_
  have length : ((data.take (pos + min len (data.length - pos))).drop pos).length = min len (data.length - pos) := by
    rw [List.length_drop, List.length_take]
    omega
  exact ⟨by rw [length]; omega, fun _ => by rw [length]; omega⟩

theorem safe_grown (reserve : Nat → Bool) {last : Nat} (cap : data.length ≤ FILE_CAP) :
    Safe (grown reserve data last) fun out => out.length = max data.length last := by
  unfold grown
  split
  · refine (safe_sub (by omega)).bind fun extra same => (safe_sub cap).bind fun room _ => ?_
    split
    · show List.length _ = _
      rw [List.length_append, List.length_replicate]
      omega
    · trivial
  · show List.length _ = _
    omega

theorem safe_writeAt (reserve : Nat → Bool) (buf : Bytes) (cap : data.length ≤ FILE_CAP) (pos : Nat) :
    Safe (writeAt reserve data pos buf) fun out => out.length ≤ FILE_CAP ∧ pos + buf.length ≤ FILE_CAP := by
  refine (safe_addOr _).bind fun last same => ?_
  split
  · trivial
  refine (safe_grown reserve cap).bind fun out length => ?_
  refine ⟨?_, by omega⟩
  rw [List.length_append, List.length_append, List.length_take, List.length_drop]
  omega

theorem safe_setSizeAt (reserve : Nat → Bool) (data : Bytes) (size : Nat) :
    Safe (setSizeAt reserve data size) fun out => out.length ≤ FILE_CAP := by
  unfold setSizeAt
  split
  · trivial
  split
  · refine Safe.sub (by omega) ?_
    split
    · show List.length _ ≤ _
      rw [List.length_append, List.length_replicate]
      omega
    · trivial
  · show List.length _ ≤ _
    rw [List.length_take]
    omega

end Tmpfs

namespace Ext2

variable {g : Geometry} {disk : Disk g}

def END : Nat := 2 ^ 44

theorem blockSize_cases (g : Geometry) : g.blockSize = 1024 ∨ g.blockSize = 2048 ∨ g.blockSize = 4096 := by
  obtain ⟨log, large⟩ := g
  match log with
  | 0 => exact .inl rfl
  | 1 => exact .inr (.inl rfl)
  | 2 => exact .inr (.inr rfl)

theorem ptrs_le (g : Geometry) : 0 < g.ptrs ∧ g.ptrs ≤ 1024 := by
  unfold Geometry.ptrs
  rcases blockSize_cases g with size | size | size <;> rw [size] <;> decide

theorem levels_span {p left span : Nat} (few : p ≤ 1024) (most : left < 3) (bound : span ≤ 1024 ^ (4 - (left + 1))) :
    1024 ^ (4 - (left + 1)) ≤ 1024 ^ 3 ∧ span * p ≤ 1024 ^ (4 - left) ∧ span * p < 2 ^ 64 := by
  have power : (1024 : Nat) ^ (4 - (left + 1)) ≤ 1024 ^ 3 := Nat.pow_le_pow_right (by decide) (by omega)
  have larger := Nat.mul_le_mul (Nat.le_trans bound power) few
  refine ⟨power, ?_, by omega⟩
  rw [show 4 - left = 4 - (left + 1) + 1 by omega, Nat.pow_succ]
  exact Nat.mul_le_mul bound few

theorem safe_mapLevels {p : Nat} (few : p ≤ 1024) (left level rest span : Nat) (most : left ≤ 3)
    (bound : span ≤ 1024 ^ (4 - left)) : Safe (mapLevels p left level rest span) fun _ => rest < left * 1024 ^ 3 := by
  induction left generalizing level rest span with
  | zero => trivial
  | succ left ih =>
    obtain ⟨power, product, small⟩ := levels_span few most bound
    unfold mapLevels
    split
    · show rest < _
      omega
    refine Safe.sub (by omega) (Safe.mul small ?_)
    refine (ih (level + 1) _ _ (by omega) product).mono fun _ inside => ?_
    omega

theorem safe_mapPath (g : Geometry) (n : Nat) : Safe (mapPath g n) fun _ => n < 2 ^ 32 := by
  have direct : NDIRECT = 12 := rfl
  have few := (ptrs_le g).2
  unfold mapPath
  split
  · show n < _
    omega
  · refine Safe.sub (by omega) ?_
    refine (safe_mapLevels few 3 0 _ _ (Nat.le_refl _) (by omega)).mono fun _ inside => ?_
    omega

theorem safe_bmap (disk : Disk g) (n : Nat) : Safe (bmap disk n) fun _ => n < 2 ^ 32 := by
  refine (safe_mapPath g n).bind fun _ inside => ?_
  split
  · exact inside
  · trivial

theorem piece_end {at_ : Nat} (left : Nat) (mapped : at_ / g.blockSize < 2 ^ 32) (positive : 0 < left) :
    0 < min (g.blockSize - at_ % g.blockSize) left ∧ at_ + min (g.blockSize - at_ % g.blockSize) left ≤ END := by
  have limit : END = 2 ^ 44 := rfl
  rcases blockSize_cases g with size | size | size <;> rw [size] at mapped ⊢ <;> omega

theorem safe_readLoop {pos want : Nat} (fits : pos + want < 2 ^ 64) (fuel done : Nat) (within : done ≤ want)
    (below : done = 0 ∨ pos + done ≤ END) :
    Safe (readLoop disk pos want fuel done) fun n => n ≤ want ∧ (n = 0 ∨ pos + n ≤ END) := by
  induction fuel generalizing done with
  | zero => exact ⟨within, below⟩
  | succ fuel ih =>
    unfold readLoop
    split
    · refine Safe.add (by omega) (Safe.sub within ?_)
      refine (safe_bmap disk _).bind fun _ mapped => ?_
      obtain ⟨_, ends⟩ := piece_end (want - done) mapped (by omega)
      refine Safe.add (by omega) ?_
      exact ih _ (by omega) (.inr (by omega))
    · exact ⟨within, below⟩

theorem safe_readData {size : Nat} (word : size < 2 ^ 64) (pos len : Nat) :
    Safe (readData disk size pos len) fun n => n ≤ len ∧ (n = 0 ∨ pos + n ≤ END) := by
  unfold readData
  split
  · exact ⟨Nat.zero_le _, .inl rfl⟩
  · refine Safe.sub (by omega) ?_
    refine (safe_readLoop (by omega) _ 0 (Nat.zero_le _) (.inl rfl)).mono fun n read => ⟨?_, read.2⟩
    exact Nat.le_trans read.1 (Nat.min_le_left _ _)

theorem safe_writeLoop {pos len : Nat} (fits : pos + len < 2 ^ 64) (fuel done size : Nat) (within : done ≤ len)
    (below : done = 0 ∨ pos + done ≤ END) (word : size < 2 ^ 64) :
    Safe (writeLoop disk pos len fuel done size) fun out =>
      out.1 ≤ len ∧ (out.1 = 0 ∨ pos + out.1 ≤ END) ∧ out.2 < 2 ^ 64 := by
  induction fuel generalizing done size with
  | zero => exact ⟨within, below, word⟩
  | succ fuel ih =>
    unfold writeLoop
    split
    · refine Safe.add (by omega) (Safe.sub within ?_)
      have blocks := safe_bmap disk ((pos + done) / g.blockSize)
      cases mapped : bmap disk ((pos + done) / g.blockSize) with
      | error fault =>
        cases fault with
        | overflow => exact absurd mapped blocks.not_overflows
        | error e =>
          dsimp only
          split
          · trivial
          · exact ⟨within, below, word⟩
      | ok b =>
        obtain ⟨_, ends⟩ := piece_end (len - done) (blocks.ok mapped) (by omega)
        refine Safe.add (by omega) (Safe.add (by omega) ?_)
        exact ih _ _ (by omega) (.inr (by omega)) (by omega)
    · exact ⟨within, below, word⟩

theorem safe_writeData {size : Nat} (word : size < 2 ^ 64) (pos len : Nat) :
    Safe (writeData disk size pos len) fun out =>
      out.1 ≤ len ∧ (out.1 = 0 ∨ pos + out.1 ≤ END) ∧ out.2 < 2 ^ 64 := by
  refine (safe_addOr _).bind fun last same => ?_
  obtain ⟨rfl, fits⟩ := same
  split
  · trivial
  · exact safe_writeLoop fits len 0 size (Nat.zero_le _) (.inl rfl) word

theorem safe_trimPtrs {below : Nat → Nat → Nat → Result Bool} {keep first child span : Nat} (fits : first + span < 2 ^ 64)
    (covers : g.ptrs * child ≤ span)
    (safe : ∀ ptr at_, at_ + child < 2 ^ 64 → Safe (below ptr at_ child) fun _ => True) (ptrs : List Nat) (i : Nat)
    (count : i + ptrs.length = g.ptrs) : Safe (trimPtrs below keep first child ptrs i) fun _ => True := by
  induction ptrs generalizing i with
  | nil => trivial
  | cons ptr rest ih =>
    rw [List.length_cons] at count
    have here : i * child + child ≤ g.ptrs * child := by
      rw [← Nat.succ_mul]
      exact Nat.mul_le_mul_right child (by omega)
    refine Safe.mul (by omega) (Safe.add (by omega) ?_)
    split
    · exact ih (i + 1) (by omega)
    refine (safe_add (by omega)).bind fun last _ => ?_
    split
    · exact ih (i + 1) (by omega)
    · exact (safe ptr _ (by omega)).bind fun _ _ => ih (i + 1) (by omega)

theorem safe_trimTree (keep depth b first span : Nat) (fits : first + span < 2 ^ 64) :
    Safe (trimTree disk keep depth b first span) fun _ => True := by
  induction depth generalizing b first span with
  | zero => trivial
  | succ depth ih =>
    refine (safe_add fits).bind fun last _ => ?_
    split
    · trivial
    split
    · trivial
    · refine safe_trimPtrs fits (Nat.mul_div_le _ _) (fun ptr at_ small => ih ptr at_ _ small) _ 0 ?_
      rw [Nat.zero_add]
      exact disk.whole b

theorem safe_trimLevels (slots : Nat → Nat) (keep left level first span : Nat) (most : left ≤ 3)
    (start : first ≤ 12 + (3 - left) * 1024 ^ 3) (bound : span ≤ 1024 ^ (4 - left)) :
    Safe (trimLevels disk slots keep left level first span) fun _ => True := by
  induction left generalizing level first span with
  | zero => trivial
  | succ left ih =>
    obtain ⟨power, product, small⟩ := levels_span (ptrs_le g).2 most bound
    have next : Safe (do trimLevels disk slots keep left (level + 1) (← add 64 first span) (← mul 64 span g.ptrs))
        fun _ => True := by
      refine Safe.add (by omega) (Safe.mul small ?_)
      exact ih (level + 1) _ _ (by omega) (by omega) product
    unfold trimLevels
    split
    · exact (safe_trimTree _ _ _ _ _ (by omega)).bind fun _ _ => next
    · exact next

theorem safe_resizeData (slots : Nat → Nat) (old : Nat) {size : Nat} (word : size < 2 ^ 64) :
    Safe (resizeData disk slots old size) fun out => out < 2 ^ 64 := by
  have few := (ptrs_le g).2
  unfold resizeData
  split
  · trivial
  split
  · have zeroed : Safe (endBlock disk size) fun _ => True := by
      unfold endBlock
      split
      · exact (safe_bmap disk _).bind fun _ _ => trivial
      · trivial
    refine zeroed.bind fun _ _ => ?_
    exact (safe_trimLevels slots _ 3 0 NDIRECT g.ptrs (Nat.le_refl _) (by decide) (by omega)).bind fun _ _ => word
  · exact word

end Ext2

namespace Fat

variable {cluster : Nat} (positive : 0 < cluster) (takes : Nat → Bool)

include positive

theorem safe_put {pos count : Nat} (fits : pos + count ≤ U32_MAX) (fuel done len : Nat) (within : done ≤ count) :
    Safe (put cluster takes pos count fuel done len) fun out => out.1 ≤ max len (pos + count) := by
  have largest : U32_MAX = 2 ^ 32 - 1 := rfl
  induction fuel generalizing done len with
  | zero => exact Nat.le_max_left _ _
  | succ fuel ih =>
    unfold put
    split
    · refine Safe.add (by omega) (Safe.sub within ?_)
      refine (safe_sub (Nat.le_of_lt (Nat.mod_lt _ positive))).bind fun room same => ?_
      split
      · refine Safe.add (by omega) ?_
        exact (ih _ _ (by omega)).mono fun out bound => by omega
      · exact Nat.le_max_left _ _
    · exact Nat.le_max_left _ _

theorem safe_growTo {size : Nat} (fits : size ≤ U32_MAX) (fuel len : Nat) :
    Safe (growTo cluster takes size fuel len) fun out => out.1 ≤ max len size := by
  induction fuel generalizing len with
  | zero => exact Nat.le_max_left _ _
  | succ fuel ih =>
    unfold growTo
    split
    · refine Safe.sub (by omega) ?_
      refine (safe_put positive takes (by omega) _ 0 len (Nat.zero_le _)).bind fun out bound => ?_
      obtain ⟨longer, ok⟩ := out
      dsimp only at bound ⊢
      split
      · exact (ih longer).mono fun out last => by omega
      · show longer ≤ _
        omega
    · exact Nat.le_max_left _ _

theorem safe_write {len pos count : Nat} (short : len ≤ U32_MAX) (word : pos + count < 2 ^ 64) :
    Safe (write cluster takes len pos count) fun out =>
      out.1 ≤ U32_MAX ∧ ∀ n, out.2 = .some n → n ≤ count ∧ pos + n ≤ U32_MAX := by
  refine Safe.add word ?_
  split
  · trivial
  refine (safe_growTo positive takes (by omega) pos len).bind fun grown bound => ?_
  obtain ⟨longer, all⟩ := grown
  have put : Safe (putIf cluster takes pos count longer all) fun out => out.1 ≤ U32_MAX := by
    unfold putIf
    split
    · exact (safe_put positive takes (by omega) count 0 longer (Nat.zero_le _)).mono fun out last => by omega
    · show longer ≤ _
      omega
  refine put.bind fun written last => ⟨last, fun n same => ?_⟩
  split at same
  · cases same
    omega
  split at same
  · cases same
    omega
  · cases same

example : Overflows (write 4096 (fun _ => true) 0 (2 ^ 64 - 1) 1) := by decide +kernel

theorem safe_setSize (len size : Nat) :
    Safe (setSize cluster takes len size) fun out => out.1 ≤ U32_MAX := by
  unfold setSize
  split
  · trivial
  split
  · exact (safe_growTo positive takes (by omega) size len).mono fun out bound => by omega
  · show size ≤ _
    omega

end Fat

theorem safe_dirtyPages {pos last : Nat} (fits : last + PAGE < 2 ^ 64) (order : pos < last) (left index : Nat)
    (lower : pos / PAGE ≤ index) (upper : index + left ≤ (last - 1) / PAGE + 1) :
    Safe (dirtyPages pos last left index) fun _ => True := by
  have page : PAGE = 4096 := rfl
  induction left generalizing index with
  | zero => trivial
  | succ left ih =>
    unfold dirtyPages
    rw [page] at fits lower upper
    -- the page's size stays a name, which the unifier cannot take apart
    obtain ⟨size, known⟩ : ∃ size, size = PAGE := ⟨_, rfl⟩
    rw [← known]
    refine (safe_mul (by rw [known, page]; omega)).bind fun base same => ?_
    rw [known, page] at same
    refine (safe_add (by omega)).bind fun after below => ?_
    refine Safe.sub (by omega) <| Safe.sub (by omega) <|
      Safe.sub (by omega) <| Safe.sub (by omega) ?_
    exact ih (index + 1) (by rw [page]; omega) (by rw [page]; omega)

theorem safe_eachDirtyPage (dirty : Bool) {pos len : Nat} (fits : len = 0 ∨ pos + len + PAGE < 2 ^ 64) :
    Safe (eachDirtyPage dirty pos len) fun _ => True := by
  unfold eachDirtyPage
  split
  · trivial
  have page : PAGE = 4096 := rfl
  refine safe_dirtyPages (by omega) (by omega) _ _ (Nat.le_refl _) ?_
  rw [page]
  omega

def LIMIT : Nat := 2 ^ 45

namespace File

def Wf : File → Prop
  | tmpfs data => data.length ≤ Tmpfs.FILE_CAP
  | ext2 _ size => size < 2 ^ 64
  | fat cluster len => 0 < cluster ∧ len ≤ U32_MAX

variable {file : File} (env : Env)

theorem safe_read (wf : file.Wf) (pos : Nat) {len : Nat} (small : len ≤ 2 ^ 32) :
    Safe (file.read env pos len) fun n => n ≤ len ∧ (n = 0 ∨ pos + n ≤ LIMIT) := by
  have limit : LIMIT = 2 ^ 45 := rfl
  cases file with
  | tmpfs data =>
    have cap : Tmpfs.FILE_CAP = 134217728 := rfl
    refine (Tmpfs.safe_readAt wf pos len).bind fun out read => ⟨read.1, ?_⟩
    rcases Nat.eq_zero_or_pos out.length with none | some
    · exact .inl none
    · have last := read.2 some
      exact .inr (by omega)
  | ext2 g size =>
    have ends : Ext2.END = 2 ^ 44 := rfl
    have read : Safe (Ext2.readData (env.disk g) size pos len) _ := Ext2.safe_readData wf pos len
    unfold File.read orNone
    dsimp only
    rcases read.cases with ⟨n, returned, within, below⟩ | ⟨e, failed⟩
    · rw [returned]
      exact ⟨within, below.imp_right fun last => by omega⟩
    · rw [failed]
      exact ⟨Nat.zero_le _, .inl rfl⟩
  | fat cluster flen =>
    have largest : U32_MAX = 2 ^ 32 - 1 := rfl
    have short := wf.2
    show (if flen ≤ pos then 0 else min env.gives len) ≤ len ∧ _
    split
    · exact ⟨Nat.zero_le _, .inl rfl⟩
    · exact ⟨Nat.min_le_right _ _, .inr (by omega)⟩

theorem safe_vfsRead (wf : file.Wf) (pos : Nat) {len : Nat} (small : len ≤ 2 ^ 32) :
    Safe (file.vfsRead env pos len) fun n => n ≤ len ∧ (n = 0 ∨ pos + n ≤ LIMIT) := by
  have limit : LIMIT = 2 ^ 45 := rfl
  have page : PAGE = 4096 := rfl
  refine (safe_read env wf pos small).bind fun n read => ?_
  exact (safe_eachDirtyPage env.dirty (read.2.imp_right fun last => by omega)).bind fun _ _ => read

theorem safe_readOrWait (wf : file.Wf) (pos : Nat) {len : Nat} (small : len ≤ 2 ^ 32) :
    Safe (file.readOrWait env pos len) fun n => n ≤ len ∧ (n = 0 ∨ pos + n ≤ LIMIT) := by
  cases file with
  | tmpfs data | ext2 g size => exact safe_vfsRead env wf pos small
  | fat cluster flen => exact safe_read env wf pos small

def Addable (pos len : Nat) : File → Prop
  | fat .. => pos + len < 2 ^ 64
  | _ => True

instance (pos len : Nat) (file : File) : Decidable (file.Addable pos len) :=
  match file with
  | tmpfs _ => .isTrue trivial
  | ext2 _ _ => .isTrue trivial
  | fat _ _ => inferInstanceAs (Decidable (pos + len < 2 ^ 64))

theorem safe_writeThrough (wf : file.Wf) {pos : Nat} {buf : Bytes} (addable : file.Addable pos buf.length) :
    Safe (file.writeThrough env pos buf) fun out =>
      out.1.Wf ∧ ∀ n, out.2 = .ok n → n ≤ buf.length ∧ (n = 0 ∨ pos + n ≤ LIMIT) := by
  have limit : LIMIT = 2 ^ 45 := rfl
  cases file with
  | tmpfs data =>
    have cap : Tmpfs.FILE_CAP = 134217728 := rfl
    have write := Tmpfs.safe_writeAt env.reserve buf wf pos
    unfold writeThrough
    dsimp only
    rcases write.cases with ⟨out, returned, fits, last⟩ | ⟨e, failed⟩
    · rw [returned]
      refine ⟨fits, fun n same => ?_⟩
      cases same
      exact ⟨Nat.le_refl _, .inr (by omega)⟩
    · rw [failed]
      exact ⟨wf, fun n same => by cases same⟩
  | ext2 g size =>
    have ends : Ext2.END = 2 ^ 44 := rfl
    have write : Safe (Ext2.writeData (env.disk g) size pos buf.length) _ := Ext2.safe_writeData wf pos buf.length
    unfold writeThrough
    dsimp only
    rcases write.cases with ⟨out, returned, within, below, word⟩ | ⟨e, failed⟩
    · rw [returned]
      refine ⟨word, fun n same => ?_⟩
      cases same
      exact ⟨within, below.imp_right fun last => by omega⟩
    · rw [failed]
      exact ⟨wf, fun n same => by cases same⟩
  | fat cluster flen =>
    have largest : U32_MAX = 2 ^ 32 - 1 := rfl
    have write := Fat.safe_write wf.1 env.takes wf.2 addable
    unfold writeThrough
    dsimp only
    rcases write.cases with ⟨out, returned, short, counts⟩ | ⟨e, failed⟩
    · rw [returned]
      obtain ⟨len, written⟩ := out
      cases written with
      | none => exact ⟨⟨wf.1, short⟩, fun n same => by cases same⟩
      | some count =>
        refine ⟨⟨wf.1, short⟩, fun n same => ?_⟩
        cases same
        have last := counts count rfl
        exact ⟨last.1, .inr (by omega)⟩
    · rw [failed]
      exact ⟨wf, fun n same => by cases same⟩

theorem safe_write (wf : file.Wf) {pos : Nat} {buf : Bytes} (addable : file.Addable pos buf.length) :
    Safe (file.write env pos buf) fun out =>
      out.1.Wf ∧ ∀ n, out.2 = .ok n → n ≤ buf.length ∧ (n = 0 ∨ pos + n ≤ LIMIT) := by
  have limit : LIMIT = 2 ^ 45 := rfl
  have page : PAGE = 4096 := rfl
  refine (safe_writeThrough env wf addable).bind fun out wrote => ?_
  obtain ⟨next, written⟩ := out
  cases written with
  | ok n =>
    have last := wrote.2 n rfl
    refine (safe_eachDirtyPage env.dirty ?_).bind fun _ _ => wrote
    rw [Nat.min_eq_left last.1]
    exact last.2.imp_right fun last => by omega
  | error e => exact (safe_eachDirtyPage env.dirty (.inl rfl)).bind fun _ _ => wrote

theorem safe_setSize (wf : file.Wf) {size : Nat} (word : size < 2 ^ 64) :
    Safe (file.setSize env size) fun out => out.1.Wf := by
  cases file with
  | tmpfs data => exact (Tmpfs.safe_setSizeAt env.reserve data size).bind fun _ fits => fits
  | ext2 g old => exact (Ext2.safe_resizeData env.slots old word).bind fun _ fits => fits
  | fat cluster len => exact (Fat.safe_setSize wf.1 env.takes len size).bind fun _ fits => ⟨wf.1, fits⟩

end File
end Myos.Fs.Io
