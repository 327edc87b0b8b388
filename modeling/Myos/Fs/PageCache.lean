import Mathlib.Algebra.GroupWithZero.Nat
import Myos.Lib.Consts
import Myos.Lib.System
import Myos.Lib.Table

namespace Myos.Fs.PageCache
open Lib

def U32 : Nat := 2 ^ 32

structure Stored where
  size : Nat
  data : Nat → Byte

def Stored.write (f : Stored) (pos n : Nat) (buf : Nat → Byte) : Stored where
  size := if n = 0 then f.size else max f.size (pos + n)
  data := fun at_ =>
    if pos ≤ at_ ∧ at_ < pos + n then buf (at_ - pos)
    -- a write past the end leaves a hole of zeros behind it
    else if f.size ≤ at_ then 0
    else f.data at_

/-- A page the cache has, with its frame's bytes. A frame that left the cache never comes back to it,
so the frames in the cache go by file and index. -/
structure Page where
  bytes : Nat → Byte
  maps : Nat
  dirty : Bool

def Page.take (p : Page) (index pos n : Nat) (buf : Nat → Byte) : Page :=
  if p.dirty then
    { p with bytes := fun off =>
        if off < PAGE ∧ pos ≤ index * PAGE + off ∧ index * PAGE + off < pos + n then buf (index * PAGE + off - pos)
        else p.bytes off }
  else p

def Page.map (p : Page) (dirty : Bool) : Page := { p with maps := p.maps + 1, dirty := p.dirty || dirty }

inductive Read where
  | start
  | got (n : Nat) (out : Nat → Byte)
  | overlay (n : Nat) (out : Nat → Byte) (rest : List Nat)
  | done (n : Nat) (out : Nat → Byte)

inductive Write where
  | start
  | through (n : Nat)
  | copy (n : Nat) (rest : List Nat)
  | test (n : Nat)
  | drop (n : Nat)

inductive Back where
  | pick (first : Nat)
  | copied (index : Nat) (copy : Nat → Byte)
  | sized (index : Nat) (copy : Nat → Byte) (count : Nat)

inductive Map where
  | look
  | count
  | reading (changes : Nat) (read : Read)

/-- A call that some task is in. A read remembers which bytes were owed to it when it started, and at
which version of each. -/
inductive Op where
  | write (id pos len : Nat) (buf : Nat → Byte) (stage : Write)
  | read (id pos len : Nat) (expect : Nat → Option Byte) (since : Nat → Nat) (stage : Read)
  | back (id : Nat) (unmapped : Bool) (stage : Back)
  | map (id page : Nat) (shared dirty : Bool) (stage : Map)

inductive Claim where
  | unknown
  | pending (op : Nat)
  | owed (byte : Byte)
  deriving DecidableEq

def Claim.byte? : Claim → Option Byte
  | .owed byte => some byte
  | _ => none

/-- `files`, `pages` and `changes` are the machine's; `ops` are the calls under way, `claim` and
`version` the history of each byte. `File::dirty` counts the file's dirty pages and `reading` the
calls that read a page of it: both are read off `pages` and `ops`. -/
structure World where
  files : Nat → Stored
  pages : Table (Nat × Nat) Page
  changes : Nat
  ops : Table Nat Op
  claim : Nat → Nat → Claim
  version : Nat → Nat → Nat

def Op.writes (id at_ : Nat) : Op → Bool
  | .write file pos len _ _ => file == id && decide (pos ≤ at_ ∧ at_ < pos + len)
  | _ => false

def Op.reads (id : Nat) : Op → Bool
  | .map file _ _ _ (.reading _ _) => file == id
  | _ => false

namespace World

def put (w : World) (op : Nat) (o : Op) : World := { w with ops := w.ops.insert op o }

def gone (w : World) (op : Nat) : World := { w with ops := w.ops.erase op }

def setFile (w : World) (id : Nat) (f : Stored) : World := { w with files := Function.update w.files id f }

def setPages (w : World) (pages : Table (Nat × Nat) Page) : World := { w with pages := pages }

def hasDirty (w : World) (id : Nat) : Bool := 0 < w.pages.count fun key p => key.1 == id && p.dirty

def hasPages (w : World) (id : Nat) : Bool := 0 < w.pages.count fun key _ => key.1 == id

def isReading (w : World) (id : Nat) : Bool := 0 < w.ops.count fun _ o => o.reads id

def touched (pos n : Nat) : List Nat := List.range' (pos / PAGE) ((pos + n - 1) / PAGE + 1 - pos / PAGE)

def goesOver (w : World) (id pos n : Nat) : Bool := 0 < n && decide (pos + n ≤ USIZE_MAX) && w.hasDirty id

def overlay (w : World) (id pos n : Nat) (out : Nat → Byte) (index : Nat) : Nat → Byte :=
  match w.pages.lookup (id, index % U32) with
  | none => out
  | some p =>
    if p.dirty then fun at_ =>
      if at_ < n ∧ index * PAGE ≤ pos + at_ ∧ pos + at_ < index * PAGE + PAGE then p.bytes (pos + at_ - index * PAGE)
      else out at_
    else out

def nextRead (w : World) (id pos len : Nat) : Read → Read
  | .start =>
    let n := min len ((w.files id).size - pos)
    .got n fun at_ => if at_ < n then (w.files id).data (pos + at_) else 0
  | .got n out => if w.goesOver id pos n then .overlay n out (touched pos n) else .done n out
  | .overlay n out (index :: rest) => .overlay n (w.overlay id pos n out index) rest
  | .overlay n out [] => .done n out
  | .done n out => .done n out

def finish (w : World) (op id pos n : Nat) (buf : Nat → Byte) : World :=
  { w.gone op with
    claim := fun file at_ =>
      if file = id ∧ w.claim file at_ = .pending op then
        if at_ < pos + n then .owed (buf (at_ - pos)) else .unknown
      else w.claim file at_ }

def nextWrite (w : World) (op id pos len : Nat) (buf : Nat → Byte) (count : Nat) : Write → Option World
  | .start =>
    if count ≤ len then
      some ((w.setFile id ((w.files id).write pos count buf)).put op (.write id pos len buf (.through count)))
    else none
  | .through n =>
    some (w.put op (.write id pos len buf (if w.goesOver id pos n then .copy n (touched pos n) else .test n)))
  | .copy n (index :: rest) =>
    some ((w.setPages (w.pages.adjust (id, index % U32) fun p => some (p.take index pos n buf))).put op
      (.write id pos len buf (.copy n rest)))
  | .copy n [] => some (w.put op (.write id pos len buf (.test n)))
  | .test n =>
    if w.hasPages id || w.isReading id then some (w.put op (.write id pos len buf (.drop n)))
    else some (w.finish op id pos n buf)
  | .drop n =>
    let w := { w.setPages (w.pages.sift fun key p => key.1 != id || p.dirty) with changes := w.changes + 1 }
    some (w.finish op id pos n buf)

def wantsBack (unmapped : Bool) (p : Page) : Bool := p.dirty && (!unmapped || p.maps == 0)

def nextDirty (w : World) (id first : Nat) (unmapped : Bool) : Option Nat :=
  ((w.pages.keys.filter fun key =>
    key.1 == id && decide (first ≤ key.2) && (w.pages.lookup key).any (wantsBack unmapped)).map Prod.snd).min?

def nextBack (w : World) (op id : Nat) (unmapped : Bool) (count : Nat) : Back → Option World
  | .pick first =>
    match w.nextDirty id first unmapped with
    | none => some (w.gone op)
    | some index =>
      match w.pages.lookup (id, index) with
      | none => none
      | some p =>
        let p' := { p with dirty := p.dirty && p.maps != 0 }
        some ((w.setPages (w.pages.insert (id, index) p')).put op (.back id unmapped (.copied index p.bytes)))
  | .copied index copy =>
    let size := (w.files id).size
    some (w.put op (.back id unmapped
      (if index * PAGE < size then .sized index copy (min (size - index * PAGE) PAGE) else .pick (index + 1))))
  | .sized index copy most =>
    if count ≤ most then
      some ((w.setFile id ((w.files id).write (index * PAGE) count copy)).put op
        (.back id unmapped (.pick (index + 1))))
    else none

def nextMap (w : World) (op id page : Nat) (shared dirty : Bool) : Map → World
  | .look =>
    match w.pages.lookup (id, page % U32) with
    | some p => (w.setPages (w.pages.insert (id, page % U32) (p.map dirty))).gone op
    | none => w.put op (.map id page shared dirty .count)
  | .count => w.put op (.map id page shared dirty (.reading w.changes .start))
  | .reading changes (.done _ out) =>
    if w.changes ≠ changes then
      -- a shared mapping must have the cached frame; a private one keeps what was read to itself
      if shared then w.put op (.map id page shared dirty .look) else w.gone op
    else
      match w.pages.lookup (id, page % U32) with
      | some p => (w.setPages (w.pages.insert (id, page % U32) (p.map dirty))).gone op
      | none => (w.setPages (w.pages.insert (id, page % U32) ⟨out, 1, dirty⟩)).gone op
  | .reading changes read =>
    w.put op (.map id page shared dirty (.reading changes (w.nextRead id (page * PAGE) PAGE read)))

def next (w : World) (op count : Nat) : Option World :=
  match w.ops.lookup op with
  | none => none
  | some (.write id pos len buf stage) => w.nextWrite op id pos len buf count stage
  | some (.read id pos len expect since stage) =>
    some (w.put op (.read id pos len expect since (w.nextRead id pos len stage)))
  | some (.back id unmapped stage) => w.nextBack op id unmapped count stage
  | some (.map id page shared dirty stage) => some (w.nextMap op id page shared dirty stage)

def disturb (w : World) (id : Nat) (hit : Nat → Bool) (claim : Nat → Claim) : World :=
  { w with
    claim := fun file at_ => if file = id ∧ hit at_ then claim at_ else w.claim file at_
    version := fun file at_ => if file = id ∧ hit at_ then w.version file at_ + 1 else w.version file at_ }

def contended (w : World) (id at_ : Nat) : Bool := 0 < w.ops.count fun _ o => o.writes id at_

inductive Event where
  | write (op id pos len : Nat) (buf : Nat → Byte)
  | read (op id pos len : Nat)
  | back (op id : Nat) (unmapped : Bool)
  | map (op id page : Nat) (shared dirty : Bool)
  | next (op count : Nat)
  | store (id index off : Nat) (byte : Byte)
  | dirtied (id index : Nat)
  | share (id index : Nat)
  | release (id index : Nat)
  | evict (id index : Nat)

def store (w : World) (id index off : Nat) (byte : Byte) : Option World :=
  match w.pages.lookup (id, index) with
  | none => none
  | some p =>
    if p.dirty ∧ 0 < p.maps ∧ off < PAGE then
      let p' := { p with bytes := Function.update p.bytes off byte }
      some ((w.setPages (w.pages.insert (id, index) p')).disturb id (· == index * PAGE + off) fun _ => .unknown)
    else none

def step (w : World) : Event → Option World
  | .write op id pos len buf =>
    if (w.ops.lookup op).isNone then
      some ((w.disturb id (fun at_ => decide (pos ≤ at_ ∧ at_ < pos + len)) fun at_ =>
        if w.contended id at_ then .unknown else .pending op).put op (.write id pos len buf .start))
    else none
  | .read op id pos len =>
    if (w.ops.lookup op).isNone then
      some (w.put op (.read id pos len (fun at_ => (w.claim id at_).byte?) (w.version id) .start))
    else none
  | .back op id unmapped =>
    if (w.ops.lookup op).isNone then some (w.put op (.back id unmapped (.pick 0))) else none
  | .map op id page shared dirty =>
    if (w.ops.lookup op).isNone then some (w.put op (.map id page shared dirty .look)) else none
  | .next op count => w.next op count
  | .store id index off byte => w.store id index off byte
  | .dirtied id index => some (w.setPages (w.pages.adjust (id, index) fun p => some { p with dirty := true }))
  | .share id index => some (w.setPages (w.pages.adjust (id, index) fun p => some { p with maps := p.maps + 1 }))
  | .release id index => some (w.setPages (w.pages.adjust (id, index) fun p => some { p with maps := p.maps - 1 }))
  | .evict id index =>
    some (w.setPages (w.pages.adjust (id, index) fun p => if p.maps = 0 ∧ p.dirty = false then none else some p))

structure Boot (w : World) : Prop where
  pages : w.pages = ∅
  ops : w.ops = ∅
  claim : ∀ id at_, w.claim id at_ = .unknown

def system : System World Event := ⟨Boot, step⟩

end World
end Myos.Fs.PageCache
