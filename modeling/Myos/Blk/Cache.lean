import Myos.Lib.Consts
import Myos.Lib.System
import Myos.Lib.Table

namespace Myos.Blk
open Lib

def SECTOR : Nat := 512
def CHUNK : Nat := 4096
def CHUNK_SECTORS : Nat := CHUNK / SECTOR
def MAX_REQUEST : Nat := 64 * 1024
def MAX_RUN : Nat := MAX_REQUEST / CHUNK

structure Entry where
  disk : Nat
  chunk : Nat
  bytes : Nat → Byte
  used : Bool

inductive Dev where
  | disk (serial : Nat)
  | part (disk first sectors : Nat)
  deriving DecidableEq

structure Span where
  disk : Nat
  serial : Nat
  lba : Nat
  len : Nat

namespace Span

def first (s : Span) : Nat := s.lba / CHUNK_SECTORS

def last (s : Span) : Nat := (s.lba + s.len / SECTOR + (CHUNK_SECTORS - 1)) / CHUNK_SECTORS

def covers (s : Span) (at_ : Nat) : Bool := decide (s.lba * SECTOR ≤ at_ ∧ at_ < s.lba * SECTOR + s.len)

def overlaps (s : Span) (chunk : Nat) : Bool :=
  decide (s.lba * SECTOR < (chunk + 1) * CHUNK ∧ chunk * CHUNK < s.lba * SECTOR + s.len)

def within (s : Span) (chunk last i : Nat) : Bool :=
  decide (i < s.len ∧ chunk * CHUNK ≤ s.lba * SECTOR + i ∧ s.lba * SECTOR + i < last * CHUNK)

end Span

def Entry.take (e : Entry) (s : Span) (buf : Nat → Byte) : Entry :=
  if e.disk = s.disk ∧ s.first ≤ e.chunk ∧ e.chunk < s.last then
    { e with bytes := fun off =>
        if s.covers (e.chunk * CHUNK + off) then buf (e.chunk * CHUNK + off - s.lba * SECTOR) else e.bytes off }
  else e

/-- Chunks `[first, last)` read in one request after `writes` writes; `data` goes by the disk's bytes. -/
structure Run where
  first : Nat
  last : Nat
  writes : Nat
  data : Nat → Byte

inductive Reading where
  | look (chunk : Nat)
  | tail (chunk : Nat)
  | run (chunk : Nat)
  | count (chunk last : Nat)
  | request (chunk last writes : Nat)
  | size (run : Run) (chunk : Nat)
  | keep (run : Run) (chunk : Nat) (spare : Bool)
  | direct
  | done

/-- A call that some task is in. A write that was `sent` has its device's answer and not yet the
cache's. With each byte a read copied goes what the disk held then, unless a write of its chunk was
under way. -/
inductive Op where
  | read (span : Span) (whole : Nat) (buf held : Nat → Option Byte) (stage : Reading)
  | write (span : Span) (buf : Nat → Byte) (sent : Option Bool)

def Op.span : Op → Span
  | .read span _ _ _ _ => span
  | .write span _ _ => span

structure World where
  devs : Nat → Option Dev
  leaving : Nat → Option Nat
  serial : Nat
  store : Nat → Nat → Byte
  entries : List Entry
  hand : Nat
  writes : Nat
  cap : Nat
  ops : Table Nat Op

namespace World

def put (w : World) (op : Nat) (o : Op) : World := { w with ops := w.ops.insert op o }

def gone (w : World) (op : Nat) : World := { w with ops := w.ops.erase op }

def setStore (w : World) (serial : Nat) (data : Nat → Byte) : World :=
  { w with store := Function.update w.store serial data }

def find (w : World) (disk chunk : Nat) : Option Entry :=
  w.entries.find? fun e => e.disk == disk && e.chunk == chunk

def onDisk (w : World) (dev lba len : Nat) : Option Span :=
  match w.devs dev with
  | none => none
  | some (.disk serial) => some ⟨dev, serial, lba, len⟩
  | some (.part disk first sectors) =>
    if sectors < lba + len / SECTOR then none
    else
      match w.devs disk with
      | some (.disk serial) => some ⟨disk, serial, first + lba, len⟩
      | _ => none

def writing (w : World) (disk chunk : Nat) : Bool :=
  0 < w.ops.count fun _ o =>
    match o with
    | .write span _ _ => span.disk == disk && span.overlaps chunk
    | _ => false

def holds (w : World) (s : Span) (i : Nat) : Option Byte :=
  if w.writing s.disk ((s.lba * SECTOR + i) / CHUNK) then none
  else some (w.store s.serial (s.lba * SECTOR + i))

def copied (w : World) (s : Span) (buf held : Nat → Option Byte) (chunk last : Nat) (source : Nat → Byte)
    (whole : Nat) (stage : Reading) : Op :=
  .read s whole
    (fun i => if s.within chunk last i then some (source (s.lba * SECTOR + i)) else buf i)
    (fun i => if s.within chunk last i then w.holds s i else held i) stage

def runEnd (w : World) (disk whole : Nat) : Nat → Nat → Nat
  | 0, last => last
  | fuel + 1, last =>
    if last < whole ∧ (w.find disk last).isNone then w.runEnd disk whole fuel (last + 1) else last

def evict (n : Nat) : Nat → List Entry → Nat → List Entry × Nat × Option Nat
  | 0, entries, hand => (entries, hand, none)
  | fuel + 1, entries, hand =>
    let i := hand % n
    match entries[i]? with
    | none => (entries, i + 1, none)
    | some e =>
      if e.used then evict n fuel (entries.set i { e with used := false }) (i + 1)
      else (entries, i + 1, some i)

def keep (w : World) (disk chunk writes : Nat) (bytes : Nat → Byte) (spare : Bool) : World :=
  if w.writes ≠ writes ∨ (w.find disk chunk).isSome then w
  else if spare ∧ w.entries.length < w.cap then
    { w with entries := w.entries ++ [⟨disk, chunk, bytes, false⟩] }
  else
    match evict w.entries.length (2 * w.entries.length) w.entries w.hand with
    | (entries, hand, none) => { w with entries := entries, hand := hand }
    | (entries, hand, some i) => { w with entries := entries.set i ⟨disk, chunk, bytes, false⟩, hand := hand }

def markUsed (w : World) (disk chunk : Nat) : World :=
  { w with entries := w.entries.map fun e =>
      if e.disk = disk ∧ e.chunk = chunk then { e with used := true } else e }

def nextRead (w : World) (op : Nat) (s : Span) (whole : Nat) (buf held : Nat → Option Byte) (ok : Bool) :
    Reading → Option World
  | .look chunk =>
    if s.last ≤ chunk then some (w.put op (.read s whole buf held .done))
    else
      match w.find s.disk chunk with
      | some e =>
        some ((w.markUsed s.disk chunk).put op
          (w.copied s buf held chunk (chunk + 1) (fun at_ => e.bytes (at_ - chunk * CHUNK)) whole
            (.look (chunk + 1))))
      | none => some (w.put op (.read s whole buf held (if min s.last whole ≤ chunk then .tail chunk else .run chunk)))
  | .tail chunk =>
    if ok then
      some (w.put op (w.copied s buf held chunk (chunk + 1) (w.store s.serial) whole (.look (chunk + 1))))
    else some (w.gone op)
  | .run chunk =>
    some (w.put op (.read s whole buf held
      (.count chunk (w.runEnd s.disk (min s.last whole) (MAX_RUN - 1) (chunk + 1)))))
  | .count chunk last => some (w.put op (.read s whole buf held (.request chunk last w.writes)))
  | .request chunk last writes =>
    if ok then
      some (w.put op (w.copied s buf held chunk last (w.store s.serial) whole
        (.size ⟨chunk, last, writes, w.store s.serial⟩ chunk)))
    else some (w.gone op)
  | .size run chunk =>
    some (w.put op (.read s whole buf held
      (if run.last ≤ chunk then .look run.last else .keep run chunk (decide (w.entries.length < w.cap)))))
  | .keep run chunk spare =>
    some ((w.keep s.disk chunk run.writes (fun off => run.data (chunk * CHUNK + off)) spare).put op
      (.read s whole buf held (.size run (chunk + 1))))
  | .direct =>
    if ok then
      some (w.put op (w.copied s buf held 0 (s.lba * SECTOR + s.len) (w.store s.serial) whole .done))
    else some (w.gone op)
  | .done => none

def written (w : World) (s : Span) (buf : Nat → Byte) (ok : Bool) (mask : Nat → Bool) : World :=
  w.setStore s.serial fun at_ =>
    if s.covers at_ && (ok || mask at_) then buf (at_ - s.lba * SECTOR) else w.store s.serial at_

def wrote (w : World) (s : Span) (buf : Nat → Byte) : World :=
  { w with writes := w.writes + 1, entries := w.entries.map fun e => e.take s buf }

def nextWrite (w : World) (op : Nat) (s : Span) (buf : Nat → Byte) (ok : Bool) (mask : Nat → Bool) :
    Option Bool → World
  | none => (w.written s buf ok mask).put op (.write s buf (some ok))
  | some _ => (w.wrote s buf).gone op

def next (w : World) (op : Nat) (ok : Bool) (mask : Nat → Bool) : Option World :=
  match w.ops.lookup op with
  | none => none
  | some (.read s whole buf held stage) => w.nextRead op s whole buf held ok stage
  | some (.write s buf sent) => some (w.nextWrite op s buf ok mask sent)

inductive Event where
  | register (slot : Nat) (data : Nat → Byte)
  | addPart (slot disk first sectors : Nat)
  | dropPart (slot : Nat)
  | unregister (disk : Nat)
  | forget (disk : Nat)
  | release
  | read (op dev lba len : Nat) (sectors : Option Nat)
  | write (op dev lba len : Nat) (buf : Nat → Byte)
  | next (op : Nat) (ok : Bool) (mask : Nat → Bool)

def partOf (disk : Nat) : Option Dev → Bool
  | some (.part d _ _) => d == disk
  | _ => false

def step (w : World) : Event → Option World
  | .register slot data =>
    if w.devs slot = none then
      some { w.setStore w.serial data with
        devs := Function.update w.devs slot (some (.disk w.serial)), serial := w.serial + 1 }
    else none
  | .addPart slot disk first sectors =>
    if w.devs slot = none then
      some { w with devs := Function.update w.devs slot (some (.part disk first sectors)) }
    else none
  | .dropPart slot =>
    match w.devs slot with
    | some (.part _ _ _) => some { w with devs := Function.update w.devs slot none }
    | _ => none
  | .unregister disk =>
    match w.devs disk with
    | some (.disk serial) =>
      some { w with
        devs := fun slot => if slot = disk ∨ partOf disk (w.devs slot) then none else w.devs slot
        leaving := Function.update w.leaving disk (some serial) }
    | _ => none
  | .forget disk =>
    if (w.leaving disk).isSome then
      some { w with
        leaving := Function.update w.leaving disk none
        writes := w.writes + 1
        entries := w.entries.filter fun e => e.disk != disk
        hand := 0 }
    else none
  | .release => some { w with writes := w.writes + 1, entries := [], hand := 0 }
  | .read op dev lba len sectors =>
    if (w.ops.lookup op).isNone ∧ len % SECTOR = 0 ∧ 0 < len then
      (w.onDisk dev lba len).map fun s =>
        w.put op (.read s (sectors.getD 0 / CHUNK_SECTORS) (fun _ => none) (fun _ => none)
          (if sectors.isSome then .look s.first else .direct))
    else none
  | .write op dev lba len buf =>
    if (w.ops.lookup op).isNone ∧ len % SECTOR = 0 ∧ 0 < len then
      (w.onDisk dev lba len).map fun s => w.put op (.write s buf none)
    else none
  | .next op ok mask => w.next op ok mask

structure Boot (w : World) : Prop where
  devs : ∀ slot, w.devs slot = none
  leaving : ∀ slot, w.leaving slot = none
  entries : w.entries = []
  ops : w.ops = ∅

def system : System World Event := ⟨Boot, step⟩

end World
end Myos.Blk
