import Myos.Fs.PageCache

namespace Myos.Fs.PageCache
open Lib

def Op.unsettled (id index : Nat) : Op → Bool
  | .write _ _ _ _ .start => false
  | .write file pos len _ _ => file == id && decide (pos < index * PAGE + PAGE ∧ index * PAGE < pos + len)
  | _ => false

def Op.copy? : Op → Option (Nat × Nat × (Nat → Byte))
  | .back id _ (.copied index copy) | .back id _ (.sized index copy _) => some (id, index, copy)
  | _ => none

def Op.copies (id pos len : Nat) (o : Op) : Bool :=
  o.copy?.any fun c => c.1 == id && decide (pos < c.2.1 * PAGE + PAGE ∧ c.2.1 * PAGE < pos + len)

namespace World

def calm (w : World) (id index : Nat) : Bool := w.ops.count (fun _ o => o.unsettled id index) == 0

/-- No write reaches the file while a write-back has a copy of one of its pages; a page is copied for
a write-back, or becomes dirty, only while no write that touches it is between the file and the end
of `invalidate`; files are less than `2 ^ 32` pages long. -/
def meets (w : World) : Event → Bool
  | .write _ _ pos len _ => pos + len ≤ PAGE * U32
  | .map _ _ page _ _ => page < U32
  | .dirtied id index => w.calm id index
  | .next op _ =>
    match w.ops.lookup op with
    | some (.write id pos len _ .start) => w.ops.count (fun _ o => o.copies id pos len) == 0
    | some (.back id unmapped (.pick first)) => (w.nextDirty id first unmapped).all (w.calm id)
    | some (.map id page _ dirty .look) | some (.map id page _ dirty (.reading _ (.done _ _))) =>
      !dirty || w.calm id page
    | _ => true
  | _ => true

/-- A finished read returned every byte owed to it that nothing wrote since, and a file with no dirty
page holds every byte owed. -/
structure Kept (w : World) : Prop where
  read : ∀ op id pos len expect since n out, w.ops.lookup op = some (.read id pos len expect since (.done n out)) →
    ∀ at_ byte, pos ≤ at_ → at_ < pos + len → expect at_ = some byte → since at_ = w.version id at_ →
      at_ < pos + n ∧ out (at_ - pos) = byte
  file : ∀ id at_ byte, w.claim id at_ = .owed byte → w.hasDirty id = false →
    at_ < (w.files id).size ∧ (w.files id).data at_ = byte

end World

def Read.sees (pos at_ : Nat) (byte : Byte) : Read → Prop
  | .start => True
  | .got n out | .overlay n out _ | .done n out => at_ < pos + n ∧ out (at_ - pos) = byte

def Write.count : Write → Option Nat
  | .start => none
  | .through n | .copy n _ | .test n | .drop n => some n

def Write.passed (index : Nat) : Write → Prop
  | .start | .through _ => False
  | .copy _ rest => index ∉ rest
  | .test _ | .drop _ => True

namespace World

variable {w : World}

structure InFile (w : World) (id at_ : Nat) (byte : Byte) : Prop where
  inside : at_ < (w.files id).size
  data : (w.files id).data at_ = byte

def InPage (w : World) (id at_ : Nat) (byte : Byte) : Prop :=
  ∀ p, w.pages.lookup (id, at_ / PAGE) = some p → p.bytes (at_ % PAGE) = byte

def InDirty (w : World) (id at_ : Nat) (byte : Byte) : Prop :=
  ∀ p, w.pages.lookup (id, at_ / PAGE) = some p → p.dirty = true → p.bytes (at_ % PAGE) = byte

end World

/-- What a call says of the bytes it is about. A write is alone on every byte that is claimed, and has
put it into the file and the dirty page as far as its stage says; a read has seen what is owed to it;
what a write-back or a fault carries of a byte owed, and may still write or keep, is that byte. -/
def Op.Fits (w : World) (op : Nat) : Op → Prop
  | .write id pos len buf stage =>
    pos + len ≤ PAGE * U32 ∧ (∀ n, stage.count = some n → n ≤ len) ∧
    ∀ at_, pos ≤ at_ → at_ < pos + len → w.claim id at_ ≠ .unknown → w.claim id at_ = .pending op ∧
      ∀ n, stage.count = some n → at_ < pos + n → w.InFile id at_ (buf (at_ - pos)) ∧
        (stage.passed (at_ / PAGE) → w.InDirty id at_ (buf (at_ - pos)))
  | .read id pos len expect since stage =>
    ∀ at_, since at_ ≤ w.version id at_ ∧ ∀ byte, expect at_ = some byte → since at_ = w.version id at_ →
      w.claim id at_ = .owed byte ∧ (pos ≤ at_ → at_ < pos + len → stage.sees pos at_ byte)
  | .back id _ (.copied index copy) =>
    ∀ at_ byte, w.claim id at_ = .owed byte → at_ / PAGE = index → copy (at_ % PAGE) = byte
  | .back id _ (.sized index copy count) =>
    count ≤ PAGE ∧ ∀ at_ byte, w.claim id at_ = .owed byte → at_ / PAGE = index → copy (at_ % PAGE) = byte
  | .back _ _ (.pick _) => True
  | .map id page _ _ stage =>
    page < U32 ∧ ∀ seen r, stage = .reading seen r → seen ≤ w.changes ∧
      (seen = w.changes → ∀ at_ byte, w.claim id at_ = .owed byte → at_ / PAGE = page →
        r.sees (page * PAGE) at_ byte)

namespace World

variable {w : World}

structure Inv (w : World) : Prop where
  bound : ∀ id at_, w.claim id at_ ≠ .unknown → at_ < PAGE * U32
  owed : ∀ id at_ byte, w.claim id at_ = .owed byte → w.InFile id at_ byte ∧ w.InPage id at_ byte
  lone : ∀ id at_ op, w.claim id at_ = .pending op → ∃ o, w.ops.lookup op = some o ∧ o.writes id at_ = true
  fits : ∀ op o, w.ops.lookup op = some o → o.Fits w op
  apart : ∀ op o writer o', w.ops.lookup op = some o → w.ops.lookup writer = some o' →
    ∀ id index copy, o.copy? = some (id, index, copy) → o'.unsettled id index = false

theorem Inv.kept (inv : w.Inv) : w.Kept where
  read := by
    intro op id pos len expect since n out found at_ byte above below expected current
    exact ((inv.fits op _ found at_).2 byte expected current).2 above below
  file := by
    intro id at_ byte owed _
    have inFile := (inv.owed id at_ byte owed).1
    exact ⟨inFile.inside, inFile.data⟩

theorem Inv.boot (boot : Boot w) : w.Inv where
  bound := fun id at_ claimed => absurd (boot.claim id at_) claimed
  owed := by
    intro id at_ byte claimed
    rw [boot.claim] at claimed
    cases claimed
  lone := by
    intro id at_ op claimed
    rw [boot.claim] at claimed
    cases claimed
  fits := by
    intro op o found
    rw [boot.ops] at found
    cases found
  apart := by
    intro op o writer o' found
    rw [boot.ops] at found
    cases found

end World
end Myos.Fs.PageCache
