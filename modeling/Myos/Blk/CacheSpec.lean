import Myos.Blk.Cache

namespace Myos.Blk
open Lib

namespace World

variable {w w' : World} {op : Nat} {s : Span} {buf : Nat → Byte}

/-- Every kept byte of a chunk that no write is under way to is the disk's, and so was every byte a
read copied. -/
structure Coherent (w : World) : Prop where
  kept : ∀ e ∈ w.entries, ∀ serial, w.devs e.disk = some (.disk serial) → w.writing e.disk e.chunk = false →
    ∀ off < CHUNK, e.bytes off = w.store serial (e.chunk * CHUNK + off)
  read : ∀ op s whole buf held stage, w.ops.lookup op = some (.read s whole buf held stage) →
    ∀ i byte stored, buf i = some byte → held i = some stored → byte = stored

def SentAt (w : World) (disk at_ : Nat) : Prop :=
  ∃ op s buf ok, w.ops.lookup op = some (.write s buf (some ok)) ∧ s.disk = disk ∧ s.covers at_ = true

def crossed (w : World) (s : Span) : Bool :=
  0 < w.ops.count fun _ o =>
    match o with
    | .write t _ (some _) =>
      t.disk == s.disk &&
        decide (t.lba * SECTOR < s.lba * SECTOR + s.len ∧ s.lba * SECTOR < t.lba * SECTOR + t.len)
    | _ => false

/-- A write goes to the device while no other of the same bytes is between the device and the cache; a
write that failed finds none of its chunks kept; a disk is forgotten while no call is under way on it,
and its slot is taken only after that. -/
def meets (w : World) : Event → Bool
  | .register slot _ => (w.leaving slot).isNone
  | .forget disk => w.ops.count (fun _ o => o.span.disk == disk) == 0
  | .next op _ _ =>
    match w.ops.lookup op with
    | some (.write s _ none) => !w.crossed s
    | some (.write s _ (some false)) =>
      w.entries.all fun e => e.disk != s.disk || !decide (s.first ≤ e.chunk ∧ e.chunk < s.last)
    | _ => true
  | _ => true

def unit (w : World) (disk : Nat) : Option Nat :=
  match w.devs disk with
  | some (.disk serial) => some serial
  | _ => w.leaving disk

def Right (w : World) (e : Entry) : Prop :=
  ∃ serial, w.unit e.disk = some serial ∧ ∀ off < CHUNK, ¬ w.SentAt e.disk (e.chunk * CHUNK + off) →
    e.bytes off = w.store serial (e.chunk * CHUNK + off)

end World

def Reading.Fresh (w : World) (s : Span) : Reading → Prop
  | .request _ _ writes => writes ≤ w.writes
  | .size r _ | .keep r _ _ => r.writes ≤ w.writes ∧ (r.writes = w.writes →
      ∀ at_, ¬ w.SentAt s.disk at_ → r.data at_ = w.store s.serial at_)
  | _ => True

def Op.Fits (w : World) : Op → Prop
  | .read s _ buf held stage => w.unit s.disk = some s.serial ∧
      (∀ i byte stored, buf i = some byte → held i = some stored → byte = stored) ∧ stage.Fresh w s
  | .write s buf sent => w.unit s.disk = some s.serial ∧ s.len % SECTOR = 0 ∧
      (sent = some true → ∀ at_, s.covers at_ = true → w.store s.serial at_ = buf (at_ - s.lba * SECTOR))

namespace World

variable {w w' : World} {op : Nat} {s : Span} {buf : Nat → Byte}

structure Inv (w : World) : Prop where
  staying : ∀ disk serial, w.devs disk = some (.disk serial) → w.leaving disk = none
  fresh : ∀ disk serial, w.unit disk = some serial → serial < w.serial
  apart : ∀ disk other serial, w.unit disk = some serial → w.unit other = some serial → disk = other
  entries : ∀ e ∈ w.entries, w.Right e
  ops : ∀ op o, w.ops.lookup op = some o → o.Fits w
  alone : ∀ op other s t buf buf' ok ok', w.ops.lookup op = some (.write s buf (some ok)) →
    w.ops.lookup other = some (.write t buf' (some ok')) → s.disk = t.disk →
    ∀ at_, s.covers at_ = true → t.covers at_ = true → op = other

theorem unit_of_disk {disk serial : Nat} (found : w.devs disk = some (.disk serial)) : w.unit disk = some serial := by
  rw [unit, found]

theorem writing_of_sent {disk chunk off : Nat} (short : off < CHUNK) (sent : w.SentAt disk (chunk * CHUNK + off)) :
    w.writing disk chunk = true := by
  obtain ⟨op, s, buf, ok, found, same, covered⟩ := sent
  refine decide_eq_true (Table.count_pos_iff.mpr ⟨op, _, found, ?_⟩)
  have covered := of_decide_eq_true covered
  simp only [same, BEq.rfl, Bool.true_and, Span.overlaps, decide_eq_true_eq]
  rw [Nat.succ_mul]
  omega

theorem Inv.coherent (inv : w.Inv) : w.Coherent where
  kept := by
    intro e member serial found idle off short
    obtain ⟨serial', same, right⟩ := inv.entries e member
    cases (unit_of_disk found).symm.trans same
    refine right off short fun sent => ?_
    rw [writing_of_sent short sent] at idle
    cases idle
  read := fun op s whole buf held stage found => (inv.ops op _ found).2.1

theorem Inv.boot (boot : Boot w) : w.Inv := by
  have missing (disk : Nat) : w.unit disk = none := by
    rw [unit, boot.devs]
    exact boot.leaving disk
  refine ⟨fun disk _ _ => boot.leaving disk, ?_, ?_, ?_, ?_, ?_⟩
  · intro disk serial found
    cases (missing disk).symm.trans found
  · intro disk other serial found
    cases (missing disk).symm.trans found
  · intro e member
    rw [boot.entries] at member
    cases member
  · intro op o found
    rw [boot.ops] at found
    cases found
  · intro op other s t buf buf' ok ok' found
    rw [boot.ops] at found
    cases found

theorem Fits.mono {o : Op} (fits : o.Fits w) (unit : w'.unit o.span.disk = w.unit o.span.disk)
    (store : w'.store o.span.serial = w.store o.span.serial) (writes : w.writes ≤ w'.writes)
    (sent : w.writes = w'.writes → ∀ at_, w.SentAt o.span.disk at_ → w'.SentAt o.span.disk at_) : o.Fits w' := by
  cases o with
  | read s whole buf held stage =>
    obtain ⟨disk, right, fresh⟩ := fits
    refine ⟨unit.trans disk, right, ?_⟩
    cases stage with
    | look | tail | run | count | direct | done => trivial
    | request chunk last seen => exact Nat.le_trans fresh writes
    | size run chunk | keep run chunk spare =>
      refine ⟨Nat.le_trans fresh.1 writes, fun current at_ unsent => ?_⟩
      have older := fresh.1
      have same : w.writes = w'.writes := by omega
      have store : w'.store s.serial = w.store s.serial := store
      rw [store]
      exact fresh.2 (current.trans same.symm) at_ fun before => unsent (sent same at_ before)
  | write s buf done =>
    refine ⟨unit.trans fits.1, fits.2.1, fun ok at_ covered => ?_⟩
    have store : w'.store s.serial = w.store s.serial := store
    rw [store]
    exact fits.2.2 ok at_ covered

theorem Fits.later {o : Op} (fits : o.Fits w) (unit : w'.unit o.span.disk = w.unit o.span.disk)
    (store : w'.store = w.store) (writes : w'.writes = w.writes + 1) : o.Fits w' := by
  refine Fits.mono fits unit (by rw [store]) ?_ fun same => ?_
  · omega
  · omega

end World
end Myos.Blk
