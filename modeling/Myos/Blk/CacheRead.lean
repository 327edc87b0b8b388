import Myos.Blk.CacheSpec

namespace Myos.Blk.World
open Lib

variable {w w' : World} {op : Nat} {s : Span} {buf : Nat → Byte}

theorem Inv.setOps (inv : w.Inv) {ops : Table Nat Op}
    (sent : ∀ x s buf ok, ops.lookup x = some (.write s buf (some ok)) ↔ w.ops.lookup x = some (.write s buf (some ok)))
    (fits : ∀ x o, ops.lookup x = some o → o.Fits w) : World.Inv { w with ops } := by
  have same {disk at_ : Nat} : World.SentAt { w with ops } disk at_ ↔ w.SentAt disk at_ := by simp only [SentAt, sent]
  refine ⟨inv.staying, inv.fresh, inv.apart, ?_, ?_, ?_⟩
  · intro e member
    obtain ⟨serial, unit, right⟩ := inv.entries e member
    exact ⟨serial, unit, fun off short idle => right off short fun sent => idle (same.mpr sent)⟩
  · intro x o found
    exact Fits.mono (fits x o found) rfl rfl le_rfl fun _ _ sent => same.mpr sent
  · intro first second s t buf buf' ok ok' found found'
    exact inv.alone first second s t buf buf' ok ok' ((sent ..).mp found) ((sent ..).mp found')

theorem Inv.put {o : Op} (inv : w.Inv) (fits : o.Fits w) (unsent : ∀ s buf ok, o ≠ .write s buf (some ok))
    (notSent : ∀ s buf ok, w.ops.lookup op ≠ some (.write s buf (some ok))) : (w.put op o).Inv := by
  refine inv.setOps (fun x s buf ok => ?_) fun x o' found => ?_
  · by_cases same : x = op
    · subst same
      rw [AList.lookup_insert]
      exact iff_of_false (fun is => unsent s buf ok (Option.some.inj is)) (notSent s buf ok)
    · rw [AList.lookup_insert_ne same]
  · obtain ⟨rfl, rfl⟩ | ⟨_, before⟩ := Table.lookup_insert_some found
    · exact fits
    · exact inv.ops x o' before

theorem Inv.gone (inv : w.Inv) (notSent : ∀ s buf ok, w.ops.lookup op ≠ some (.write s buf (some ok))) :
    (w.gone op).Inv := by
  refine inv.setOps (fun x s buf ok => ?_) fun x o found => inv.ops x o (Table.lookup_erase_some found).2
  by_cases same : x = op
  · subst same
    rw [AList.lookup_erase]
    exact iff_of_false (fun is => by cases is) (notSent s buf ok)
  · rw [AList.lookup_erase_ne same]

theorem Inv.setEntries (inv : w.Inv) {entries : List Entry} {hand : Nat}
    (right : ∀ e ∈ entries, w.Right e) : World.Inv { w with entries := entries, hand := hand } where
  staying := inv.staying
  fresh := inv.fresh
  apart := inv.apart
  entries := right
  ops := fun other o found => Fits.mono (inv.ops other o found) rfl rfl le_rfl fun _ _ sent => sent
  alone := inv.alone

theorem evict_right {n : Nat} {fuel : Nat} {entries : List Entry} {hand : Nat}
    (right : ∀ e ∈ entries, w.Right e) : ∀ e ∈ (evict n fuel entries hand).1, w.Right e := by
  induction fuel generalizing entries hand with
  | zero => exact right
  | succ fuel ih =>
    unfold evict
    dsimp only
    split
    · exact right
    rename_i e here
    split
    · refine ih fun e' member => ?_
      rcases List.mem_or_eq_of_mem_set member with before | rfl
      · exact right e' before
      · exact right e (List.mem_of_getElem? here)
    · exact right

theorem Inv.keep (inv : w.Inv) {disk chunk writes : Nat} {bytes : Nat → Byte} {spare : Bool}
    (right : w.writes = writes → w.Right ⟨disk, chunk, bytes, false⟩) :
    (w.keep disk chunk writes bytes spare).Inv := by
  unfold World.keep
  split
  · exact inv
  rename_i current
  have right := right (Decidable.not_not.mp fun moved => current (.inl moved))
  split
  · refine inv.setEntries fun e member => ?_
    rcases List.mem_append.mp member with before | new
    · exact inv.entries e before
    · cases List.mem_singleton.mp new
      exact right
  have evicted : ∀ e ∈ (evict w.entries.length (2 * w.entries.length) w.entries w.hand).1, w.Right e :=
    evict_right inv.entries
  split
  · rename_i entries hand found
    rw [found] at evicted
    exact inv.setEntries evicted
  rename_i entries hand i found
  rw [found] at evicted
  refine inv.setEntries fun e member => ?_
  rcases List.mem_or_eq_of_mem_set member with before | rfl
  · exact evicted e before
  · exact right

theorem Inv.markUsed (inv : w.Inv) (disk chunk : Nat) : (w.markUsed disk chunk).Inv := by
  refine inv.setEntries fun e member => ?_
  obtain ⟨e', before, rfl⟩ := List.mem_map.mp member
  have right := inv.entries e' before
  split
  · exact right
  · exact right

theorem holds_eq {i : Nat} {stored : Byte} (held : w.holds s i = some stored) :
    w.writing s.disk ((s.lba * SECTOR + i) / CHUNK) = false ∧ w.store s.serial (s.lba * SECTOR + i) = stored := by
  unfold holds at held
  split at held
  · cases held
  · rename_i idle
    exact ⟨Bool.eq_false_iff.mpr idle, Option.some.inj held⟩

theorem copied_fits {buf held : Nat → Option Byte} {chunk last whole : Nat} {source : Nat → Byte} {stage : Reading}
    (unit : w.unit s.disk = some s.serial)
    (right : ∀ i byte stored, buf i = some byte → held i = some stored → byte = stored) (fresh : stage.Fresh w s)
    (agrees : ∀ i, s.within chunk last i = true → w.writing s.disk ((s.lba * SECTOR + i) / CHUNK) = false →
      source (s.lba * SECTOR + i) = w.store s.serial (s.lba * SECTOR + i)) :
    (w.copied s buf held chunk last source whole stage).Fits w := by
  refine ⟨unit, fun i byte stored copied hold => ?_, fresh⟩
  dsimp only at copied hold
  split at copied
  · rename_i inside
    rw [if_pos inside] at hold
    obtain ⟨idle, hold⟩ := holds_eq hold
    cases copied
    exact (agrees i inside idle).trans hold
  · rename_i outside
    rw [if_neg outside] at hold
    exact right i byte stored copied hold

theorem find_mem {disk chunk : Nat} {e : Entry} (found : w.find disk chunk = some e) :
    e ∈ w.entries ∧ e.disk = disk ∧ e.chunk = chunk := by
  have here := List.find?_some found
  simp only [Bool.and_eq_true, beq_iff_eq] at here
  exact ⟨List.mem_of_find?_eq_some found, here⟩

theorem Inv.nextRead (inv : w.Inv) {whole : Nat} {buf held : Nat → Option Byte} {stage : Reading} {ok : Bool}
    (found : w.ops.lookup op = some (.read s whole buf held stage))
    (stepped : w.nextRead op s whole buf held ok stage = some w') : w'.Inv := by
  have notSent (t : Span) (buf : Nat → Byte) (ok : Bool) : w.ops.lookup op ≠ some (.write t buf (some ok)) := by
    rw [found]
    exact fun same => by cases same
  obtain ⟨unit, right, fresh⟩ := inv.ops op _ found
  have put {o : Op} {buf held : Nat → Option Byte} {stage : Reading} (is : o = .read s whole buf held stage)
      (fits : o.Fits w) : (w.put op o).Inv :=
    inv.put fits (fun _ _ _ same => by cases is.symm.trans same) notSent
  cases stage with
  | look chunk =>
    simp only [World.nextRead] at stepped
    split at stepped
    · cases stepped
      exact put rfl ⟨unit, right, trivial⟩
    cases cached : w.find s.disk chunk with
    | none =>
      rw [cached] at stepped
      cases stepped
      refine put rfl ⟨unit, right, ?_⟩
      split <;> trivial
    | some e =>
      rw [cached] at stepped
      cases stepped
      obtain ⟨member, disk, rfl⟩ := find_mem cached
      obtain ⟨serial, named, same⟩ := inv.entries e member
      rw [disk] at named
      cases unit.symm.trans named
      refine (inv.markUsed s.disk e.chunk).put ?_ (fun _ _ _ same => by cases same) notSent
      -- a hit: the kept bytes are the disk's where no write of the chunk is under way
      have fresh : (Reading.look (e.chunk + 1)).Fresh w s := trivial
      refine Fits.mono (w := w) (copied_fits unit right fresh ?_) rfl rfl le_rfl (fun _ _ sent => sent)
      intro i inside idle
      simp only [Span.within, decide_eq_true_eq, Nat.succ_mul] at inside
      have chunk : (s.lba * SECTOR + i) / CHUNK = e.chunk :=
        Nat.div_eq_of_lt_le inside.2.1 (by rw [Nat.succ_mul]; exact inside.2.2)
      have whole : e.chunk * CHUNK + (s.lba * SECTOR + i - e.chunk * CHUNK) = s.lba * SECTOR + i := by omega
      have short : s.lba * SECTOR + i - e.chunk * CHUNK < CHUNK := by omega
      have kept := same (s.lba * SECTOR + i - e.chunk * CHUNK) short fun sent => by
        rw [chunk, ← disk, writing_of_sent short sent] at idle
        cases idle
      rw [whole] at kept
      exact kept
  | tail chunk | direct =>
    simp only [World.nextRead] at stepped
    split at stepped
    · cases stepped
      exact put rfl (copied_fits unit right trivial fun _ _ _ => rfl)
    · cases stepped
      exact inv.gone notSent
  | run chunk =>
    cases stepped
    exact put rfl ⟨unit, right, trivial⟩
  | count chunk last =>
    cases stepped
    exact put rfl ⟨unit, right, le_rfl⟩
  | request chunk last writes =>
    simp only [World.nextRead] at stepped
    split at stepped
    · cases stepped
      exact put rfl (copied_fits unit right ⟨fresh, fun _ _ _ => rfl⟩ fun _ _ _ => rfl)
    · cases stepped
      exact inv.gone notSent
  | size run chunk =>
    cases stepped
    refine put rfl ⟨unit, right, ?_⟩
    split
    · trivial
    · exact fresh
  | keep run chunk spare =>
    cases stepped
    have kept : (w.keep s.disk chunk run.writes (fun off => run.data (chunk * CHUNK + off)) spare).Inv :=
      inv.keep fun current => ⟨s.serial, unit, fun off _ idle => fresh.2 current.symm _ idle⟩
    have same : ∀ w', w.keep s.disk chunk run.writes (fun off => run.data (chunk * CHUNK + off)) spare = w' →
        w'.devs = w.devs ∧ w'.leaving = w.leaving ∧ w'.store = w.store ∧ w'.writes = w.writes ∧ w'.ops = w.ops := by
      intro w' made
      unfold World.keep at made
      split at made
      · subst made
        exact ⟨rfl, rfl, rfl, rfl, rfl⟩
      split at made
      · subst made
        exact ⟨rfl, rfl, rfl, rfl, rfl⟩
      · split at made <;> subst made <;> exact ⟨rfl, rfl, rfl, rfl, rfl⟩
    obtain ⟨devs, leaving, store, writes, ops⟩ := same _ rfl
    refine kept.put ?_ (fun _ _ _ same => by cases same) (by rw [ops]; exact notSent)
    refine Fits.mono (w := w) (o := .read s whole buf held (.size run (chunk + 1))) ⟨unit, right, fresh⟩ ?_
      (by rw [store]) (by rw [writes]) (fun _ at_ sent => ?_)
    · simp only [World.unit, devs, leaving]
    · unfold SentAt
      rw [ops]
      exact sent
  | done => cases stepped

end Myos.Blk.World
