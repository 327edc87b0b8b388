import Myos.Task.FdRefs

namespace Myos.Task.Fd.World
open Lib

variable {w : World} {extra : List FdEntry} {e : FdEntry} {pid : Pid} {fd : Nat}

/-- Every count is the number of entries that name the object, those in `extra` included: the references a
call holds between two of its steps. -/
structure Inv (w : World) (extra : List FdEntry) : Prop where
  counted : ∀ o, w.objs.refs o = w.names o + kernelHeld o + extra.countP (·.names o)
  sane : w.objs.Sane
  fds : ∀ key s, w.fds.lookup key = some s → s.entry.sound
  held : ∀ i e, w.held.lookup i = some e → e.sound
  extra : ∀ e ∈ extra, e.sound

theorem weight_entry (w : World) (pid : Pid) (fd : Nat) (o : Obj) :
    w.fds.weight (fun _ s => s.entry.names o) (pid, fd) = (w.entry pid fd).toList.countP (·.names o) := by
  unfold Table.weight entry
  cases w.fds.lookup (pid, fd) with
  | none => rfl
  | some old => cases named : old.entry.names o <;> simp [named]

theorem names_setFd (w : World) (pid : Pid) (fd : Nat) (s : Slot) (o : Obj) :
    (w.setFd pid fd s).names o + (w.entry pid fd).toList.countP (·.names o) = w.names o + (s.entry.names o).toNat := by
  have counts := Table.count_insert w.fds (fun _ s => s.entry.names o) (pid, fd) s
  rw [weight_entry] at counts
  unfold names setFd
  simp only
  omega

theorem names_clearFd (w : World) (pid : Pid) (fd : Nat) (o : Obj) :
    (w.clearFd pid fd).names o + (w.entry pid fd).toList.countP (·.names o) = w.names o := by
  have counts := Table.count_erase w.fds (fun _ s => s.entry.names o) (pid, fd)
  rw [weight_entry] at counts
  unfold names clearFd
  simp only
  omega

theorem entry_sound (inv : w.Inv extra) (found : w.entry pid fd = some e) : e.sound := by
  obtain ⟨s, lookup, rfl⟩ := Option.map_eq_some_iff.mp found
  exact inv.fds _ s lookup

theorem toList_sound (inv : w.Inv extra) (e : FdEntry) (member : e ∈ (w.entry pid fd).toList) : e.sound :=
  entry_sound inv (Option.mem_toList.mp member)

theorem countP_cons_names (o : Obj) : (e :: extra).countP (·.names o) = extra.countP (·.names o) + (e.names o).toNat := by
  rw [List.countP_cons]
  cases e.names o <;> rfl

theorem Inv.setFd (inv : w.Inv (e :: extra)) (pid : Pid) (fd : Nat) (cloexec : Bool) :
    (w.setFd pid fd ⟨e, cloexec⟩).Inv ((w.entry pid fd).toList ++ extra) := by
  refine ⟨fun o => ?_, inv.sane, fun key s found => ?_, inv.held, fun e' member => ?_⟩
  · have named := names_setFd w pid fd ⟨e, cloexec⟩ o
    have counted := inv.counted o
    rw [countP_cons_names] at counted
    rw [List.countP_append]
    change w.objs.refs o = _
    simp only at named
    omega
  · obtain ⟨rfl, rfl⟩ | ⟨_, found⟩ := Table.lookup_insert_some found
    · exact inv.extra e (.head _)
    · exact inv.fds key s found
  · obtain old | kept := List.mem_append.mp member
    · exact toList_sound inv e' old
    · exact inv.extra e' (.tail _ kept)

theorem Inv.clearFd (inv : w.Inv extra) (pid : Pid) (fd : Nat) : (w.clearFd pid fd).Inv ((w.entry pid fd).toList ++ extra) := by
  refine ⟨fun o => ?_, inv.sane, fun key s found => ?_, inv.held, fun e' member => ?_⟩
  · have named := names_clearFd w pid fd o
    have counted := inv.counted o
    rw [List.countP_append]
    change w.objs.refs o = _
    omega
  · exact inv.fds key s (Table.lookup_erase_some found).2
  · obtain old | kept := List.mem_append.mp member
    · exact toList_sound inv e' old
    · exact inv.extra e' kept

theorem refs_extra_ne_zero (inv : w.Inv (e :: extra)) (o : Obj) (isObj : e.obj = some o) : w.objs.refs o ≠ 0 := by
  have counted := inv.counted o
  have named : e.names o = true := by
    rw [FdEntry.names, isObj]
    exact beq_self_eq_true _
  rw [countP_cons_names, named] at counted
  simp only [Bool.toNat_true] at counted
  omega

theorem Inv.fdDrop (inv : w.Inv (e :: extra)) : (w.setObjs (w.objs.fdDrop e)).Inv extra := by
  refine ⟨fun o => ?_, inv.sane.fdDrop, inv.fds, inv.held, fun e' member => inv.extra e' (.tail _ member)⟩
  have counted := inv.counted o
  rw [countP_cons_names] at counted
  change (w.objs.fdDrop e).refs o = w.names o + _ + _
  rw [Objects.refs_fdDrop (refs_extra_ne_zero inv)]
  omega

theorem Inv.fdClone (inv : w.Inv extra) (sound : e.sound)
    (live : ∀ o, e.obj = some o → w.objs.exists_ o = true ∧ w.objs.room o) (sane : (w.objs.fdClone e).Sane) :
    (w.setObjs (w.objs.fdClone e)).Inv (e :: extra) := by
  refine ⟨fun o => ?_, sane, inv.fds, inv.held, fun e' member => ?_⟩
  · have before := inv.counted o
    rw [countP_cons_names]
    change (w.objs.fdClone e).refs o = w.names o + _ + _
    rw [Objects.refs_fdClone live]
    omega
  · obtain rfl | kept := List.mem_cons.mp member
    · exact sound
    · exact inv.extra e' kept

theorem names_pos_of_entry (found : w.entry pid fd = some e) {o : Obj} (isObj : e.obj = some o) : w.names o ≠ 0 := by
  obtain ⟨s, lookup, rfl⟩ := Option.map_eq_some_iff.mp found
  have pos : 0 < w.fds.count (fun _ s => s.entry.names o) :=
    Table.count_pos_iff.mpr ⟨(pid, fd), s, lookup, by rw [FdEntry.names, isObj]; exact beq_self_eq_true _⟩
  unfold names
  omega

theorem Inv.fdClone_entry (inv : w.Inv extra) (found : w.entry pid fd = some e)
    (room : ∀ o, e.obj = some o → w.objs.room o) : (w.setObjs (w.objs.fdClone e)).Inv (e :: extra) := by
  have counted (o : Obj) (isObj : e.obj = some o) : w.objs.refs o ≠ 0 := by
    have counted := inv.counted o
    have named := names_pos_of_entry found isObj
    omega
  exact inv.fdClone (entry_sound inv found)
    (fun o isObj => ⟨Objects.exists_of_refs (counted o isObj), room o isObj⟩) (inv.sane.fdClone counted)

theorem freeFd_entry {minfd : Nat} (free : w.freeFd pid minfd = some fd) : w.entry pid fd = none := by
  obtain ⟨key, found, rfl⟩ := Option.map_eq_some_iff.mp free
  have missing := Table.lookup_free found
  obtain ⟨n, _, rfl⟩ := List.mem_map.mp (List.mem_of_find?_eq_some found)
  rw [entry, missing]
  rfl

theorem entry_setObjs (objs : Objects) : (w.setObjs objs).entry pid fd = w.entry pid fd := rfl

theorem Inv.putFree (inv : w.Inv (e :: extra)) (free : w.entry pid fd = none) (cloexec : Bool) :
    (w.setFd pid fd ⟨e, cloexec⟩).Inv extra := by
  have put := inv.setFd pid fd cloexec
  rw [free] at put
  exact put

theorem Inv.putEntry (inv : w.Inv [e]) : (w.putEntry pid e).Inv [] := by
  unfold World.putEntry
  split
  · rename_i fd free
    exact inv.putFree (freeFd_entry free) false
  · exact inv.fdDrop

theorem Inv.close (inv : w.Inv extra) (pid : Pid) (fd : Nat) : (w.close pid fd).Inv extra := by
  have cleared := inv.clearFd pid fd
  unfold World.close
  split
  · exact inv
  · rename_i e found
    rw [found] at cleared
    exact cleared.fdDrop

theorem Inv.closeAll (inv : w.Inv extra) (pid : Pid) (fds : List Nat) :
    (fds.foldl (fun w fd => w.close pid fd) w).Inv extra := by
  induction fds generalizing w with
  | nil => exact inv
  | cons fd fds ih => exact ih (inv.close pid fd)

theorem Inv.hold (inv : w.Inv (e :: extra)) {i : Nat} (free : w.held.lookup i = none) :
    ({ w with held := w.held.insert i e } : World).Inv extra := by
  refine ⟨fun o => ?_, inv.sane, inv.fds, fun j e' found => ?_, fun e' member => inv.extra e' (.tail _ member)⟩
  · have counts := Table.count_insert w.held (fun _ e => e.names o) i e
    rw [Table.weight_of_none _ free] at counts
    have counted := inv.counted o
    rw [countP_cons_names] at counted
    unfold names at counted ⊢
    simp only
    omega
  · obtain ⟨rfl, rfl⟩ | ⟨_, found⟩ := Table.lookup_insert_some found
    · exact inv.extra e (.head _)
    · exact inv.held j e' found

theorem Inv.unhold (inv : w.Inv extra) {i : Nat} (found : w.held.lookup i = some e) :
    ({ w with held := w.held.erase i } : World).Inv (e :: extra) := by
  refine ⟨fun o => ?_, inv.sane, inv.fds, fun j e' foundJ => ?_, fun e' member => ?_⟩
  · have counts := Table.count_erase w.held (fun _ e => e.names o) i
    rw [Table.weight_of_some _ found] at counts
    have counted := inv.counted o
    rw [countP_cons_names]
    unfold names at counted ⊢
    simp only
    omega
  · exact inv.held j e' (Table.lookup_erase_some foundJ).2
  · obtain rfl | kept := List.mem_cons.mp member
    · exact inv.held i e' found
    · exact inv.extra e' kept

theorem Inv.setObjs (inv : w.Inv []) {objs : Objects}
    (counted : ∀ o, objs.refs o = w.objs.refs o + extra.countP (·.names o)) (sane : objs.Sane)
    (sound : ∀ e ∈ extra, e.sound) : (w.setObjs objs).Inv extra := by
  refine ⟨fun o => ?_, sane, inv.fds, inv.held, sound⟩
  have before := inv.counted o
  rw [List.countP_nil] at before
  change objs.refs o = w.names o + kernelHeld o + _
  rw [counted o]
  omega

end Myos.Task.Fd.World
