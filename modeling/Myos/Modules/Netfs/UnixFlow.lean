import Myos.Modules.Netfs.UnixPair

namespace Myos.Modules.Netfs.Unix

namespace Conv

theorem markLimit_le (marks : List (Nat × List Nat)) (start n : Nat) : markLimit marks start n ≤ n := by
  unfold markLimit
  split
  · exact Nat.min_le_left _ _
  · exact Nat.le_refl n

theorem markLimit_pos (marks : List (Nat × List Nat)) (start : Nat) {n : Nat} (positive : 0 < n) :
    0 < markLimit marks start n := by
  unfold markLimit
  split
  next m found =>
    have later := List.find?_some found
    simp only [decide_eq_true_eq] at later
    omega
  · exact positive

theorem markLimit_before {marks : List (Nat × List Nat)} (sorted : marks.Pairwise fun a b => a.1 < b.1) (start n : Nat)
    {m : Nat × List Nat} (mem : m ∈ marks) (behind : start < m.1) : start + markLimit marks start n ≤ m.1 := by
  unfold markLimit
  induction marks with
  | nil => cases mem
  | cons first rest ih =>
    rw [List.pairwise_cons] at sorted
    by_cases at_first : start < first.1
    · rw [List.find?_cons_of_pos (by simpa using at_first)]
      have least : first.1 ≤ m.1 := by
        rcases List.mem_cons.mp mem with rfl | mem
        · exact Nat.le_refl _
        · exact Nat.le_of_lt (sorted.1 m mem)
      dsimp only
      omega
    · rw [List.find?_cons_of_neg (by simpa using at_first)]
      rcases List.mem_cons.mp mem with rfl | mem
      · exact absurd behind at_first
      · exact ih sorted.2 mem

theorem writerLimit_le (writers : List (Nat × Nat)) (start n : Nat) : writerLimit writers start n ≤ n := by
  unfold writerLimit
  split
  · exact Nat.min_le_left _ _
  · exact Nat.le_refl n

theorem writerLimit_pass_pos (writers : List (Nat × Nat)) (start : Nat) {n : Nat} (positive : 0 < n) :
    0 < writerLimit (passWriters start writers) start n := by
  fun_induction passWriters start writers with
  | case1 first second rest passed ih => exact ih
  | case2 first second rest kept =>
    simp only [writerLimit, List.getElem?_cons_succ, List.getElem?_cons_zero]
    omega
  | case3 short few =>
    unfold writerLimit
    split
    next w found =>
      match short, few, found with
      | first :: second :: rest, few, _ => exact absurd rfl (few first second rest)
    · exact positive

variable (c : Conv) (cap : Nat)

theorem markCount_le : c.markCount cap ≤ min cap c.rx.length := markLimit_le _ _ _

theorem readCount_le : c.readCount cap ≤ c.markCount cap := writerLimit_le _ _ _

theorem readCount_le_length : c.readCount cap ≤ c.rx.length := by
  have first := c.readCount_le cap
  have second := c.markCount_le cap
  omega

theorem readCount_pos {c : Conv} {cap : Nat} (room : 0 < cap) (held : c.rx ≠ []) : 0 < c.readCount cap := by
  have length : 0 < c.rx.length := List.length_pos_iff.mpr held
  exact writerLimit_pass_pos _ _ (markLimit_pos _ _ (by omega))

theorem readCount_pos_iff : 0 < c.readCount cap ↔ 0 < c.markCount cap := by
  constructor
  · intro positive
    exact Nat.lt_of_lt_of_le positive (c.readCount_le cap)
  · intro nonzero
    exact writerLimit_pass_pos _ _ nonzero

end Conv

def starts (base : Nat) : List Bytes → List Nat
  | [] => []
  | record :: rest => base :: starts (base + record.length) rest

theorem starts_append (base : Nat) (records : List Bytes) (last : Bytes) :
    starts base (records ++ [last]) = starts base records ++ [base + records.flatten.length] := by
  induction records generalizing base with
  | nil => simp [starts]
  | cons record rest ih => simp [starts, ih, Nat.add_assoc]

variable {c : Conv} {f : Flow} {writers : List (Nat × Nat)} {base : Nat}

theorem base_le_of_mem_starts {at_ : Nat} {records : List Bytes} (mem : at_ ∈ starts base records) : base ≤ at_ := by
  induction records generalizing base with
  | nil => cases mem
  | cons record rest ih =>
    rcases List.mem_cons.mp mem with rfl | mem
    · exact Nat.le_refl _
    · exact Nat.le_trans (Nat.le_add_right _ _) (ih mem)

structure Holds (c : Conv) (f : Flow) : Prop where
  base : c.rxBase = f.passed c.records
  within : c.rxBase ≤ f.taken.length
  bytes : c.rx = f.taken.drop c.rxBase
  marks : f.attached = f.arrived ++ c.marks
  sorted : c.marks.Pairwise fun a b => a.1 < b.1
  ranged : ∀ m ∈ c.marks, c.rxBase ≤ m.1 ∧ m.1 < f.taken.length ∧ m.2 ≠ []
  stream : c.records = false → f.got = f.taken.take c.rxBase

structure HoldsRecords (c : Conv) (f : Flow) : Prop where
  fewer : f.reads.length ≤ f.writes.length
  each : List.Forall₂ (fun read write => read.2 = write.take read.1 ∧ read.2 ≠ []) f.reads (f.writes.take f.reads.length)
  nonempty : ∀ write ∈ f.writes, write ≠ []
  writers : ∃ lead, c.writers.map (·.1) = lead ++ starts c.rxBase (f.writes.drop f.reads.length) ∧
    (lead = [] ∨ ∃ start, lead = [start] ∧ start < c.rxBase)
  marksAt : ∀ m ∈ c.marks, m.1 ∈ starts c.rxBase (f.writes.drop f.reads.length)

namespace Flow

variable (f : Flow)

theorem taken_wrote (bytes : Bytes) (fds : List Nat) : (f.wrote bytes fds).taken = f.taken ++ bytes := by
  simp [taken, wrote]

theorem got_wrote (bytes : Bytes) (fds : List Nat) : (f.wrote bytes fds).got = f.got := rfl

theorem passed_wrote (records : Bool) (bytes : Bytes) (fds : List Nat)
    (fewer : records = true → f.reads.length ≤ f.writes.length) :
    (f.wrote bytes fds).passed records = f.passed records := by
  cases records with
  | false => rfl
  | true =>
    simp only [passed, wrote, if_true]
    rw [List.take_append_of_le_length (fewer rfl)]

theorem got_read {records : Bool} {cap : Nat} (bytes : Bytes) (fds : List Nat) :
    (f.read records cap bytes fds).got = f.got ++ bytes := by
  unfold got read
  split
  next missing => simp [missing]
  · simp

theorem taken_length_split : f.taken = (f.writes.take f.reads.length).flatten ++ (f.writes.drop f.reads.length).flatten := by
  unfold taken
  rw [← List.flatten_append, List.take_append_drop]

end Flow

theorem Holds.length (holds : Holds c f) : c.rxBase + c.rx.length = f.taken.length := by
  have within := holds.within
  rw [holds.bytes, List.length_drop]
  omega

theorem Holds.rx_records (holds : Holds c f) (records : c.records = true) : c.rx = (f.writes.drop f.reads.length).flatten := by
  rw [holds.bytes, holds.base, f.taken_length_split, records]
  exact List.drop_left

def Conv.put (p : Conv) (bytes : Bytes) (fds : List Nat) (writers : List (Nat × Nat)) : Conv :=
  { p with
    rx := p.rx ++ bytes
    writers
    marks := if fds = [] then p.marks else p.marks ++ [(p.rxBase + p.rx.length, fds)] }

theorem Holds.wrote {p : Conv} (holds : Holds p f) {bytes : Bytes} (nonempty : bytes ≠ []) (fds : List Nat)
    (writers : List (Nat × Nat)) (fewer : p.records = true → f.reads.length ≤ f.writes.length) :
    Holds (p.put bytes fds writers) (f.wrote bytes fds) := by
  have length := holds.length
  have more : 0 < bytes.length := List.length_pos_iff.mpr nonempty
  constructor
  case base => exact holds.base.trans (f.passed_wrote _ _ _ fewer).symm
  case within =>
    rw [f.taken_wrote, List.length_append]
    exact Nat.le_trans holds.within (Nat.le_add_right _ _)
  case bytes =>
    rw [f.taken_wrote]
    change p.rx ++ bytes = (f.taken ++ bytes).drop p.rxBase
    rw [List.drop_append_of_le_length holds.within]
    exact congrArg (· ++ bytes) holds.bytes
  case marks =>
    unfold Flow.wrote Conv.put
    split
    · exact holds.marks
    · rw [holds.marks, length, List.append_assoc]
  case sorted =>
    unfold Conv.put
    split
    · exact holds.sorted
    rw [List.pairwise_append]
    refine ⟨holds.sorted, List.pairwise_singleton _ _, ?_⟩
    intro m mem last same
    rw [List.mem_singleton.mp same, length]
    exact (holds.ranged m mem).2.1
  case ranged =>
    intro m mem
    rw [f.taken_wrote, List.length_append]
    unfold Conv.put at mem
    split at mem
    · have old := holds.ranged m mem
      exact ⟨old.1, by omega, old.2.2⟩
    next attached =>
      rcases List.mem_append.mp mem with mem | mem
      · have old := holds.ranged m mem
        exact ⟨old.1, by omega, old.2.2⟩
      · rw [List.mem_singleton.mp mem]
        exact ⟨Nat.le_add_right _ _, by dsimp only; omega, attached⟩
  case stream =>
    intro mode
    rw [f.taken_wrote, f.got_wrote]
    change f.got = (f.taken ++ bytes).take p.rxBase
    rw [List.take_append_of_le_length holds.within]
    exact holds.stream mode

theorem HoldsRecords.wrote {p : Conv} (records : HoldsRecords p f) (holds : Holds p f) (mode : p.records = true)
    {bytes : Bytes} (positive : bytes ≠ []) (fds : List Nat) (pid : Nat) :
    HoldsRecords (p.put bytes fds (p.writers ++ [(p.rxBase + p.rx.length, pid)])) (f.wrote bytes fds) := by
  have left : (f.wrote bytes fds).writes.drop f.reads.length = f.writes.drop f.reads.length ++ [bytes] :=
    List.drop_append_of_le_length records.fewer
  have starting : starts p.rxBase ((f.wrote bytes fds).writes.drop f.reads.length) =
      starts p.rxBase (f.writes.drop f.reads.length) ++ [p.rxBase + p.rx.length] := by
    rw [left, starts_append, ← holds.rx_records mode]
  constructor
  case fewer =>
    simp only [Flow.wrote, List.length_append]
    exact Nat.le_trans records.fewer (Nat.le_add_right _ _)
  case each =>
    simp only [Flow.wrote]
    rw [List.take_append_of_le_length records.fewer]
    exact records.each
  case nonempty =>
    intro write mem
    rcases List.mem_append.mp mem with mem | mem
    · exact records.nonempty write mem
    · rw [List.mem_singleton.mp mem]
      exact positive
  case writers =>
    obtain ⟨lead, same, short⟩ := records.writers
    refine ⟨lead, ?_, short⟩
    unfold Conv.put
    rw [List.map_append, same, List.append_assoc]
    exact congrArg (lead ++ ·) starting.symm
  case marksAt =>
    intro m mem
    refine starting ▸ List.mem_append.mpr ?_
    unfold Conv.put at mem
    split at mem
    · exact .inl (records.marksAt m mem)
    rcases List.mem_append.mp mem with mem | mem
    · exact .inl (records.marksAt m mem)
    · rw [List.mem_singleton.mp mem]
      exact .inr (List.mem_singleton.mpr rfl)

namespace Conv

theorem takesMark_head {c : Conv} {cap : Nat} (takes : c.takesMark cap = true) :
    0 < c.markCount cap ∧ ∃ fds rest, c.marks = (c.rxBase, fds) :: rest := by
  unfold takesMark startsMark at takes
  rw [Bool.and_eq_true, decide_eq_true_eq] at takes
  refine ⟨takes.1, ?_⟩
  cases marks : c.marks with
  | nil => simp [marks] at takes
  | cons m rest =>
    have at_start : m.1 = c.rxBase := by simpa [marks] using takes.2
    exact ⟨m.2, rest, by rw [← at_start]⟩

theorem takesMark_false {c : Conv} {cap : Nat} (keeps : ¬c.takesMark cap = true) (positive : 0 < c.markCount cap) :
    ∀ m, c.marks.head? = .some m → m.1 ≠ c.rxBase := by
  intro m first at_start
  apply keeps
  simp [takesMark, startsMark, positive, first, at_start]

end Conv

theorem Holds.arrived_read (holds : Holds c f) (cap : Nat) (bytes : Bytes) :
    f.attached = (f.read c.records cap bytes (c.readBytes cap).delivered).arrived ++ (c.readBytes cap).marks := by
  unfold Conv.readBytes Flow.read
  by_cases takes : c.takesMark cap = true
  · obtain ⟨_, fds, rest, marks⟩ := Conv.takesMark_head takes
    have carried : fds ≠ [] := (holds.ranged (c.rxBase, fds) (by simp [marks])).2.2
    simp only [takes, if_true, marks, List.head?_cons, Option.map_some, Option.getD_some, carried, if_false, List.tail_cons]
    rw [← holds.base, List.append_assoc, List.singleton_append, ← marks]
    exact holds.marks
  · simp only [takes, if_true, if_false, Bool.false_eq_true]
    exact holds.marks

theorem Holds.marks_behind (holds : Holds c f) (cap : Nat) :
    ∀ m ∈ (c.readBytes cap).marks, m ∈ c.marks ∧ c.rxBase + c.markCount cap ≤ m.1 := by
  intro m mem
  unfold Conv.readBytes at mem
  split at mem
  next takes =>
    obtain ⟨_, fds, rest, marks⟩ := Conv.takesMark_head takes
    rw [marks, List.tail_cons] at mem
    have sorted := holds.sorted
    rw [marks, List.pairwise_cons] at sorted
    have old : m ∈ c.marks := by
      rw [marks]
      exact List.mem_cons_of_mem _ mem
    exact ⟨old, Conv.markLimit_before holds.sorted _ _ old (sorted.1 m mem)⟩
  next keeps =>
    refine ⟨mem, ?_⟩
    by_cases some : 0 < c.markCount cap
    · have apart : m.1 ≠ c.rxBase := by
        cases marks : c.marks with
        | nil => simp [marks] at mem
        | cons first rest =>
          have first_apart := Conv.takesMark_false keeps some first (by simp [marks])
          have sorted := holds.sorted
          rw [marks, List.pairwise_cons] at sorted
          have first_ranged := (holds.ranged first (by simp [marks])).1
          rcases List.mem_cons.mp (marks ▸ mem) with rfl | later
          · exact first_apart
          · have behind := sorted.1 m later
            omega
      have ranged := (holds.ranged m mem).1
      exact Conv.markLimit_before holds.sorted _ _ mem (by omega)
    · have ranged := (holds.ranged m mem).1
      omega

theorem readBytes_sorted (holds : Holds c f) (cap : Nat) :
    (c.readBytes cap).marks.Pairwise fun a b => a.1 < b.1 := by
  unfold Conv.readBytes
  split
  · exact holds.sorted.sublist (List.tail_sublist _)
  · exact holds.sorted

def Flow.readFrom (f : Flow) (c : Conv) (cap : Nat) : Flow :=
  f.read c.records cap (c.readData cap).2.1 (c.readData cap).1.delivered

theorem Holds.read_stream (holds : Holds c f) (mode : c.records = false) (cap : Nat) :
    Holds (c.readData cap).1 (f.readFrom c cap) := by
  have read : (c.readData cap).1 = c.readBytes cap := by simp [Conv.readData, mode]
  have count := c.readCount_le_length cap
  have length := holds.length
  have got : (f.read c.records cap (c.rx.take (c.readCount cap)) (c.readBytes cap).delivered).got =
      f.taken.take (c.rxBase + c.readCount cap) := by
    rw [f.got_read, holds.stream mode, holds.bytes, List.take_add]
  rw [Flow.readFrom, read]
  constructor
  case base =>
    change c.rxBase + c.readCount cap = Flow.passed _ c.records
    rw [mode]
    change _ = (Flow.got _).length
    rw [← mode]
    exact (congrArg List.length got).trans (by rw [List.length_take]; omega) |>.symm
  case within =>
    change c.rxBase + c.readCount cap ≤ f.taken.length
    omega
  case bytes =>
    change c.rx.drop (c.readCount cap) = f.taken.drop (c.rxBase + c.readCount cap)
    rw [holds.bytes, List.drop_drop]
  case marks => exact holds.arrived_read cap _
  case sorted => exact readBytes_sorted holds cap
  case ranged =>
    intro m mem
    obtain ⟨old, behind⟩ := holds.marks_behind cap m mem
    have less := c.readCount_le cap
    exact ⟨Nat.le_trans (Nat.add_le_add_left less _) behind, (holds.ranged m old).2⟩
  case stream =>
    intro _
    exact got

theorem pass_starts_cons {record : Bytes} {rest : List Bytes}
    (nonempty : record ≠ []) (same : writers.map (·.1) = starts base (record :: rest)) :
    Conv.passWriters base writers = writers := by
  have more : 0 < record.length := List.length_pos_iff.mpr nonempty
  match writers, rest with
  | [], _ => rfl
  | [_], _ => rfl
  | first :: second :: others, [] => simp [starts] at same
  | first :: second :: others, next :: rest =>
    have at_second : second.1 = base + record.length := by
      simp only [starts, List.map_cons, List.cons.injEq] at same
      exact same.2.1
    have kept : ¬second.1 ≤ base := by omega
    simp [Conv.passWriters, kept]

theorem pass_starts {left : List Bytes} {lead : List Nat}
    (nonempty : ∀ record ∈ left, record ≠ []) (same : writers.map (·.1) = lead ++ starts base left)
    (short : lead = [] ∨ ∃ start, lead = [start] ∧ start < base) :
    ∃ kept, (Conv.passWriters base writers).map (·.1) = kept ++ starts base left ∧
      (kept = [] ∨ left = [] ∧ ∃ start, kept = [start] ∧ start < base) := by
  cases left with
  | nil =>
    have few : writers.length ≤ 1 := by
      have count : (writers.map (·.1)).length = writers.length := List.length_map _
      rw [← count, same]
      rcases short with rfl | ⟨start, rfl, _⟩ <;> simp [starts]
    have unchanged : Conv.passWriters base writers = writers := by
      match writers, few with
      | [], _ => rfl
      | [_], _ => rfl
    refine ⟨lead, by rw [unchanged, same], ?_⟩
    rcases short with none | one
    · exact .inl none
    · exact .inr ⟨rfl, one⟩
  | cons record rest =>
    have positive := nonempty record (by simp)
    refine ⟨[], ?_, .inl rfl⟩
    rcases short with rfl | ⟨start, rfl, before⟩
    · rw [pass_starts_cons positive same, same]
    match writers, same with
    | [], same => cases same
    | [_], same => simp [starts] at same
    | first :: second :: others, same =>
      have later : (second :: others).map (·.1) = starts base (record :: rest) := (List.cons.inj same).2
      have at_base : second.1 ≤ base := by
        simp only [starts, List.map_cons, List.cons.injEq] at later
        omega
      simp only [Conv.passWriters, at_base, if_true]
      rw [pass_starts_cons positive later, later]
      rfl

section Record

variable {c : Conv} {f : Flow} (holds : Holds c f) (records : HoldsRecords c f) (mode : c.records = true)
  {record : Bytes} {rest : List Bytes} (left : f.writes.drop f.reads.length = record :: rest)

include records left in
theorem record_nonempty : record ≠ [] := by
  apply records.nonempty
  apply List.mem_of_mem_drop
  rw [left]
  exact .head _

include holds mode left in
theorem rx_record : c.rx = record ++ rest.flatten := by
  rw [holds.rx_records mode, left]
  rfl

include records left in
theorem writers_record : (Conv.passWriters c.rxBase c.writers).map (·.1) = starts c.rxBase (record :: rest) := by
  obtain ⟨lead, same, short⟩ := records.writers
  obtain ⟨kept, passed, missing | ⟨empty, _⟩⟩ :=
    pass_starts (fun w mem => records.nonempty w (List.mem_of_mem_drop mem)) same short
  · rw [passed, missing, left]
    rfl
  · rw [left] at empty
    cases empty

include records left in
theorem writer_behind : ((Conv.passWriters c.rxBase c.writers)[1]?.elim (rest = []) fun w => w.1 = c.rxBase + record.length) := by
  have second := congrArg (·[1]?) (writers_record records left)
  simp only [List.getElem?_map] at second
  cases rest with
  | nil =>
    rw [Option.map_eq_none_iff.mp second]
    rfl
  | cons next others =>
    obtain ⟨w, found, at_w⟩ := Option.map_eq_some_iff.mp second
    rw [found]
    exact at_w

include holds records mode left in
theorem readCount_record (cap : Nat) : c.readCount cap = min cap record.length := by
  have behind := writer_behind records left
  have rx := rx_record holds mode left
  have marked : min cap record.length ≤ c.markCount cap ∧ c.markCount cap ≤ min cap c.rx.length := by
    refine ⟨?_, c.markCount_le cap⟩
    unfold Conv.markCount Conv.markLimit
    rw [rx, List.length_append]
    split
    next m found =>
      have mem := records.marksAt m (List.mem_of_find?_eq_some found)
      have behind := List.find?_some found
      simp only [decide_eq_true_eq] at behind
      rw [left] at mem
      rcases List.mem_cons.mp mem with same | later
      · omega
      · have after := base_le_of_mem_starts later
        omega
    · omega
  rw [rx, List.length_append] at marked
  unfold Conv.readCount Conv.writerLimit
  cases at_second : (Conv.passWriters c.rxBase c.writers)[1]? with
  | none =>
    obtain rfl : rest = [] := by simpa [at_second] using behind
    simp only [List.flatten_nil, List.length_nil] at marked
    dsimp only
    omega
  | some w =>
    rw [at_second] at behind
    dsimp only [Option.elim] at behind ⊢
    omega

include holds records mode left in
theorem recordRest_record (cap : Nat) : (c.readBytes cap).recordRest = record.length - c.readCount cap := by
  have behind := writer_behind records left
  have rx := rx_record holds mode left
  unfold Conv.recordRest
  dsimp only [Conv.readBytes]
  cases at_second : (Conv.passWriters c.rxBase c.writers)[1]? with
  | none =>
    obtain rfl : rest = [] := by simpa [at_second] using behind
    rw [List.length_drop, rx]
    simp
  | some w =>
    rw [at_second] at behind
    dsimp only [Option.elim] at behind ⊢
    rw [behind, Nat.add_sub_add_left]

include holds records mode left in
theorem readData_record {cap : Nat} (room : 0 < cap) :
    (c.readData cap).2.1 = record.take cap ∧ (c.readData cap).1.rx = rest.flatten ∧
      (c.readData cap).1.rxBase = c.rxBase + record.length ∧ (c.readData cap).1.marks = (c.readBytes cap).marks ∧
      (c.readData cap).1.delivered = (c.readBytes cap).delivered ∧
      (c.readData cap).1.writers = Conv.passWriters c.rxBase c.writers ∧ (c.readData cap).1.records = true := by
  have count := readCount_record holds records mode left cap
  have rx := rx_record holds mode left
  have positive : 0 < record.length := List.length_pos_iff.mpr (record_nonempty records left)
  have taken : 0 < c.readCount cap := by omega
  have length : min cap record.length ≤ record.length := Nat.min_le_right _ _
  have read : (c.readData cap).1 = (c.readBytes cap).cutRecord := by simp [Conv.readData, mode, taken]
  have bytes : (c.readData cap).2.1 = record.take cap := by
    change c.rx.take (c.readCount cap) = _
    rw [count, rx, List.take_append_of_le_length length, List.take_eq_take_iff]
    omega
  have dropped := recordRest_record holds records mode left cap
  rw [read]
  refine ⟨bytes, ?_, ?_, rfl, rfl, rfl, mode⟩
  · change (c.rx.drop (c.readCount cap)).drop (c.readBytes cap).recordRest = rest.flatten
    rw [dropped, List.drop_drop, show c.readCount cap + (record.length - c.readCount cap) = record.length by omega,
      rx, List.drop_left]
  · change c.rxBase + c.readCount cap + (c.readBytes cap).recordRest = _
    omega

include left in
theorem record_at : f.reads.length < f.writes.length ∧
    f.writes.take (f.reads.length + 1) = f.writes.take f.reads.length ++ [record] := by
  have more : f.reads.length < f.writes.length := by
    have length := congrArg List.length left
    rw [List.length_drop, List.length_cons] at length
    omega
  refine ⟨more, ?_⟩
  have at_read : f.writes[f.reads.length] = record := by
    rw [List.drop_eq_getElem_cons more] at left
    exact (List.cons.inj left).1
  rw [List.take_add_one, List.getElem?_eq_getElem more, at_read]
  rfl

include records left in
theorem take_nonempty {cap : Nat} (room : 0 < cap) : record.take cap ≠ [] := by
  have one : 0 < record.length := List.length_pos_iff.mpr (record_nonempty records left)
  rw [← List.length_pos_iff, List.length_take]
  omega

include left in
theorem drop_record : f.writes.drop (f.reads.length + 1) = rest := by
  rw [← List.drop_drop, left]
  rfl

include left in
theorem taken_record : f.taken = (f.writes.take (f.reads.length + 1)).flatten ++ rest.flatten := by
  rw [← drop_record left, ← List.flatten_append, List.take_append_drop]
  rfl

include holds mode left in
theorem base_record : c.rxBase + record.length = (f.writes.take (f.reads.length + 1)).flatten.length := by
  rw [(record_at left).2, List.flatten_append, List.length_append, holds.base, mode]
  simp [Flow.passed]

include records left in
theorem reads_record {cap : Nat} (room : 0 < cap) (delivered : List Nat) :
    (f.read c.records cap (record.take cap) delivered).reads = f.reads ++ [(cap, record.take cap)] := by
  simp [Flow.read, take_nonempty records left room]

include holds records mode left in
/-- A mark the read leaves starts one of the records behind it. -/
theorem marks_record {cap : Nat} (room : 0 < cap) :
    ∀ m ∈ (c.readBytes cap).marks, m ∈ c.marks ∧ m.1 ∈ starts (c.rxBase + record.length) rest := by
  intro m mem
  obtain ⟨old, far⟩ := holds.marks_behind cap m mem
  refine ⟨old, ?_⟩
  have starting := records.marksAt m old
  rw [left] at starting
  have positive : 0 < c.markCount cap := (c.readCount_pos_iff cap).mp (by
    rw [readCount_record holds records mode left]
    have one : 0 < record.length := List.length_pos_iff.mpr (record_nonempty records left)
    omega)
  rcases List.mem_cons.mp starting with here | later
  · omega
  · exact later

include holds records mode left in
theorem holds_record {cap : Nat} (room : 0 < cap) : Holds (c.readData cap).1 (f.readFrom c cap) := by
  obtain ⟨bytes, rx, base, marks, delivered, writers, same⟩ := readData_record holds records mode left room
  have width := base_record holds mode left
  have split := taken_record left
  rw [Flow.readFrom, bytes, delivered]
  constructor
  case base =>
    rw [base, same]
    unfold Flow.passed
    rw [if_pos rfl, reads_record records left room, List.length_append]
    exact width
  case within =>
    rw [base, width]
    change _ ≤ f.taken.length
    rw [split, List.length_append]
    exact Nat.le_add_right _ _
  case bytes =>
    rw [rx, base, width]
    change _ = f.taken.drop _
    rw [split, List.drop_left]
  case marks =>
    rw [marks]
    exact holds.arrived_read cap _
  case sorted =>
    rw [marks]
    exact readBytes_sorted holds cap
  case ranged =>
    rw [marks, base]
    intro m mem
    obtain ⟨old, starting⟩ := marks_record holds records mode left room m mem
    exact ⟨base_le_of_mem_starts starting, (holds.ranged m old).2⟩
  case stream =>
    intro stream
    rw [same] at stream
    cases stream

include holds records mode left in
theorem holdsRecords_record {cap : Nat} (room : 0 < cap) : HoldsRecords (c.readData cap).1 (f.readFrom c cap) := by
  obtain ⟨bytes, rx, base, marks, delivered, writers, same⟩ := readData_record holds records mode left room
  obtain ⟨more, passing⟩ := record_at left
  have reads := reads_record records left room (c.readBytes cap).delivered
  have count : (f.read c.records cap (record.take cap) (c.readBytes cap).delivered).reads.length = f.reads.length + 1 := by
    rw [reads, List.length_append]
    rfl
  rw [Flow.readFrom, bytes, delivered]
  constructor
  case fewer =>
    rw [count]
    exact more
  case each =>
    rw [count, reads]
    change List.Forall₂ _ _ (f.writes.take (f.reads.length + 1))
    rw [passing]
    exact List.rel_append records.each (.cons ⟨rfl, take_nonempty records left room⟩ .nil)
  case nonempty => exact records.nonempty
  case writers =>
    refine ⟨[c.rxBase], ?_, .inr ⟨c.rxBase, rfl, ?_⟩⟩
    · rw [writers, writers_record records left, base, count]
      change _ = [c.rxBase] ++ starts _ (f.writes.drop (f.reads.length + 1))
      rw [drop_record left]
      rfl
    · rw [base]
      exact Nat.lt_add_of_pos_right (List.length_pos_iff.mpr (record_nonempty records left))
  case marksAt =>
    rw [marks, base, count]
    change ∀ m ∈ (c.readBytes cap).marks, m.1 ∈ starts _ (f.writes.drop (f.reads.length + 1))
    rw [drop_record left]
    intro m mem
    exact (marks_record holds records mode left room m mem).2

end Record

theorem readBytes_none {cap : Nat} (missing : c.readCount cap = 0) :
    c.readBytes cap = { c with delivered := [], writers := Conv.passWriters c.rxBase c.writers, cut := false } := by
  have unmarked : c.markCount cap = 0 := by
    have iff := c.readCount_pos_iff cap
    omega
  have keeps : c.takesMark cap = false := by simp [Conv.takesMark, unmarked]
  simp [Conv.readBytes, missing, keeps]

theorem read_none (holds : Holds c f) (records : HoldsRecords c f) {cap : Nat}
    (missing : c.readCount cap = 0) :
    Holds (c.readData cap).1 (f.readFrom c cap) ∧ HoldsRecords (c.readData cap).1 (f.readFrom c cap) := by
  have read : (c.readData cap).1 = { c with delivered := [], writers := Conv.passWriters c.rxBase c.writers, cut := false } := by
    simp [Conv.readData, missing, readBytes_none missing]
  have bytes : (c.readData cap).2.1 = [] := by simp [Conv.readData, missing]
  have unchanged : f.read c.records cap [] [] = f := by simp [Flow.read]
  rw [Flow.readFrom, read, bytes, unchanged]
  refine ⟨⟨holds.base, holds.within, holds.bytes, holds.marks, holds.sorted, holds.ranged, holds.stream⟩, ?_⟩
  obtain ⟨lead, same, short⟩ := records.writers
  obtain ⟨kept, passed, few⟩ :=
    pass_starts (fun w mem => records.nonempty w (List.mem_of_mem_drop mem)) same short
  refine ⟨records.fewer, records.each, records.nonempty, ⟨kept, passed, ?_⟩, records.marksAt⟩
  rcases few with empty | ⟨_, one⟩
  · exact .inl empty
  · exact .inr one

theorem Holds.read (holds : Holds c f) (records : c.records = true → HoldsRecords c f) (cap : Nat) :
    Holds (c.readData cap).1 (f.readFrom c cap) ∧
      (c.records = true → HoldsRecords (c.readData cap).1 (f.readFrom c cap)) := by
  cases mode : c.records with
  | false => exact ⟨holds.read_stream mode cap, fun record => by cases record⟩
  | true =>
    suffices read : Holds (c.readData cap).1 (f.readFrom c cap) ∧ HoldsRecords (c.readData cap).1 (f.readFrom c cap) from
      ⟨read.1, fun _ => read.2⟩
    cases left : f.writes.drop f.reads.length with
    | nil =>
      apply read_none holds (records mode)
      have empty : c.rx = [] := by rw [holds.rx_records mode, left]; rfl
      have count := c.readCount_le_length cap
      rw [empty] at count
      exact Nat.le_zero.mp count
    | cons record rest =>
      rcases Nat.eq_zero_or_pos cap with none | room
      · apply read_none holds (records mode)
        have first := c.readCount_le cap
        have second := c.markCount_le cap
        omega
      · exact ⟨holds_record holds (records mode) mode left room, holdsRecords_record holds (records mode) mode left room⟩

end Myos.Modules.Netfs.Unix
