import Myos.Lib.Checked

namespace Myos.Modules.FatTime
open Lib

structure Timestamp where
  date : UInt16
  time : UInt16

def i64 (n : Int) : Checked Empty Int := if -2 ^ 63 ≤ n ∧ n < 2 ^ 63 then .ok n else .error .overflow

def daysFromCivil (y m d : Int) : Checked Empty Int := do
  let y ← i64 (if m ≤ 2 then y - 1 else y)
  let era := y / 400
  let yoe ← i64 (y - (← i64 (era * 400)))
  let shifted ← i64 (if m > 2 then m - 3 else m + 9)
  let doy ← i64 ((← i64 ((← i64 ((← i64 (153 * shifted)) + 2)).tdiv 5 + d)) - 1)
  let doe ← i64 ((← i64 ((← i64 ((← i64 (yoe * 365)) + yoe.tdiv 4)) - yoe.tdiv 100)) + doy)
  i64 ((← i64 ((← i64 (era * 146097)) + doe)) - 719468)

def civilFromDays (z : Int) : Checked Empty (Int × Int × Int) := do
  let z ← i64 (z + 719468)
  let era := z / 146097
  let doe ← i64 (z - (← i64 (era * 146097)))
  let yoe := (← i64 ((← i64 ((← i64 (doe - doe.tdiv 1460)) + doe.tdiv 36524)) - doe.tdiv 146096)).tdiv 365
  let doy ← i64 (doe - (← i64 ((← i64 ((← i64 (365 * yoe)) + yoe.tdiv 4)) - yoe.tdiv 100)))
  let mp := (← i64 ((← i64 (5 * doy)) + 2)).tdiv 153
  let d ← i64 ((← i64 (doy - (← i64 ((← i64 (153 * mp)) + 2)).tdiv 5)) + 1)
  let m ← i64 (if mp < 10 then mp + 3 else mp - 9)
  return (← i64 ((← i64 (yoe + (← i64 (era * 400)))) + if m ≤ 2 then 1 else 0), m, d)

def unix (t : Timestamp) : Checked Empty Nat := do
  let (date, time) : Int × Int := (t.date.toNat, t.time.toNat)
  let year ← i64 (1980 + date / 2 ^ 9)
  let month := date / 2 ^ 5 % 2 ^ 4
  let day := date % 2 ^ 5
  if month = 0 ∨ day = 0 then
    return 0
  let hours ← i64 (time / 2 ^ 11 * 3600)
  let minutes ← i64 (time / 2 ^ 5 % 2 ^ 6 * 60)
  let secs ← i64 ((← i64 (hours + minutes)) + (← i64 (time % 2 ^ 5 * 2)))
  let all ← i64 ((← i64 ((← daysFromCivil year month day) * 86400)) + secs)
  return (max 0 (min all (2 ^ 32 - 1))).toNat

abbrev FromYmdHms := Nat → Nat → Nat → Nat → Nat → Nat → Timestamp

def timestamp (fromYmdHms : FromYmdHms) (secs : Nat) : Checked Empty Timestamp := do
  let days := secs / 86400
  let rem := secs % 86400
  let (y, m, d) ← civilFromDays days
  return fromYmdHms (max 0 (min y (2 ^ 16 - 1))).toNat (m % 2 ^ 8).toNat (d % 2 ^ 8).toNat (rem / 3600 % 2 ^ 8)
    (rem / 60 % 60 % 2 ^ 8) (rem % 60 % 2 ^ 8)

def leapDay (y : Int) : Int := if y % 4 = 0 ∧ (y % 100 ≠ 0 ∨ y % 400 = 0) then 1 else 0

def daysInMonth (y m : Int) : Int :=
  if m = 2 then 28 + leapDay y
  else if m = 4 ∨ m = 6 ∨ m = 9 ∨ m = 11 then 30
  else 31

/-- A date of the proleptic Gregorian calendar. -/
def Valid (date : Int × Int × Int) : Prop :=
  (1 ≤ date.2.1 ∧ date.2.1 ≤ 12) ∧ 1 ≤ date.2.2 ∧ date.2.2 ≤ daysInMonth date.1 date.2.1

def tomorrow (date : Int × Int × Int) : Int × Int × Int :=
  if date.2.2 < daysInMonth date.1 date.2.1 then (date.1, date.2.1, date.2.2 + 1)
  else if date.2.1 < 12 then (date.1, date.2.1 + 1, 1)
  else (date.1 + 1, 1, 1)

/-- The FAT layout: years from 1980, months and days in the date, hours, minutes and pairs of seconds. -/
def Packs (fromYmdHms : FromYmdHms) : Prop :=
  ∀ year month day hour minute second, 1980 ≤ year → year ≤ 2107 → month ≤ 12 → day ≤ 31 → hour < 24 → minute < 60 →
    second < 60 →
      (fromYmdHms year month day hour minute second).date.toNat = (year - 1980) * 2 ^ 9 + month * 2 ^ 5 + day ∧
      (fromYmdHms year month day hour minute second).time.toNat = hour * 2 ^ 11 + minute * 2 ^ 5 + second / 2

/-- Days are the dates of the calendar in their order, and a time survives its FAT words to the even second. -/
structure TimesRight (fromYmdHms : FromYmdHms) : Prop where
  day : ∀ z : Int, z.natAbs < 2 ^ 40 → ∃ date, civilFromDays z = .ok date ∧ Valid date ∧
    daysFromCivil date.1 date.2.1 date.2.2 = .ok z ∧ civilFromDays (z + 1) = .ok (tomorrow date)
  date : ∀ y m d : Int, y.natAbs < 2 ^ 30 → Valid (y, m, d) →
    ∃ z, daysFromCivil y m d = .ok z ∧ civilFromDays z = .ok (y, m, d)
  time : ∀ t, 315532800 ≤ t → t < 2 ^ 32 → ∃ stamp, timestamp fromYmdHms t = .ok stamp ∧ unix stamp = .ok (t - t % 2)
  words : ∀ stamp, ∃ secs < 2 ^ 32, unix stamp = .ok secs

-- Years begin in March here. The days before a year from the first day of year 0, and the year of a day
-- in the 400 years of an era.
def yearStart (year : Int) : Int := 365 * year + year / 4 - year / 100 + year / 400

def yearOf (doe : Int) : Int := (doe - doe / 1460 + doe / 36524 - doe / 146096) / 365

theorem yearOf_mono {a b : Int} (le : a ≤ b) : yearOf a ≤ yearOf b := by
  have fours (doe : Int) : doe / 146096 = doe / 36524 / 4 := by omega
  have years : a - a / 1460 ≤ b - b / 1460 := by omega
  unfold yearOf
  rw [fours a, fours b]
  omega

theorem yearOf_ends : ∀ yoe : Fin 400, yearOf (yearStart yoe) = yoe ∧ yearOf (yearStart (yoe + 1) - 1) = yoe := by
  decide +kernel

theorem yearStart_lt {a b : Int} (start : yearStart a < yearStart (b + 1)) : a ≤ b := by
  unfold yearStart at start
  omega

theorem yearOf_spec {doe : Int} (first : 0 ≤ doe) (n : Nat) (era : n ≤ 400) (before : doe < yearStart n) :
    (0 ≤ yearOf doe ∧ yearOf doe < n) ∧ yearStart (yearOf doe) ≤ doe ∧ doe < yearStart (yearOf doe + 1) := by
  induction n with
  | zero => exact absurd before (Int.not_lt.mpr first)
  | succ n ih =>
    by_cases earlier : doe < yearStart n
    · obtain ⟨bounds, year⟩ := ih (Nat.le_of_succ_le era) earlier
      exact ⟨⟨bounds.1, by omega⟩, year⟩
    obtain ⟨start, stop⟩ := yearOf_ends ⟨n, era⟩
    have low := yearOf_mono (Int.not_lt.mp earlier)
    have high := yearOf_mono (Int.le_sub_one_of_lt before)
    have here : yearOf doe = n := by
      push_cast at high
      simp only at start stop
      omega
    rw [here]
    exact ⟨by omega, Int.not_lt.mp earlier, before⟩

def yearIn (day : Int) : Int := yearOf (day % 146097) + day / 146097 * 400

theorem yearStart_era (yoe era : Int) : yearStart (yoe + era * 400) = yearStart yoe + era * 146097 := by
  unfold yearStart
  omega

theorem yearIn_spec (day : Int) : yearStart (yearIn day) ≤ day ∧ day < yearStart (yearIn day + 1) := by
  have inEra : 0 ≤ day % 146097 ∧ day % 146097 < 146097 := by omega
  obtain ⟨-, year⟩ := yearOf_spec inEra.1 400 Nat.le.refl inEra.2
  rw [yearIn, Int.add_right_comm, yearStart_era, yearStart_era]
  omega

theorem yearIn_eq {year day : Int} (start : yearStart year ≤ day) (stop : day < yearStart (year + 1)) : yearIn day = year := by
  obtain ⟨low, high⟩ := yearIn_spec day
  have le := yearStart_lt (Int.lt_of_le_of_lt start high)
  have ge := yearStart_lt (Int.lt_of_le_of_lt low stop)
  omega

theorem leapDay_bounds (y : Int) : 0 ≤ leapDay y ∧ leapDay y ≤ 1 := by
  unfold leapDay
  omega

theorem yearStart_succ (year : Int) : yearStart (year + 1) = yearStart year + 365 + leapDay (year + 1) := by
  unfold yearStart leapDay
  omega

def marchYear (y m : Int) : Int := if m ≤ 2 then y - 1 else y

def marchMonth (m : Int) : Int := if m > 2 then m - 3 else m + 9

def dayInYear (m d : Int) : Int := (153 * marchMonth m + 2) / 5 + d - 1

def dayOf (date : Int × Int × Int) : Int := yearStart (marchYear date.1 date.2.1) + dayInYear date.2.1 date.2.2 - 719468

def fromMarch (year doy : Int) : Int × Int × Int :=
  let mp := (5 * doy + 2) / 153
  (if mp < 10 then year else year + 1, if mp < 10 then mp + 3 else mp - 9, doy - (153 * mp + 2) / 5 + 1)

def dateOf (z : Int) : Int × Int × Int :=
  fromMarch (yearIn (z + 719468)) (z + 719468 - yearStart (yearIn (z + 719468)))

theorem fromMarch_spec {year doy : Int} (start : 0 ≤ doy) (stop : doy < 365 + leapDay (year + 1)) :
    Valid (fromMarch year doy) ∧ dayOf (fromMarch year doy) = yearStart year + doy - 719468 := by
  have leap := leapDay_bounds (year + 1)
  by_cases spring : (5 * doy + 2) / 153 < 10
  · have month : ¬ (5 * doy + 2) / 153 + 3 ≤ 2 := by omega
    simp only [fromMarch, spring, if_true, if_false, dayOf, dayInYear, marchYear, marchMonth, Valid, daysInMonth, month,
      gt_iff_lt, Int.not_le.mp month]
    omega
  · have month : (5 * doy + 2) / 153 - 9 ≤ 2 := by omega
    simp only [fromMarch, spring, if_true, if_false, dayOf, dayInYear, marchYear, marchMonth, Valid, daysInMonth, month,
      gt_iff_lt, Int.not_lt.mpr month, Int.add_sub_cancel]
    omega

theorem dayOf_dateOf (z : Int) : Valid (dateOf z) ∧ dayOf (dateOf z) = z := by
  obtain ⟨start, stop⟩ := yearIn_spec (z + 719468)
  rw [yearStart_succ] at stop
  obtain ⟨valid, day⟩ := @fromMarch_spec (yearIn (z + 719468)) _ (Int.sub_nonneg.mpr start) (by omega)
  exact ⟨valid, day.trans (by omega)⟩

theorem month_cases {m : Int} (month : 1 ≤ m ∧ m ≤ 12) :
    m = 1 ∨ m = 2 ∨ m = 3 ∨ m = 4 ∨ m = 5 ∨ m = 6 ∨ m = 7 ∨ m = 8 ∨ m = 9 ∨ m = 10 ∨ m = 11 ∨ m = 12 := by
  omega

theorem fromMarch_date {y m d : Int} (valid : Valid (y, m, d)) :
    (0 ≤ dayInYear m d ∧ dayInYear m d < 365 + leapDay (marchYear y m + 1)) ∧
    fromMarch (marchYear y m) (dayInYear m d) = (y, m, d) := by
  obtain ⟨month, day⟩ := valid
  have leap := leapDay_bounds y
  have later := leapDay_bounds (y + 1)
  obtain rfl | rfl | rfl | rfl | rfl | rfl | rfl | rfl | rfl | rfl | rfl | rfl := month_cases month
  all_goals
    simp [fromMarch, dayInYear, marchMonth, marchYear, daysInMonth] at *
    omega

theorem dateOf_dayOf {y m d : Int} (valid : Valid (y, m, d)) : dateOf (dayOf (y, m, d)) = (y, m, d) := by
  obtain ⟨⟨start, stop⟩, same⟩ := fromMarch_date valid
  have here : dayOf (y, m, d) + 719468 = yearStart (marchYear y m) + dayInYear m d := Int.sub_add_cancel ..
  have year : yearIn (yearStart (marchYear y m) + dayInYear m d) = marchYear y m := by
    refine yearIn_eq (by omega) ?_
    rw [yearStart_succ]
    omega
  rw [dateOf, here, year, Int.add_comm, Int.add_sub_cancel]
  exact same

theorem tomorrow_spec {y m d : Int} (valid : Valid (y, m, d)) :
    Valid (tomorrow (y, m, d)) ∧ dayOf (tomorrow (y, m, d)) = dayOf (y, m, d) + 1 := by
  obtain ⟨month, day⟩ := valid
  have leap := leapDay_bounds y
  have next := yearStart_succ (y - 1)
  simp only at month day
  by_cases last : d < daysInMonth y m
  · rw [tomorrow, if_pos last]
    unfold dayOf dayInYear
    exact ⟨⟨month, by simp only; omega, last⟩, by simp only; omega⟩
  rw [tomorrow, if_neg last]
  obtain rfl | rfl | rfl | rfl | rfl | rfl | rfl | rfl | rfl | rfl | rfl | rfl := month_cases month
  all_goals
    simp [Valid, dayOf, dayInYear, marchMonth, marchYear, daysInMonth] at *
    omega

theorem eq_ok {α : Type} {x : Checked Empty α} {a : α} (returns : Checked.Returns x (· = a)) : x = .ok a := by
  obtain ⟨_, returned, rfl⟩ := returns
  exact returned

theorem returns_i64 {n : Int} (fits : -2 ^ 63 ≤ n ∧ n < 2 ^ 63) : Checked.Returns (i64 n) (· = n) :=
  ⟨n, if_pos fits, rfl⟩

theorem Returns.i64 {α : Type} {n : Int} {f : Int → Checked Empty α} {post : α → Prop} (fits : -2 ^ 63 ≤ n ∧ n < 2 ^ 63)
    (next : Checked.Returns (f n) post) : Checked.Returns (i64 n >>= f) post := by
  rwa [FatTime.i64, if_pos fits]

theorem daysFromCivil_eq {y m d : Int} (year : y.natAbs < 2 ^ 42) (month : 1 ≤ m ∧ m < 16) (day : 1 ≤ d ∧ d < 32) :
    daysFromCivil y m d = .ok (dayOf (y, m, d)) := by
  have near : (marchYear y m).natAbs ≤ 2 ^ 42 := by
    unfold marchYear
    omega
  have months : 0 ≤ marchMonth m ∧ marchMonth m < 13 := by
    unfold marchMonth
    omega
  unfold daysFromCivil dayOf dayInYear
  rw [← marchYear, ← marchMonth]
  generalize marchYear y m = year at *
  generalize marchMonth m = shifted at *
  apply eq_ok
  iterate 6 refine Returns.i64 (by omega) ?_
  simp (disch := omega) only [Int.tdiv_eq_ediv_of_nonneg]
  iterate 8 refine Returns.i64 (by omega) ?_
  refine (returns_i64 (by omega)).mono ?_
  rintro _ rfl
  unfold yearStart
  omega

theorem civilFromDays_eq {z : Int} (day : z.natAbs < 2 ^ 50) : civilFromDays z = .ok (dateOf z) := by
  unfold civilFromDays dateOf yearIn
  rw [yearStart_era]
  apply eq_ok
  iterate 3 refine Returns.i64 (by omega) ?_
  generalize doe_eq : z + 719468 - (z + 719468) / 146097 * 146097 = doe
  have same : (z + 719468) % 146097 = doe := by omega
  have inEra : 0 ≤ doe ∧ doe < 146097 := by omega
  obtain ⟨bounds, year⟩ := yearOf_spec inEra.1 400 Nat.le.refl inEra.2
  have leap := leapDay_bounds (yearOf doe + 1)
  rw [yearStart_succ] at year
  rw [same]
  simp (disch := omega) only [Int.tdiv_eq_ediv_of_nonneg]
  iterate 3 refine Returns.i64 (by omega) ?_
  simp (disch := omega) only [Int.tdiv_eq_ediv_of_nonneg]
  rw [← yearOf]
  generalize yearOf doe = yoe at *
  have start : yearStart yoe = 365 * yoe + yoe / 4 - yoe / 100 := by
    unfold yearStart
    omega
  iterate 4 refine Returns.i64 (by omega) ?_
  rw [← start]
  have doy_eq : z + 719468 - (yearStart yoe + (z + 719468) / 146097 * 146097) = doe - yearStart yoe := by omega
  rw [doy_eq]
  generalize doe - yearStart yoe = doy at *
  iterate 2 refine Returns.i64 (by omega) ?_
  simp (disch := omega) only [Int.tdiv_eq_ediv_of_nonneg]
  iterate 2 refine Returns.i64 (by omega) ?_
  simp (disch := omega) only [Int.tdiv_eq_ediv_of_nonneg]
  iterate 6 refine Returns.i64 (by omega) ?_
  refine .pure ?_
  unfold fromMarch
  simp only [Prod.mk.injEq, and_true]
  omega

def unixSecs (date time : Int) : Nat :=
  if date / 2 ^ 5 % 2 ^ 4 = 0 ∨ date % 2 ^ 5 = 0 then 0
  else (max 0 (min (dayOf (1980 + date / 2 ^ 9, date / 2 ^ 5 % 2 ^ 4, date % 2 ^ 5) * 86400 +
    (time / 2 ^ 11 * 3600 + time / 2 ^ 5 % 2 ^ 6 * 60 + time % 2 ^ 5 * 2)) (2 ^ 32 - 1))).toNat

theorem dayInYear_bounds {m d : Int} (month : 0 ≤ m ∧ m < 16) (day : 0 ≤ d ∧ d < 32) :
    -1 ≤ dayInYear m d ∧ dayInYear m d < 500 := by
  unfold dayInYear marchMonth
  omega

theorem near_iff {y m d : Int} (month : 0 ≤ m ∧ m < 16) (day : 0 ≤ d ∧ d < 32) :
    (dayOf (y, m, d)).natAbs ≤ 366 * y.natAbs + 720000 ∧ y.natAbs ≤ (dayOf (y, m, d)).natAbs + 720000 := by
  have bounds := dayInYear_bounds month day
  have march : marchYear y m = y - 1 ∨ marchYear y m = y := by
    unfold marchYear
    omega
  unfold dayOf yearStart
  simp only
  generalize dayInYear m d = doy at *
  generalize marchYear y m = year at *
  omega

theorem unix_eq (stamp : Timestamp) : unix stamp = .ok (unixSecs stamp.date.toNat stamp.time.toNat) := by
  have dateFits := stamp.date.toNat_lt
  have timeFits := stamp.time.toNat_lt
  apply eq_ok
  unfold unix unixSecs
  generalize stamp.date.toNat = date at *
  generalize stamp.time.toNat = time at *
  refine Returns.i64 (by omega) ?_
  refine .ite (fun never => ?_) fun dated => ?_
  · exact .pure (if_pos never).symm
  rw [if_neg dated]
  have bounds := @near_iff (1980 + date / 2 ^ 9) (date / 2 ^ 5 % 2 ^ 4) (date % 2 ^ 5) (by omega) (by omega)
  iterate 5 refine Returns.i64 (by omega) ?_
  rw [daysFromCivil_eq (by omega) (by omega) (by omega), Checked.ok_bind]
  iterate 2 refine Returns.i64 (by omega) ?_
  exact .pure rfl

theorem unixSecs_lt (date time : Int) : unixSecs date time < 2 ^ 32 := by
  unfold unixSecs
  split <;> omega

theorem Valid.bounds {y m d : Int} (valid : Valid (y, m, d)) : (1 ≤ m ∧ m ≤ 12) ∧ 1 ≤ d ∧ d < 32 := by
  have leap := leapDay_bounds y
  obtain ⟨month, day⟩ := valid
  unfold daysInMonth at day
  simp only at month day
  omega

theorem yearStart_mono {a b : Int} (le : a ≤ b) : yearStart a ≤ yearStart b := by
  unfold yearStart
  omega

theorem year_bounds {y m d : Int} (valid : Valid (y, m, d)) (from1980 : 3652 ≤ dayOf (y, m, d))
    (word : dayOf (y, m, d) < 50000) : 1980 ≤ y ∧ y ≤ 2107 := by
  obtain ⟨⟨start, stop⟩, -⟩ := fromMarch_date valid
  have fields := valid.bounds
  have leap := leapDay_bounds (marchYear y m + 1)
  unfold dayOf at *
  simp only at *
  constructor
  · by_contra before
    by_cases winter : m ≤ 2
    · have year := @yearStart_mono (marchYear y m) 1978 (by unfold marchYear; omega)
      change _ ≤ (722449 : Int) at year
      omega
    have year := @yearStart_mono (marchYear y m) 1979 (by unfold marchYear; omega)
    change _ ≤ (722814 : Int) at year
    unfold dayInYear marchMonth at *
    omega
  · by_contra after
    have year := @yearStart_mono 2107 (marchYear y m) (by unfold marchYear; omega)
    change (769565 : Int) ≤ _ at year
    omega

theorem timeWord_secs {h m s : Nat} (minutes : m < 60) (seconds : s < 60) :
    ((h * 2 ^ 11 + m * 2 ^ 5 + s / 2 : Nat) / 2 ^ 11 * 3600 + (h * 2 ^ 11 + m * 2 ^ 5 + s / 2 : Nat) / 2 ^ 5 % 2 ^ 6 * 60 +
      (h * 2 ^ 11 + m * 2 ^ 5 + s / 2 : Nat) % 2 ^ 5 * 2 : Int) = h * 3600 + m * 60 + (s - s % 2) := by
  omega

theorem unix_timestamp {fromYmdHms : FromYmdHms} (packs : Packs fromYmdHms) {t : Nat} (from1980 : 315532800 ≤ t)
    (word : t < 2 ^ 32) : ∃ stamp, timestamp fromYmdHms t = .ok stamp ∧ unix stamp = .ok (t - t % 2) := by
  have returned := @civilFromDays_eq (t / 86400 : Nat) (by omega)
  obtain ⟨valid, day⟩ := dayOf_dateOf (t / 86400 : Nat)
  generalize dateOf (t / 86400 : Nat) = date at *
  obtain ⟨y, m, d⟩ := date
  have years := year_bounds valid (by omega) (by omega)
  obtain ⟨months, days⟩ := valid.bounds
  obtain ⟨y, rfl⟩ := Int.eq_ofNat_of_zero_le (Int.le_trans (by decide) years.1)
  obtain ⟨m, rfl⟩ := Int.eq_ofNat_of_zero_le (Int.le_trans (by decide) months.1)
  obtain ⟨d, rfl⟩ := Int.eq_ofNat_of_zero_le (Int.le_trans (by decide) days.1)
  obtain ⟨dated, timed⟩ := packs y m d (t % 86400 / 3600) (t % 86400 / 60 % 60) (t % 86400 % 60) (by omega) (by omega)
    (by omega) (by omega) (by omega) (by omega) (by omega)
  refine ⟨fromYmdHms y m d (t % 86400 / 3600) (t % 86400 / 60 % 60) (t % 86400 % 60), ?_, ?_⟩
  · have year : (max 0 (min (y : Int) (2 ^ 16 - 1))).toNat = y := by omega
    have month : ((m : Int) % 2 ^ 8).toNat = m := by omega
    have day : ((d : Int) % 2 ^ 8).toNat = d := by omega
    have hour : t % 86400 / 3600 % 2 ^ 8 = t % 86400 / 3600 := by omega
    have minute : t % 86400 / 60 % 60 % 2 ^ 8 = t % 86400 / 60 % 60 := by omega
    have second : t % 86400 % 60 % 2 ^ 8 = t % 86400 % 60 := by omega
    simp only [timestamp, returned, Checked.ok_bind, year, month, day, hour, minute, second]
    rfl
  · rw [unix_eq, dated, timed, unixSecs, if_neg (by omega)]
    have fields : (1980 + (((y - 1980) * 2 ^ 9 + m * 2 ^ 5 + d : Nat) : Int) / 2 ^ 9,
        (((y - 1980) * 2 ^ 9 + m * 2 ^ 5 + d : Nat) : Int) / 2 ^ 5 % 2 ^ 4,
        (((y - 1980) * 2 ^ 9 + m * 2 ^ 5 + d : Nat) : Int) % 2 ^ 5) = ((y, m, d) : Int × Int × Int) := by
      simp only [Prod.mk.injEq]
      omega
    rw [fields, day, timeWord_secs (by omega) (by omega)]
    exact congrArg Except.ok (by omega)

theorem timesRight (fromYmdHms : FromYmdHms) (packs : Packs fromYmdHms) : TimesRight fromYmdHms where
  day z near := by
    have returned := @civilFromDays_eq z (by omega)
    obtain ⟨valid, day⟩ := dayOf_dateOf z
    generalize dateOf z = date at *
    obtain ⟨y, m, d⟩ := date
    obtain ⟨months, days⟩ := valid.bounds
    obtain ⟨-, year⟩ := @near_iff y m d (by omega) (by omega)
    obtain ⟨nextValid, next⟩ := tomorrow_spec valid
    refine ⟨(y, m, d), returned, valid, ?_, ?_⟩
    · rw [@daysFromCivil_eq y m d (by omega) (by omega) days, day]
    · rw [civilFromDays_eq (by omega), ← day, ← next]
      exact congrArg Except.ok (dateOf_dayOf nextValid)
  date y m d near valid := by
    obtain ⟨months, days⟩ := valid.bounds
    obtain ⟨day, -⟩ := @near_iff y m d (by omega) (by omega)
    refine ⟨dayOf (y, m, d), daysFromCivil_eq (by omega) (by omega) days, ?_⟩
    rw [civilFromDays_eq (by omega), dateOf_dayOf valid]
  time t from1980 word := unix_timestamp packs from1980 word
  words stamp := ⟨_, unixSecs_lt .., unix_eq stamp⟩

theorem timesRight_packed : TimesRight fun year month day hour minute second =>
    ⟨.ofNat ((year - 1980) * 2 ^ 9 + month * 2 ^ 5 + day), .ofNat (hour * 2 ^ 11 + minute * 2 ^ 5 + second / 2)⟩ := by
  refine timesRight _ ?_
  intro year month day hour minute second from1980 to2107 months days hours minutes seconds
  constructor
  · rw [UInt16.toNat_ofNat', Nat.mod_eq_of_lt (by omega)]
  · rw [UInt16.toNat_ofNat', Nat.mod_eq_of_lt (by omega)]

end Myos.Modules.FatTime
