import Mathlib.Data.Int.ConditionallyCompleteOrder
import Mathlib.Order.Bounds.Basic
import Mathlib.Order.Monotone.Defs
import Mathlib.Tactic.IntervalCases
/-!
# The civil calendar

Days counted from 1970-01-01 in the proleptic Gregorian calendar: the date of a
day, the day of a date, and a day moved by months.  A year counts from March
here, so that the leap day is its last, and 400 of them are an era.  The day
numbers are whole numbers; none of the steps leaves a machine's integers while
the days and the years are far inside them.
-/

namespace Improv.Engine.Civil

/-- A year, a month and a day of the month. -/
abbrev Date := Int × Nat × Nat

/-- The date of day `z`. -/
def ymd (z : Int) : Date :=
  let z := z + 719468
  let era := z / 146097
  let doe := z % 146097
  let yoe := (doe - doe / 1460 + doe / 36524 - doe / 146096) / 365
  let doy := doe - (365 * yoe + yoe / 4 - yoe / 100)
  let mp := (5 * doy + 2) / 153
  let d := doy - (153 * mp + 2) / 5 + 1
  let m := if mp < 10 then mp + 3 else mp - 9
  let y := yoe + era * 400
  (if m ≤ 2 then y + 1 else y, m.toNat, d.toNat)

/-- The day number of a valid date. -/
def days (y : Int) (m d : Nat) : Int :=
  let y := if m ≤ 2 then y - 1 else y
  let era := y / 400
  let yoe := y % 400
  let mp : Int := if 2 < m then m - 3 else m + 9
  let doy := (153 * mp + 2) / 5 + d - 1
  era * 146097 + yoe * 365 + yoe / 4 - yoe / 100 + doy - 719468

def isLeap (y : Int) : Bool := (y.tmod 4 = 0 && y.tmod 100 ≠ 0) || y.tmod 400 = 0

def monthDays (m : Nat) (y : Int) : Nat :=
  match m with
  | 2 => if isLeap y then 29 else 28
  | 4 | 6 | 9 | 11 => 30
  | _ => 31

/-- Day `z` moved `k` months, its day of the month no later than the month's end. -/
def addMonths (z k : Int) : Int :=
  let (y, m, d) := ymd z
  let t := y * 12 + m - 1 + k
  let y := t / 12
  let m := (t % 12).toNat + 1
  days y m (min d (monthDays m y))

/-! ## Dates -/

/-- A date of the proleptic Gregorian calendar. -/
structure Valid (y : Int) (m d : Nat) : Prop where
  month_pos : 1 ≤ m
  month_le : m ≤ 12
  day_pos : 1 ≤ d
  day_le : d ≤ monthDays m y

/-- A date before another. -/
def Before (a b : Date) : Prop :=
  a.1 < b.1 ∨ a.1 = b.1 ∧ (a.2.1 < b.2.1 ∨ a.2.1 = b.2.1 ∧ a.2.2 < b.2.2)

/-- The months since January of year 0. -/
def monthIndex (y : Int) (m : Nat) : Int := y * 12 + m - 1

theorem tmod_eq_zero_iff (y k : Int) : y.tmod k = 0 ↔ y % k = 0 := by
  rw [← Int.dvd_iff_tmod_eq_zero, Int.dvd_iff_emod_eq_zero]

theorem isLeap_iff (y : Int) :
    isLeap y = true ↔ y % 4 = 0 ∧ y % 100 ≠ 0 ∨ y % 400 = 0 := by
  unfold isLeap
  simp only [Bool.or_eq_true, Bool.and_eq_true, decide_eq_true_eq, ne_eq, tmod_eq_zero_iff]

theorem monthDays_pos (m : Nat) (y : Int) : 28 ≤ monthDays m y := by
  unfold monthDays
  split
  · split <;> omega
  all_goals omega

theorem monthDays_le (m : Nat) (y : Int) : monthDays m y ≤ 31 := by
  unfold monthDays
  split
  · split <;> omega
  all_goals omega

/-! ## Years of an era -/

/-- The days of an era before a year of it. -/
def yearStart (yoe : Int) : Int := yoe * 365 + yoe / 4 - yoe / 100

/-- The last day of a year of the era. -/
def yearEnd (yoe : Int) : Int := yearStart yoe + if isLeap (yoe + 1) then 365 else 364

/-- The year of the era that a day of the era is in. -/
def yearOfEra (doe : Int) : Int := (doe - doe / 1460 + doe / 36524 - doe / 146096) / 365

theorem yearStart_succ {yoe : Int} (hlow : 0 ≤ yoe) (hhigh : yoe < 399) :
    yearStart (yoe + 1) = yearEnd yoe + 1 := by
  unfold yearEnd yearStart
  by_cases hleap : isLeap (yoe + 1) = true
  · rw [if_pos hleap]
    rw [isLeap_iff] at hleap
    omega
  · rw [if_neg hleap]
    rw [isLeap_iff] at hleap
    omega

theorem yearOfEra_mono {a b : Int} (hab : a ≤ b) : yearOfEra a ≤ yearOfEra b := by
  unfold yearOfEra
  apply Int.ediv_le_ediv (by decide)
  omega

/-- The formula is exact at both ends of each of the 400 years. -/
theorem yearOfEra_ends :
    ∀ n : Fin 400, yearOfEra (yearStart n) = n ∧ yearOfEra (yearEnd n) = n := by
  decide +kernel

theorem yearOfEra_yearStart {yoe : Int} (hlow : 0 ≤ yoe) (hhigh : yoe < 400) :
    yearOfEra (yearStart yoe) = yoe := by
  have h := (yearOfEra_ends ⟨yoe.toNat, by omega⟩).1
  simpa only [Int.toNat_of_nonneg hlow] using h

theorem yearOfEra_yearEnd {yoe : Int} (hlow : 0 ≤ yoe) (hhigh : yoe < 400) :
    yearOfEra (yearEnd yoe) = yoe := by
  have h := (yearOfEra_ends ⟨yoe.toNat, by omega⟩).2
  simpa only [Int.toNat_of_nonneg hlow] using h

/-- A day of the era is in the year the formula gives. -/
theorem yearOfEra_spec {doe : Int} (hlow : 0 ≤ doe) (hhigh : doe < 146097) :
    0 ≤ yearOfEra doe ∧ yearOfEra doe < 400 ∧
      yearStart (yearOfEra doe) ≤ doe ∧ doe ≤ yearEnd (yearOfEra doe) := by
  have hfirst : yearOfEra 0 = 0 := by decide
  have hlast : yearOfEra 146096 = 399 := by decide
  have hzero : 0 ≤ yearOfEra doe := hfirst ▸ yearOfEra_mono hlow
  have hle : yearOfEra doe ≤ 399 := hlast ▸ yearOfEra_mono (by omega)
  refine ⟨hzero, by omega, ?_, ?_⟩
  · by_contra hstart
    have hpos : 0 < yearOfEra doe := by
      by_contra hnot
      have hyear : yearOfEra doe = 0 := by omega
      rw [hyear] at hstart
      exact hstart hlow
    have hsucc : yearStart (yearOfEra doe - 1 + 1) = yearEnd (yearOfEra doe - 1) + 1 :=
      yearStart_succ (by omega) (by omega)
    rw [sub_add_cancel] at hsucc
    have hmono := yearOfEra_mono (a := doe) (b := yearEnd (yearOfEra doe - 1)) (by omega)
    rw [yearOfEra_yearEnd (by omega) (by omega)] at hmono
    omega
  · by_contra hend
    have hlt : yearOfEra doe < 399 := by
      by_contra hnot
      have hyear : yearOfEra doe = 399 := by omega
      have hlastDay : yearEnd 399 = 146096 := by decide
      rw [hyear, hlastDay] at hend
      omega
    have hsucc := yearStart_succ hzero hlt
    have hmono := yearOfEra_mono (a := yearStart (yearOfEra doe + 1)) (b := doe) (by omega)
    rw [yearOfEra_yearStart (by omega) (by omega)] at hmono
    omega

/-! ## Months of a year -/

/-- The month and the day of the month of each day of a year from March, the
last of a leap year included. -/
theorem month_of_year :
    ∀ doy : Fin 366, let mp := (5 * (doy : Int) + 2) / 153
      0 ≤ mp ∧ mp ≤ 11 ∧ (153 * mp + 2) / 5 ≤ doy ∧
        (mp ≤ 9 → (doy : Int) - (153 * mp + 2) / 5 + 1 ≤ monthDays (mp + 3).toNat 1970) ∧
        (mp = 10 → (doy : Int) - (153 * mp + 2) / 5 + 1 ≤ 31) ∧
        (mp = 11 → (doy : Int) - (153 * mp + 2) / 5 + 1 ≤ doy - 336) := by
  decide +kernel

/-- The civil month of a month counted from March. -/
def civilMonth (mp : Int) : Int := if mp < 10 then mp + 3 else mp - 9

/-- The civil year of a month of a year counted from March. -/
def civilYear (y mp : Int) : Int := if mp < 10 then y else y + 1

theorem days_parts {era yoe mp d : Int} (hyoe : 0 ≤ yoe ∧ yoe < 400) (hmp : 0 ≤ mp ∧ mp ≤ 11)
    (hd : 0 ≤ d) :
    days (civilYear (yoe + era * 400) mp) (civilMonth mp).toNat d.toNat =
      era * 146097 + yearStart yoe + (153 * mp + 2) / 5 + d - 1 - 719468 := by
  unfold days civilYear civilMonth yearStart
  have hera : (yoe + era * 400) / 400 = era := by omega
  have hmod : (yoe + era * 400) % 400 = yoe := by omega
  by_cases hten : mp < 10
  · have hm : ¬ (mp + 3).toNat ≤ 2 := by omega
    have hm' : 2 < (mp + 3).toNat := by omega
    have hback : ((mp + 3).toNat : Int) - 3 = mp := by omega
    simp only [if_pos hten, if_neg hm, if_pos hm', hback, hera, hmod, Int.toNat_of_nonneg hd]
    omega
  · have hm : (mp - 9).toNat ≤ 2 := by omega
    have hm' : ¬ 2 < (mp - 9).toNat := by omega
    have hback : ((mp - 9).toNat : Int) + 9 = mp := by omega
    simp only [if_neg hten, if_pos hm, if_neg hm', hback, add_sub_cancel_right, hera, hmod,
      Int.toNat_of_nonneg hd]
    omega

theorem ymd_parts (z : Int) :
    ∃ era yoe mp d : Int, 0 ≤ yoe ∧ yoe < 400 ∧ 0 ≤ mp ∧ mp ≤ 11 ∧ 1 ≤ d ∧
      d ≤ monthDays (civilMonth mp).toNat (civilYear (yoe + era * 400) mp) ∧
      ymd z = (civilYear (yoe + era * 400) mp, (civilMonth mp).toNat, d.toNat) ∧
      z = era * 146097 + yearStart yoe + (153 * mp + 2) / 5 + d - 1 - 719468 := by
  obtain ⟨era, hera⟩ : ∃ era, era = (z + 719468) / 146097 := ⟨_, rfl⟩
  obtain ⟨doe, hdoe⟩ : ∃ doe, doe = (z + 719468) % 146097 := ⟨_, rfl⟩
  obtain ⟨hzero, hlt, hstart, hend⟩ := yearOfEra_spec (show 0 ≤ doe by omega) (by omega)
  obtain ⟨yoe, hyoe⟩ : ∃ yoe, yoe = yearOfEra doe := ⟨_, rfl⟩
  rw [← hyoe] at hzero hlt hstart hend
  obtain ⟨doy, hdoy⟩ : ∃ doy, doy = doe - yearStart yoe := ⟨_, rfl⟩
  have hyear : 0 ≤ doy ∧ doy < 366 := by
    unfold yearEnd at hend
    split at hend <;> omega
  obtain ⟨hmp, hmp', hday, hlow, hjan, hfeb⟩ := month_of_year ⟨doy.toNat, by omega⟩
  simp only [Int.toNat_of_nonneg hyear.1] at hmp hmp' hday hlow hjan hfeb
  obtain ⟨mp, hm⟩ : ∃ mp, mp = (5 * doy + 2) / 153 := ⟨_, rfl⟩
  rw [← hm] at hmp hmp' hday hlow hjan hfeb
  have hdate : ymd z = (civilYear (yoe + era * 400) mp, (civilMonth mp).toNat,
      (doy - (153 * mp + 2) / 5 + 1).toNat) := by
    have hsame : doe - (365 * yoe + yoe / 4 - yoe / 100) = doy := by
      unfold yearStart at hdoy
      omega
    unfold yearOfEra at hyoe
    unfold ymd civilYear civilMonth
    simp only [← hdoe, ← hyoe, ← hera, hsame, ← hm]
    by_cases hten : mp < 10
    · simp only [if_pos hten, if_neg (show ¬ mp + 3 ≤ 2 by omega)]
    · simp only [if_neg hten, if_pos (show mp - 9 ≤ 2 by omega)]
  refine ⟨era, yoe, mp, doy - (153 * mp + 2) / 5 + 1, hzero, hlt, hmp, hmp', by omega, ?_,
    hdate, by omega⟩
  -- Only February's length depends on the year, and February is the last month.
  by_cases hfebruary : mp = 11
  · have hleap : (isLeap (yoe + era * 400 + 1) = true) ↔ isLeap (yoe + 1) = true := by
      rw [isLeap_iff, isLeap_iff]
      omega
    rw [hfebruary]
    show _ ≤ ((if isLeap (yoe + era * 400 + 1) then 29 else 28 : Nat) : Int)
    unfold yearEnd at hend
    split at hend
    · next h =>
        rw [if_pos (hleap.mpr h)]
        omega
    · next h =>
        rw [if_neg fun hy => h (hleap.mp hy)]
        omega
  · have hfixed : monthDays (civilMonth mp).toNat (civilYear (yoe + era * 400) mp) =
        monthDays (civilMonth mp).toNat 1970 := by
      unfold civilMonth
      interval_cases mp <;> first | rfl | omega
    rw [hfixed]
    unfold civilMonth
    split
    · exact hlow (by omega)
    · have hten : mp = 10 := by omega
      rw [hten] at hjan ⊢
      exact hjan rfl

/-- Every day has a valid date. -/
theorem valid_ymd (z : Int) : Valid (ymd z).1 (ymd z).2.1 (ymd z).2.2 := by
  obtain ⟨era, yoe, mp, d, -, -, hmp, hmp', hd, hday, hdate, -⟩ := ymd_parts z
  rw [hdate]
  constructor
  · show 1 ≤ (civilMonth mp).toNat
    unfold civilMonth
    split <;> omega
  · show (civilMonth mp).toNat ≤ 12
    unfold civilMonth
    split <;> omega
  · show 1 ≤ d.toNat
    omega
  · show d.toNat ≤ monthDays (civilMonth mp).toNat (civilYear (yoe + era * 400) mp)
    omega

/-- The date of a day is that day's. -/
theorem days_ymd (z : Int) : days (ymd z).1 (ymd z).2.1 (ymd z).2.2 = z := by
  obtain ⟨era, yoe, mp, d, hyoe, hyoe', hmp, hmp', hd, -, hdate, hz⟩ := ymd_parts z
  rw [hdate, hz]
  exact days_parts ⟨hyoe, hyoe'⟩ ⟨hmp, hmp'⟩ (by omega)

/-! ## Months in a row -/

/-- The first day of the month `t` months after January of year 0. -/
def monthStart (t : Int) : Int := days (t / 12) ((t % 12).toNat + 1) 1

/-- The days of that month. -/
def monthLength (t : Int) : Nat := monthDays ((t % 12).toNat + 1) (t / 12)

theorem monthIndex_ediv {y : Int} {m : Nat} (hpos : 1 ≤ m) (hle : m ≤ 12) :
    monthIndex y m / 12 = y := by
  unfold monthIndex
  omega

theorem monthIndex_emod {y : Int} {m : Nat} (hpos : 1 ≤ m) (hle : m ≤ 12) :
    (monthIndex y m % 12).toNat + 1 = m := by
  unfold monthIndex
  omega

theorem monthIndex_of_ediv (t : Int) : monthIndex (t / 12) ((t % 12).toNat + 1) = t := by
  unfold monthIndex
  omega

theorem days_first (y : Int) (m d : Nat) : days y m d = days y m 1 + d - 1 := by
  unfold days
  dsimp only
  omega

theorem monthStart_monthIndex {y : Int} {m : Nat} (hpos : 1 ≤ m) (hle : m ≤ 12) :
    monthStart (monthIndex y m) = days y m 1 := by
  unfold monthStart
  rw [monthIndex_ediv hpos hle, monthIndex_emod hpos hle]

theorem monthLength_monthIndex {y : Int} {m : Nat} (hpos : 1 ≤ m) (hle : m ≤ 12) :
    monthLength (monthIndex y m) = monthDays m y := by
  unfold monthLength
  rw [monthIndex_ediv hpos hle, monthIndex_emod hpos hle]

theorem days_next_month {y : Int} {m : Nat} (hpos : 1 ≤ m) (hlt : m < 12) :
    days y (m + 1) 1 = days y m 1 + monthDays m y := by
  by_cases hfeb : m = 2
  · rw [hfeb]
    show days y 3 1 = days y 2 1 + ((if isLeap y then 29 else 28 : Nat) : Int)
    unfold days
    by_cases hleap : isLeap y = true
    · rw [if_pos hleap]
      rw [isLeap_iff] at hleap
      simp only [Nat.reduceLeDiff, if_true, if_false, Nat.lt_irrefl, Nat.reduceLT]
      omega
    · rw [if_neg hleap]
      rw [isLeap_iff] at hleap
      simp only [Nat.reduceLeDiff, if_true, if_false, Nat.lt_irrefl, Nat.reduceLT]
      omega
  · unfold days
    interval_cases m
    case «2» => exact absurd rfl hfeb
    all_goals
      simp [monthDays]
      omega

theorem days_next_year (y : Int) : days (y + 1) 1 1 = days y 12 1 + monthDays 12 y := by
  unfold days
  simp [monthDays]
  omega

/-- A month starts where the one before it ends. -/
theorem monthStart_succ (t : Int) : monthStart (t + 1) = monthStart t + monthLength t := by
  unfold monthStart monthLength
  by_cases hdec : t % 12 = 11
  · have hyear : (t + 1) / 12 = t / 12 + 1 := by omega
    have hmonth : ((t + 1) % 12).toNat + 1 = 1 := by omega
    have hlast : (t % 12).toNat + 1 = 12 := by omega
    rw [hyear, hmonth, hlast]
    exact days_next_year (t / 12)
  · have hyear : (t + 1) / 12 = t / 12 := by omega
    have hmonth : ((t + 1) % 12).toNat + 1 = (t % 12).toNat + 1 + 1 := by omega
    rw [hyear, hmonth]
    exact days_next_month (by omega) (by omega)

theorem monthLength_pos (t : Int) : 28 ≤ monthLength t := monthDays_pos _ _

theorem monthStart_add (t : Int) (n : Nat) : monthStart t + 28 * n ≤ monthStart (t + n) := by
  induction n with
  | zero => simp
  | succ n ih =>
      have hsucc := monthStart_succ (t + n)
      have hlen := monthLength_pos (t + n)
      push_cast
      rw [← add_assoc, hsucc]
      omega

/-- A later month starts after an earlier one ends. -/
theorem monthEnd_le {s t : Int} (h : s < t) : monthStart s + monthLength s ≤ monthStart t := by
  have hadd := monthStart_add (s + 1) (t - (s + 1)).toNat
  rw [show s + 1 + ((t - (s + 1)).toNat : Int) = t by omega, monthStart_succ] at hadd
  omega

/-! ## The calendar as a whole -/

theorem days_eq {y : Int} {m d : Nat} (h : Valid y m d) :
    days y m d = monthStart (monthIndex y m) + d - 1 := by
  rw [monthStart_monthIndex h.month_pos h.month_le, days_first]

theorem days_lt_of_monthIndex_lt {y y' : Int} {m m' d d' : Nat} (h : Valid y m d)
    (h' : Valid y' m' d') (hlt : monthIndex y m < monthIndex y' m') :
    days y m d < days y' m' d' := by
  have hend := monthEnd_le hlt
  rw [monthLength_monthIndex h.month_pos h.month_le] at hend
  rw [days_eq h, days_eq h']
  have hday := h.day_le
  have hday' := h'.day_pos
  omega

theorem before_iff {y y' : Int} {m m' d d' : Nat} (h : Valid y m d) (h' : Valid y' m' d') :
    Before (y, m, d) (y', m', d') ↔ monthIndex y m < monthIndex y' m' ∨
      monthIndex y m = monthIndex y' m' ∧ d < d' := by
  have hpos := h.month_pos
  have hle := h.month_le
  have hpos' := h'.month_pos
  have hle' := h'.month_le
  unfold Before monthIndex
  dsimp only
  omega

/-- The days are in the order of their dates. -/
theorem days_lt_days_iff {y y' : Int} {m m' d d' : Nat} (h : Valid y m d) (h' : Valid y' m' d') :
    days y m d < days y' m' d' ↔ Before (y, m, d) (y', m', d') := by
  rw [before_iff h h']
  rcases lt_trichotomy (monthIndex y m) (monthIndex y' m') with hlt | heq | hgt
  · have hdays := days_lt_of_monthIndex_lt h h' hlt
    omega
  · rw [days_eq h, days_eq h', heq]
    omega
  · have hdays := days_lt_of_monthIndex_lt h' h hgt
    omega

theorem date_eq_of_days_eq {y y' : Int} {m m' d d' : Nat} (h : Valid y m d) (h' : Valid y' m' d')
    (heq : days y m d = days y' m' d') : (y, m, d) = (y', m', d') := by
  have hnot : ¬ Before (y, m, d) (y', m', d') := by
    rw [← days_lt_days_iff h h']
    omega
  have hnot' : ¬ Before (y', m', d') (y, m, d) := by
    rw [← days_lt_days_iff h' h]
    omega
  unfold Before at hnot hnot'
  dsimp only at hnot hnot'
  rw [Prod.mk.injEq, Prod.mk.injEq]
  omega

/-- The date of the day of a date is that date. -/
theorem ymd_days {y : Int} {m d : Nat} (h : Valid y m d) : ymd (days y m d) = (y, m, d) :=
  date_eq_of_days_eq (valid_ymd _) h (days_ymd _)

theorem ymd_before_iff (z w : Int) : Before (ymd z) (ymd w) ↔ z < w := by
  have h := days_lt_days_iff (valid_ymd z) (valid_ymd w)
  rw [days_ymd, days_ymd] at h
  exact h.symm

/-! ## Moving by months -/

/-- The month of a day, counted from January of year 0. -/
def monthOf (z : Int) : Int := monthIndex (ymd z).1 (ymd z).2.1

/-- The day of the month of a day. -/
def dayOf (z : Int) : Nat := (ymd z).2.2

theorem dayOf_pos (z : Int) : 1 ≤ dayOf z := (valid_ymd z).day_pos

theorem dayOf_le (z : Int) : dayOf z ≤ monthLength (monthOf z) := by
  have h := valid_ymd z
  unfold monthOf
  rw [monthLength_monthIndex h.month_pos h.month_le]
  exact h.day_le

/-- A day is its month's first day and its day of the month. -/
theorem eq_monthStart_add (z : Int) : z = monthStart (monthOf z) + dayOf z - 1 := by
  have h := days_eq (valid_ymd z)
  rw [days_ymd] at h
  exact h

theorem monthOf_dayOf_of_eq {z t : Int} {d : Nat} (hpos : 1 ≤ d) (hle : d ≤ monthLength t)
    (h : z = monthStart t + d - 1) : monthOf z = t ∧ dayOf z = d := by
  have hvalid : Valid (t / 12) ((t % 12).toNat + 1) d :=
    ⟨by omega, by omega, hpos, hle⟩
  have hdays : z = days (t / 12) ((t % 12).toNat + 1) d := by
    rw [days_eq hvalid, monthIndex_of_ediv, h]
  unfold monthOf dayOf
  rw [hdays, ymd_days hvalid]
  exact ⟨monthIndex_of_ediv t, rfl⟩

theorem addMonths_eq (z k : Int) :
    addMonths z k =
      monthStart (monthOf z + k) + (min (dayOf z) (monthLength (monthOf z + k)) : Nat) - 1 := by
  show days ((monthOf z + k) / 12) (((monthOf z + k) % 12).toNat + 1) _ = _
  rw [days_first]
  rfl

/-- A day moved by months is in the month so many on, on the same day or the
month's last. -/
theorem monthOf_addMonths (z k : Int) : monthOf (addMonths z k) = monthOf z + k ∧
    dayOf (addMonths z k) = min (dayOf z) (monthLength (monthOf z + k)) := by
  have hday := dayOf_pos z
  have hlen := monthLength_pos (monthOf z + k)
  exact monthOf_dayOf_of_eq (by omega) (by omega) (addMonths_eq z k)

theorem lt_iff_of_month {z w : Int} : z < w ↔ monthOf z < monthOf w ∨
    monthOf z = monthOf w ∧ dayOf z < dayOf w := by
  rw [← ymd_before_iff]
  exact before_iff (valid_ymd z) (valid_ymd w)

/-- A day moved by months is the last day, not after its day of the month, of the
month so many on. -/
theorem isGreatest_addMonths (z k : Int) :
    IsGreatest {w | monthOf w = monthOf z + k ∧ dayOf w ≤ dayOf z} (addMonths z k) := by
  obtain ⟨hmonth, hday⟩ := monthOf_addMonths z k
  constructor
  · show monthOf (addMonths z k) = monthOf z + k ∧ dayOf (addMonths z k) ≤ dayOf z
    omega
  · intro w hw
    by_contra hafter
    have hlt := lt_iff_of_month.mp (not_le.mp hafter)
    have hle := dayOf_le w
    have hw : monthOf w = monthOf z + k ∧ dayOf w ≤ dayOf z := hw
    rw [hw.1] at hle
    omega

theorem addMonths_mono_day (k : Int) : Monotone fun z => addMonths z k := by
  intro z w hzw
  show addMonths z k ≤ addMonths w k
  obtain ⟨hmonth, hday⟩ := monthOf_addMonths z k
  obtain ⟨hmonth', hday'⟩ := monthOf_addMonths w k
  by_contra hafter
  have hlt := lt_iff_of_month.mp (not_le.mp hafter)
  have hnot : ¬ w < z := not_lt.mpr hzw
  rw [lt_iff_of_month] at hnot
  by_cases hsame : monthOf z = monthOf w
  · rw [hsame] at hday
    omega
  · omega

theorem addMonths_mono_months (z : Int) : Monotone (addMonths z) := by
  intro k l hkl
  obtain ⟨hmonth, hday⟩ := monthOf_addMonths z k
  obtain ⟨hmonth', hday'⟩ := monthOf_addMonths z l
  by_contra hafter
  have hlt := lt_iff_of_month.mp (not_le.mp hafter)
  by_cases hsame : k = l
  · rw [hsame] at hlt
    omega
  · omega

/-- The civil calendar functions are inverse and monotone. -/
theorem civil_calendar :
    (∀ z, Valid (ymd z).1 (ymd z).2.1 (ymd z).2.2 ∧
      days (ymd z).1 (ymd z).2.1 (ymd z).2.2 = z) ∧
    (∀ y m d, Valid y m d → ymd (days y m d) = (y, m, d)) ∧
    (∀ z w, z < w ↔ Before (ymd z) (ymd w)) ∧
    (∀ y m d y' m' d', Valid y m d → Valid y' m' d' →
      (Before (y, m, d) (y', m', d') ↔ days y m d < days y' m' d')) ∧
    (∀ z k, IsGreatest {w | monthOf w = monthOf z + k ∧ dayOf w ≤ dayOf z} (addMonths z k)) ∧
    (∀ k, Monotone fun z => addMonths z k) ∧ ∀ z, Monotone (addMonths z) :=
  ⟨fun z => ⟨valid_ymd z, days_ymd z⟩, fun _ _ _ h => ymd_days h,
    fun z w => (ymd_before_iff z w).symm, fun _ _ _ _ _ _ h h' => (days_lt_days_iff h h').symm,
    isGreatest_addMonths, addMonths_mono_day, addMonths_mono_months⟩

/-- The last leap day before 2100, and a year on. -/
theorem civil_calendar_leap_day : ymd (days 2096 2 29) = (2096, 2, 29) ∧
    addMonths (days 2096 2 29) 12 = days 2097 2 28 :=
  ⟨civil_calendar.2.1 2096 2 29 ⟨by decide, by decide, by decide, by decide⟩, by decide⟩

end Improv.Engine.Civil
