import Mathlib.Algebra.BigOperators.Intervals
import Mathlib.Data.Rat.Defs
import Improv.Engine.Civil
/-!
# Coupon dates

Day counting for bonds.  A date here remembers whether it was the last day of its
month, so that adding months keeps month ends at month ends, and counts months of
30 days in the 30/360 bases.  The coupon dates around a settlement are searched
from the maturity moved into the settlement's year; `fuel` bounds a search's
steps, and none stands for one that did not end.
-/

namespace Improv.Engine.Coupons

open Improv.Engine.Civil

/-- Which day a date was, and which it counts as. -/
structure ScaDate where
  origDay : Nat
  day : Nat
  month : Nat
  year : Int
  lastDay : Bool
  d30 : Bool
  us : Bool
deriving DecidableEq

instance (a b : Date) : Decidable (Before a b) := inferInstanceAs (Decidable (_ ∨ _))

namespace ScaDate

def setDay (s : ScaDate) : ScaDate :=
  let last := monthDays s.month s.year
  if s.d30 then
    let day := min s.origDay 30
    { s with day := if s.lastDay = true ∨ last ≤ day then 30 else day }
  else { s with day := if s.lastDay then last else min s.origDay last }

def new (date : Int) (basis : Nat) : ScaDate :=
  let (year, month, origDay) := ymd date
  setDay ⟨origDay, origDay, month, year, monthDays month year ≤ origDay, basis = 0 || basis = 4,
    basis = 0⟩

def monthLen (s : ScaDate) (m : Nat) : Int := if s.d30 then 30 else monthDays m s.year

def addMonths (s : ScaDate) (k : Int) : ScaDate :=
  let total := s.year * 12 + s.month - 1 + k
  setDay { s with year := total / 12, month := (total % 12).toNat + 1 }

def setYear (s : ScaDate) (y : Int) : ScaDate := setDay { s with year := y }

/-- The calendar day that a date stands for. -/
def date (s : ScaDate) : Int :=
  let last := monthDays s.month s.year
  days s.year s.month (if s.lastDay then last else min last s.origDay)

def key (s : ScaDate) : Date := (s.year, s.month, s.day)

/-- A date before another one. -/
def lt (s o : ScaDate) : Bool :=
  if s.key ≠ o.key then Before s.key o.key
  else if s.lastDay || o.lastDay then !s.lastDay && o.lastDay
  else s.origDay < o.origDay

theorem lt_asymm {s o : ScaDate} (h : s.lt o = true) : o.lt s = false := by
  unfold lt at h ⊢
  by_cases hkey : s.key = o.key
  · rw [if_neg (not_not.mpr hkey)] at h
    rw [if_neg (not_not.mpr hkey.symm)]
    cases hs : s.lastDay with
    | true =>
        rw [hs] at h
        simp at h
    | false =>
        rw [hs] at h
        cases ho : o.lastDay with
        | true => rfl
        | false =>
            simp only [ho, Bool.or_false, Bool.false_eq_true, if_false, decide_eq_true_eq] at h
            simp only [Bool.or_false, Bool.false_eq_true, if_false, decide_eq_false_iff_not]
            omega
  · rw [if_pos hkey, decide_eq_true_iff] at h
    rw [if_pos (Ne.symm hkey), decide_eq_false_iff_not]
    unfold Before at h ⊢
    omega

/-! ## Differences -/

/-- The days that two dates in order count as in their basis. -/
def counted (a b : ScaDate) : ScaDate × ScaDate :=
  if b.d30 then
    if b.us then
      if (a.month = 2 ∨ a.day < 30) ∧ b.origDay = 31 then (a, { b with day := 31 })
      else if b.month = 2 ∧ b.lastDay = true then (a, { b with day := monthDays 2 b.year })
      else (a, b)
    else
      (if a.month = 2 ∧ a.day = 30 then { a with day := monthDays 2 a.year } else a,
        if b.month = 2 ∧ b.day = 30 then { b with day := monthDays 2 b.year } else b)
  else (a, b)

def yearLen (s : ScaDate) (y : Int) : Int := if s.d30 then 360 else if isLeap y then 366 else 365

/-- The days from the first of a month to January, and that January. -/
def toJanuary (a : ScaDate) : Int × ScaDate :=
  (∑ i ∈ Finset.range (13 - a.month), a.monthLen (a.month + i), a.addMonths (13 - a.month : Nat))

/-- The days from a date to another one in a later month, to the first of the
next month, then whole years, then months. -/
def acrossMonths (a b : ScaDate) : Int :=
  let n := a.monthLen a.month - a.day + 1
  let a := { a with origDay := 1, day := 1, lastDay := false }.addMonths 1
  let (n, a) :=
    if a.year < b.year then
      let (m, a) := a.toJanuary
      (n + m + ∑ i ∈ Finset.range (b.year - a.year).toNat, a.yearLen (a.year + i),
        a.setYear b.year)
    else (n, a)
  let n := n + ∑ i ∈ Finset.range (b.month - a.month), a.monthLen (a.month + i)
  n + (b.day - (a.addMonths (b.month - a.month)).day)

/-- The days from a date to another one in their basis. -/
def diff (a b : ScaDate) : Int :=
  if b.lt a then diff b a
  else
    let (a, b) := counted a b
    max 0 (if a.year < b.year ∨ a.year = b.year ∧ a.month < b.month then acrossMonths a b
      else b.day - a.day)
termination_by if b.lt a then 1 else 0
decreasing_by
  rename_i h
  rw [if_pos h, lt_asymm h]
  decide

end ScaDate

/-! ## The search -/

/-- A date moved by months while a test holds. -/
def moveWhile (test : ScaDate → Bool) (k : Int) : (fuel : Nat) → ScaDate → Option ScaDate
  | 0, _ => none
  | fuel + 1, d => if test d then moveWhile test k fuel (d.addMonths k) else some d

/-- The coupon date on or before the settlement. -/
def pcd (fuel : Nat) (settle mat : Int) (freq basis : Nat) : Option ScaDate :=
  let s := ScaDate.new settle basis
  let d := (ScaDate.new mat basis).setYear s.year
  let d := if d.lt s then d.setYear (d.year + 1) else d
  moveWhile (fun d => s.lt d) (Int.tdiv (-12) freq) fuel d

/-- The first coupon date after the settlement. -/
def ncd (fuel : Nat) (settle mat : Int) (freq basis : Nat) : Option ScaDate :=
  let s := ScaDate.new settle basis
  let d := (ScaDate.new mat basis).setYear s.year
  let d := if s.lt d then d.setYear (d.year - 1) else d
  moveWhile (fun d => !s.lt d) (Int.tdiv 12 freq) fuel d

/-- Days from the previous coupon to the settlement. -/
def coupdaybs (fuel : Nat) (settle mat : Int) (freq basis : Nat) : Option ℚ := do
  let p ← pcd fuel settle mat freq basis
  return (p.diff (.new settle basis) : ℚ)

/-- Days in the coupon period that holds the settlement. -/
def coupdays (fuel : Nat) (settle mat : Int) (freq basis : Nat) : Option ℚ :=
  match basis with
  | 1 => do
    let p ← pcd fuel settle mat freq basis
    return (p.diff (p.addMonths (Int.tdiv 12 freq)) : ℚ)
  | 3 => some (365 / freq)
  | _ => some (360 / freq)

/-- Days from the settlement to the next coupon. -/
def coupdaysnc (fuel : Nat) (settle mat : Int) (freq basis : Nat) : Option ℚ :=
  if basis ≠ 0 ∧ basis ≠ 4 then do
    let n ← ncd fuel settle mat freq basis
    return ((ScaDate.new settle basis).diff n : ℚ)
  else do
    return (← coupdays fuel settle mat freq basis) - (← coupdaybs fuel settle mat freq basis)

/-- Coupons payable after the settlement up to the maturity. -/
def coupnum (fuel : Nat) (settle mat : Int) (freq basis : Nat) : Option Int := do
  let m := ScaDate.new mat basis
  let p ← pcd fuel settle mat freq basis
  let months := (m.year - p.year) * 12 + m.month - p.month
  return Int.tdiv (months * freq) 12

end Improv.Engine.Coupons

/-!
## A date in another month

Whatever months and years a date was moved by, it is its first day's date in some
month.  There it stands for a calendar day that grows with the month, and a
settlement is before it just when its calendar day is.
-/

namespace Improv.Engine.Coupons

open Improv.Engine.Civil

/-- The day is the last of its month. -/
def IsMonthEnd (z : Int) : Prop := monthLength (monthOf z) ≤ dayOf z

instance (z : Int) : Decidable (IsMonthEnd z) := inferInstanceAs (Decidable (_ ≤ _))

/-- The day's place in a month, month ends kept. -/
def dayIn (z t : Int) : Nat :=
  if IsMonthEnd z then monthLength t else min (dayOf z) (monthLength t)

/-- The day moved to a month, month ends kept. -/
def movedTo (z t : Int) : Int := monthStart t + dayIn z t - 1

theorem monthLength_le (t : Int) : monthLength t ≤ 31 := monthDays_le _ _

theorem dayIn_pos (z t : Int) : 1 ≤ dayIn z t := by
  have hlen := monthLength_pos t
  have hday := dayOf_pos z
  unfold dayIn
  split <;> omega

theorem dayIn_le (z t : Int) : dayIn z t ≤ monthLength t := by
  unfold dayIn
  split <;> omega

theorem monthOf_movedTo (z t : Int) :
    monthOf (movedTo z t) = t ∧ dayOf (movedTo z t) = dayIn z t :=
  monthOf_dayOf_of_eq (dayIn_pos z t) (dayIn_le z t) rfl

theorem movedTo_strictMono (z : Int) : StrictMono (movedTo z) := by
  intro t u htu
  rw [lt_iff_of_month, (monthOf_movedTo z t).1, (monthOf_movedTo z u).1]
  exact .inl htu

/-! ## Dates -/

namespace ScaDate

/-- The date of day `z` in the month `t`. -/
def onMonth (z : Int) (basis : Nat) (t : Int) : ScaDate :=
  setDay ⟨dayOf z, dayOf z, (t % 12).toNat + 1, t / 12, IsMonthEnd z, basis = 0 || basis = 4,
    basis = 0⟩

theorem new_eq (z : Int) (basis : Nat) : new z basis = onMonth z basis (monthOf z) := by
  have hvalid := valid_ymd z
  have hyear : monthOf z / 12 = (ymd z).1 := monthIndex_ediv hvalid.month_pos hvalid.month_le
  have hmonth : (monthOf z % 12).toNat + 1 = (ymd z).2.1 :=
    monthIndex_emod hvalid.month_pos hvalid.month_le
  have hend : IsMonthEnd z ↔ monthDays (ymd z).2.1 (ymd z).1 ≤ (ymd z).2.2 := by
    show monthLength (monthIndex _ _) ≤ _ ↔ _
    rw [monthLength_monthIndex hvalid.month_pos hvalid.month_le]
    rfl
  unfold onMonth
  rw [hyear, hmonth, decide_eq_decide.mpr hend]
  rfl

theorem onMonth_day (z : Int) (basis : Nat) (t : Int) :
    (onMonth z basis t).day =
      if basis = 0 ∨ basis = 4 then
        if IsMonthEnd z ∨ monthLength t ≤ min (dayOf z) 30 then 30 else min (dayOf z) 30
      else dayIn z t := by
  unfold onMonth setDay dayIn monthLength
  by_cases hbasis : basis = 0 ∨ basis = 4
  · simp [hbasis]
  · simp [hbasis]

@[simp] theorem onMonth_month (z : Int) (basis : Nat) (t : Int) :
    (onMonth z basis t).month = (t % 12).toNat + 1 := by
  unfold onMonth setDay
  split <;> rfl

@[simp] theorem onMonth_year (z : Int) (basis : Nat) (t : Int) :
    (onMonth z basis t).year = t / 12 := by
  unfold onMonth setDay
  split <;> rfl

@[simp] theorem onMonth_lastDay (z : Int) (basis : Nat) (t : Int) :
    (onMonth z basis t).lastDay = decide (IsMonthEnd z) := by
  unfold onMonth setDay
  split <;> rfl

@[simp] theorem onMonth_origDay (z : Int) (basis : Nat) (t : Int) :
    (onMonth z basis t).origDay = dayOf z := by
  unfold onMonth setDay
  split <;> rfl

@[simp] theorem onMonth_d30 (z : Int) (basis : Nat) (t : Int) :
    (onMonth z basis t).d30 = (decide (basis = 0) || decide (basis = 4)) := by
  unfold onMonth setDay
  split <;> rfl

theorem setDay_congr {s o : ScaDate} (h : { s with day := o.day } = o) : s.setDay = o.setDay := by
  rw [← h]
  unfold setDay
  split <;> rfl

theorem addMonths_onMonth (z : Int) (basis : Nat) (t k : Int) :
    (onMonth z basis t).addMonths k = onMonth z basis (t + k) := by
  have htotal : t / 12 * 12 + ((t % 12).toNat + 1 : Nat) - 1 + k = t + k := by omega
  unfold addMonths
  rw [onMonth_year, onMonth_month, htotal]
  unfold onMonth
  apply setDay_congr
  unfold setDay
  split <;> rfl

theorem setYear_onMonth (z : Int) (basis : Nat) (t y : Int) :
    (onMonth z basis t).setYear y = onMonth z basis (y * 12 + t % 12) := by
  have hyear : (y * 12 + t % 12) / 12 = y := by omega
  have hmonth : (y * 12 + t % 12) % 12 = t % 12 := by omega
  unfold setYear
  unfold onMonth
  rw [hyear, hmonth]
  apply setDay_congr
  unfold setDay
  split <;> rfl

theorem date_onMonth (z : Int) (basis : Nat) (t : Int) :
    (onMonth z basis t).date = movedTo z t := by
  have hlen : monthDays ((t % 12).toNat + 1) (t / 12) = monthLength t := rfl
  have hstart : days (t / 12) ((t % 12).toNat + 1) 1 = monthStart t := rfl
  unfold date
  rw [onMonth_year, onMonth_month, onMonth_lastDay, onMonth_origDay, days_first, hlen, hstart,
    min_comm]
  unfold movedTo dayIn
  simp only [decide_eq_true_eq]

/-! ## Order -/

theorem key_onMonth_before_iff (w z : Int) (basis : Nat) (t u : Int) :
    Before (onMonth w basis t).key (onMonth z basis u).key ↔
      t < u ∨ t = u ∧ (onMonth w basis t).day < (onMonth z basis u).day := by
  unfold Before key
  rw [onMonth_year, onMonth_year, onMonth_month, onMonth_month]
  dsimp only
  omega

theorem key_onMonth_eq_iff (w z : Int) (basis : Nat) (t u : Int) :
    (onMonth w basis t).key = (onMonth z basis u).key ↔
      t = u ∧ (onMonth w basis t).day = (onMonth z basis u).day := by
  unfold key
  rw [onMonth_year, onMonth_year, onMonth_month, onMonth_month, Prod.mk.injEq, Prod.mk.injEq]
  omega

theorem lt_onMonth_of_lt {w z : Int} {basis : Nat} {t u : Int} (h : t < u) :
    (onMonth w basis t).lt (onMonth z basis u) = true := by
  unfold lt
  rw [if_pos, decide_eq_true_iff]
  · exact (key_onMonth_before_iff w z basis t u).mpr (.inl h)
  · rw [Ne, key_onMonth_eq_iff]
    omega

theorem lt_onMonth_of_gt {w z : Int} {basis : Nat} {t u : Int} (h : u < t) :
    (onMonth w basis t).lt (onMonth z basis u) = false :=
  lt_asymm (lt_onMonth_of_lt h)

theorem lt_onMonth_same (w z : Int) (basis : Nat) (t : Int) :
    (onMonth w basis t).lt (onMonth z basis t) = true ↔
      (onMonth w basis t).day < (onMonth z basis t).day ∨
        (onMonth w basis t).day = (onMonth z basis t).day ∧
          ¬ IsMonthEnd w ∧ (IsMonthEnd z ∨ dayOf w < dayOf z) := by
  unfold lt
  by_cases hday : (onMonth w basis t).day = (onMonth z basis t).day
  · rw [if_neg (not_not.mpr ((key_onMonth_eq_iff w z basis t t).mpr ⟨rfl, hday⟩)),
      onMonth_lastDay, onMonth_lastDay, onMonth_origDay, onMonth_origDay]
    by_cases hw : IsMonthEnd w
    · simp [hw, hday]
    · by_cases hz : IsMonthEnd z
      · simp [hw, hz, hday]
      · simp [hw, hz, hday]
  · rw [if_pos fun h => hday ((key_onMonth_eq_iff w z basis t t).mp h).2, decide_eq_true_iff,
      key_onMonth_before_iff]
    omega

/-- In one month the days that count are in the order of the calendar's. -/
theorem day_order {w z t : Int} {basis : Nat} (hw : monthOf w = t) :
    (onMonth w basis t).lt (onMonth z basis t) = true ↔ dayOf w < dayIn z t := by
  have hday := dayOf_le w
  have hlen := monthLength_le t
  have hlenz := monthLength_le (monthOf z)
  have hend : IsMonthEnd w ↔ monthLength t ≤ dayOf w := by
    rw [← hw]
    rfl
  have hinside : ¬ IsMonthEnd z → dayOf z ≤ 30 := by
    intro h
    have hlt : dayOf z < monthLength (monthOf z) := not_le.mp h
    omega
  rw [hw] at hday
  rw [lt_onMonth_same, onMonth_day, onMonth_day]
  unfold dayIn
  by_cases hwend : IsMonthEnd w
  · have hlast := hend.mp hwend
    simp only [hwend, not_true, false_and, and_false, or_false, true_or, if_true]
    split_ifs <;> omega
  · have hlast : dayOf w < monthLength t := not_le.mp fun h => hwend (hend.mpr h)
    by_cases hzend : IsMonthEnd z
    · simp only [hwend, hzend, not_false_eq_true, true_or, false_or, and_true, if_true, if_false]
      split_ifs <;> omega
    · have hthirty := hinside hzend
      simp only [hwend, hzend, not_false_eq_true, true_and, false_or, if_false]
      split_ifs <;> omega

/-- A settlement is before a date when its calendar day is before the date's. -/
theorem new_lt_onMonth_iff (w z : Int) (basis : Nat) (t : Int) :
    (new w basis).lt (onMonth z basis t) = true ↔ w < movedTo z t := by
  obtain ⟨hmonth, hday⟩ := monthOf_movedTo z t
  rw [new_eq, lt_iff_of_month, hmonth, hday]
  rcases lt_trichotomy (monthOf w) t with hlt | heq | hgt
  · rw [lt_onMonth_of_lt hlt]
    exact iff_of_true rfl (.inl hlt)
  · rw [heq, day_order heq]
    omega
  · rw [lt_onMonth_of_gt hgt]
    exact iff_of_false Bool.false_ne_true (by omega)

end ScaDate

end Improv.Engine.Coupons
