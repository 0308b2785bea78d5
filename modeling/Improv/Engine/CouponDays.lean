import Improv.Engine.Coupons
/-!
# Days between two dates

In a basis of actual days the difference of two dates is that of their calendar
days: the pieces it is summed from are the days from the first of one month to
the first of another.
-/

namespace Improv.Engine.Coupons

open Improv.Engine.Civil

namespace ScaDate

/-- A date of a basis that counts actual days. -/
structure Actual (s : ScaDate) : Prop where
  d30 : s.d30 = false
  month_pos : 1 ≤ s.month
  month_le : s.month ≤ 12
  day : s.day = if s.lastDay then monthDays s.month s.year
    else min s.origDay (monthDays s.month s.year)

/-- The month that a date is in. -/
def index (s : ScaDate) : Int := monthIndex s.year s.month

theorem actual_onMonth (z : Int) {basis : Nat} (h : basis ≠ 0 ∧ basis ≠ 4) (t : Int) :
    Actual (onMonth z basis t) where
  d30 := by simp [h]
  month_pos := by
    rw [onMonth_month]
    omega
  month_le := by
    rw [onMonth_month]
    omega
  day := by
    rw [onMonth_day, if_neg (by omega), onMonth_lastDay, onMonth_origDay, onMonth_month,
      onMonth_year]
    unfold dayIn
    simp only [decide_eq_true_eq]
    rfl

theorem Actual.date_eq {s : ScaDate} (h : s.Actual) : s.date = monthStart s.index + s.day - 1 := by
  unfold date index
  rw [days_first, monthStart_monthIndex h.month_pos h.month_le, h.day, min_comm]

/-! ## Sums of months and of years -/

theorem sum_monthLen {s : ScaDate} (hd30 : s.d30 = false) {m n : Nat} (hm : 1 ≤ m)
    (hn : m + n ≤ 13) :
    ∑ i ∈ Finset.range n, s.monthLen (m + i) =
      monthStart (monthIndex s.year (m + n)) - monthStart (monthIndex s.year m) := by
  have hstep : ∀ i ∈ Finset.range n, s.monthLen (m + i) =
      monthStart (monthIndex s.year (m + (i + 1))) - monthStart (monthIndex s.year (m + i)) := by
    intro i hi
    have hlt := Finset.mem_range.mp hi
    have hnext : monthIndex s.year (m + (i + 1)) = monthIndex s.year (m + i) + 1 := by
      unfold monthIndex
      push_cast
      omega
    unfold monthLen
    rw [hnext, monthStart_succ, monthLength_monthIndex (by omega) (by omega), hd30]
    simp
  rw [Finset.sum_congr rfl hstep,
    Finset.sum_range_sub fun i => monthStart (monthIndex s.year (m + i))]
  rfl

theorem january_succ (y : Int) :
    monthStart ((y + 1) * 12) - monthStart (y * 12) = if isLeap y then 366 else 365 := by
  have hyear : ∀ x : Int, monthStart (x * 12) = days x 1 1 := by
    intro x
    unfold monthStart
    rw [show x * 12 / 12 = x by omega, show (x * 12 % 12).toNat + 1 = 1 by omega]
  rw [hyear, hyear]
  unfold days
  by_cases hleap : isLeap y = true
  · rw [if_pos hleap]
    rw [isLeap_iff] at hleap
    simp only [Nat.one_le_ofNat, if_true]
    omega
  · rw [if_neg hleap]
    rw [isLeap_iff] at hleap
    simp only [Nat.one_le_ofNat, if_true]
    omega

theorem sum_yearLen {s : ScaDate} (hd30 : s.d30 = false) (y : Int) (n : Nat) :
    ∑ i ∈ Finset.range n, s.yearLen (y + i) =
      monthStart ((y + n) * 12) - monthStart (y * 12) := by
  have hstep : ∀ i ∈ Finset.range n, s.yearLen (y + i) =
      monthStart ((y + (i + 1 : Nat)) * 12) - monthStart ((y + i) * 12) := by
    intro i _
    have hjanuary := january_succ (y + i)
    unfold yearLen
    rw [hd30, Nat.cast_succ, ← add_assoc, hjanuary]
    rfl
  rw [Finset.sum_congr rfl hstep, Finset.sum_range_sub fun i : Nat => monthStart ((y + i) * 12)]
  simp

/-! ## The first of a month -/

/-- A date on the first of the month `t`. -/
structure First (s : ScaDate) (t : Int) : Prop where
  origDay : s.origDay = 1
  lastDay : s.lastDay = false
  d30 : s.d30 = false
  day : s.day = 1
  year : s.year = t / 12
  month : s.month = (t % 12).toNat + 1

theorem First.index_eq {s : ScaDate} {t : Int} (h : First s t) : monthIndex s.year s.month = t := by
  rw [h.year, h.month, monthIndex_of_ediv]

theorem first_setDay {s : ScaDate} (horig : s.origDay = 1) (hlast : s.lastDay = false)
    (hd30 : s.d30 = false) {t : Int} (hyear : s.year = t / 12)
    (hmonth : s.month = (t % 12).toNat + 1) : First s.setDay t := by
  have hlen := monthDays_pos s.month s.year
  have hday : s.setDay = { s with day := 1 } := by
    unfold setDay
    rw [hd30, hlast, horig]
    simp only [Bool.false_eq_true, if_false]
    rw [min_eq_left (by omega)]
  rw [hday]
  exact ⟨horig, hlast, hd30, rfl, hyear, hmonth⟩

theorem First.addMonths {s : ScaDate} {t : Int} (h : First s t) (k : Int) :
    First (s.addMonths k) (t + k) := by
  have htotal : s.year * 12 + s.month - 1 + k = t + k := by
    have hindex := h.index_eq
    unfold monthIndex at hindex
    omega
  unfold ScaDate.addMonths
  refine first_setDay ?_ ?_ ?_ ?_ ?_
  · exact h.origDay
  · exact h.lastDay
  · exact h.d30
  · exact congrArg (· / 12) htotal
  · exact congrArg (fun x => (x % 12).toNat + 1) htotal

theorem First.setYear {s : ScaDate} {t : Int} (h : First s t) (y : Int) :
    First (s.setYear y) (y * 12 + t % 12) := by
  have hmonth : s.month = ((y * 12 + t % 12) % 12).toNat + 1 := by
    rw [h.month]
    omega
  refine first_setDay ?_ ?_ ?_ ?_ ?_
  · exact h.origDay
  · exact h.lastDay
  · exact h.d30
  · show y = (y * 12 + t % 12) / 12
    omega
  · exact hmonth

/-- From the first of a month on to a later date of the same year. -/
theorem First.rest {s : ScaDate} {t : Int} (h : First s t) {b : ScaDate} (hb : b.month ≤ 12)
    (hyear : t / 12 = b.year) (hle : t ≤ b.index) :
    ∑ i ∈ Finset.range (b.month - s.month), s.monthLen (s.month + i) +
        (b.day - (s.addMonths (b.month - s.month)).day) =
      monthStart b.index - monthStart t + b.day - 1 := by
  have hmonth : s.month ≤ b.month := by
    unfold index monthIndex at hle
    rw [h.month]
    omega
  have hpos : 1 ≤ s.month := by
    rw [h.month]
    omega
  have hend : s.month + (b.month - s.month) = b.month := by omega
  rw [sum_monthLen h.d30 hpos (by omega), hend, h.index_eq, (h.addMonths _).day, h.year, hyear]
  unfold index
  omega

theorem acrossMonths_eq {a b : ScaDate} (hd30 : a.d30 = false) (hpos : 1 ≤ a.month)
    (ha : a.month ≤ 12) (hbpos : 1 ≤ b.month) (hb : b.month ≤ 12) (hlt : a.index < b.index) :
    acrossMonths a b = monthStart b.index + b.day - (monthStart a.index + a.day) := by
  have hlen : a.monthLen a.month = monthStart (a.index + 1) - monthStart a.index := by
    unfold monthLen index
    rw [monthStart_succ, monthLength_monthIndex hpos ha, hd30]
    simp
  have hindex : b.index = b.year * 12 + b.month - 1 := rfl
  obtain ⟨s, hs⟩ : ∃ s, s = { a with origDay := 1, day := 1, lastDay := false }.addMonths 1 :=
    ⟨_, rfl⟩
  have hfirst : First s (a.index + 1) := by
    rw [hs]
    refine first_setDay ?_ ?_ ?_ ?_ ?_
    · rfl
    · rfl
    · exact hd30
    · show (a.year * 12 + a.month - 1 + 1) / 12 = _
      rfl
    · show ((a.year * 12 + a.month - 1 + 1) % 12).toNat + 1 = _
      rfl
  unfold acrossMonths
  simp only
  rw [← hs, hlen]
  by_cases hyear : s.year < b.year
  · rw [if_pos hyear]
    unfold toJanuary
    obtain ⟨j, hj⟩ : ∃ j, j = s.addMonths (13 - s.month : Nat) := ⟨_, rfl⟩
    have hmonth := hfirst.month
    have hsyear := hfirst.year
    have hjfirst : First j ((s.year + 1) * 12) := by
      have h := hfirst.addMonths (13 - s.month : Nat)
      rw [← hj, show a.index + 1 + ((13 - s.month : Nat) : Int) = (s.year + 1) * 12 by omega] at h
      exact h
    have hjyear : j.year = s.year + 1 := by
      rw [hjfirst.year]
      omega
    have hmonths := sum_monthLen hfirst.d30 (show 1 ≤ s.month by omega)
      (show s.month + (13 - s.month) ≤ 13 by omega)
    rw [hfirst.index_eq, show monthIndex s.year (s.month + (13 - s.month)) = (s.year + 1) * 12 by
      unfold monthIndex
      omega] at hmonths
    have hyears := sum_yearLen hjfirst.d30 j.year (b.year - j.year).toNat
    rw [Int.toNat_of_nonneg (by omega), show j.year + (b.year - j.year) = b.year by omega,
      hjyear] at hyears
    have hrest := (hjfirst.setYear b.year).rest hb (by omega) (by omega)
    simp only
    rw [← hj, hmonths, hjyear, hyears, add_assoc _ _ ((b.day : Int) - _), hrest,
      show b.year * 12 + (s.year + 1) * 12 % 12 = b.year * 12 by omega]
    omega
  · have hsame : (a.index + 1) / 12 = b.year := by
      rw [hfirst.year] at hyear
      omega
    have hrest := hfirst.rest hb hsame (by omega)
    rw [if_neg hyear]
    simp only
    rw [add_assoc, hrest]
    omega

/-! ## The difference -/

theorem Actual.day_le {s : ScaDate} (h : s.Actual) : s.day ≤ monthLength s.index := by
  unfold index
  rw [monthLength_monthIndex h.month_pos h.month_le, h.day]
  split <;> omega

theorem before_key_iff {a b : ScaDate} (ha : a.Actual) (hb : b.Actual) :
    Before a.key b.key ↔ a.index < b.index ∨ a.index = b.index ∧ a.day < b.day := by
  have hapos := ha.month_pos
  have hale := ha.month_le
  have hbpos := hb.month_pos
  have hble := hb.month_le
  unfold Before key index monthIndex
  dsimp only
  omega

theorem key_eq_iff {a b : ScaDate} (ha : a.Actual) (hb : b.Actual) :
    a.key = b.key ↔ a.index = b.index ∧ a.day = b.day := by
  have hapos := ha.month_pos
  have hale := ha.month_le
  have hbpos := hb.month_pos
  have hble := hb.month_le
  unfold key index monthIndex
  rw [Prod.mk.injEq, Prod.mk.injEq]
  omega

theorem Actual.day_pos {s : ScaDate} (h : s.Actual) (horig : 1 ≤ s.origDay) : 1 ≤ s.day := by
  have hlen := monthDays_pos s.month s.year
  rw [h.day]
  split <;> omega

/-- A date not before another one is not earlier in its month or in the month. -/
theorem Actual.ordered {a b : ScaDate} (ha : a.Actual) (hb : b.Actual) (h : b.lt a = false) :
    a.index < b.index ∨ a.index = b.index ∧ a.day ≤ b.day := by
  unfold lt at h
  by_cases hkey : b.key = a.key
  · have hsame := (key_eq_iff hb ha).mp hkey
    omega
  · rw [if_pos hkey, decide_eq_false_iff_not, before_key_iff hb ha] at h
    omega

theorem Actual.date_le {a b : ScaDate} (ha : a.Actual) (hb : b.Actual) (hday : 1 ≤ b.day)
    (h : a.index < b.index ∨ a.index = b.index ∧ a.day ≤ b.day) : a.date ≤ b.date := by
  have hle := ha.day_le
  rw [ha.date_eq, hb.date_eq]
  rcases h with hlt | ⟨heq, hdays⟩
  · have hend := monthEnd_le hlt
    omega
  · rw [heq]
    omega

theorem diff_of_ordered {a b : ScaDate} (ha : a.Actual) (hb : b.Actual) (hday : 1 ≤ b.day)
    (h : b.lt a = false) : diff a b = b.date - a.date := by
  have horder := ha.ordered hb h
  have hdate := ha.date_le hb hday horder
  have hcounted : counted a b = (a, b) := by
    unfold counted
    rw [hb.d30]
    rfl
  have hless : (a.year < b.year ∨ a.year = b.year ∧ a.month < b.month) ↔ a.index < b.index := by
    have hapos := ha.month_pos
    have hale := ha.month_le
    have hbpos := hb.month_pos
    have hble := hb.month_le
    unfold index monthIndex
    omega
  rw [diff, if_neg (by rw [h]; exact Bool.false_ne_true), hcounted]
  simp only
  by_cases hlt : a.index < b.index
  · rw [if_pos (hless.mpr hlt), acrossMonths_eq ha.d30 ha.month_pos ha.month_le hb.month_pos
      hb.month_le hlt]
    rw [ha.date_eq, hb.date_eq] at hdate ⊢
    omega
  · have hsame : a.index = b.index := by omega
    rw [if_neg (mt hless.mp hlt)]
    rw [ha.date_eq, hb.date_eq, hsame] at hdate ⊢
    omega

/-- The difference of two dates is the days between them on the calendar. -/
theorem diff_eq {a b : ScaDate} (ha : a.Actual) (hb : b.Actual) (haday : 1 ≤ a.day)
    (hbday : 1 ≤ b.day) : diff a b = |b.date - a.date| := by
  by_cases h : b.lt a = true
  · have hback := lt_asymm h
    have hdate := hb.date_le ha haday (hb.ordered ha hback)
    rw [diff, if_pos h, diff_of_ordered hb ha haday hback, abs_sub_comm,
      abs_of_nonneg (by omega)]
  · rw [Bool.not_eq_true] at h
    have hdate := ha.date_le hb hbday (ha.ordered hb h)
    rw [diff_of_ordered ha hb hbday h, abs_of_nonneg (by omega)]

end ScaDate

end Improv.Engine.Coupons
