import Improv.Engine.CouponDays
import Mathlib.Data.Set.Card
/-!
# The coupon schedule around a settlement

The schedule is the maturity moved by whole periods.  Either search starts at
most two years from the settlement and stops at the first date on its other side,
so the two dates found are neighbours in the schedule.
-/

namespace Improv.Engine.Coupons

open Improv.Engine.Civil

/-- A day moved by months, a month end to a month end. -/
def movedBy (z k : Int) : Int :=
  if dayOf z = monthLength (monthOf z) then monthStart (monthOf z + k + 1) - 1
  else Civil.addMonths z k

/-- The coupon date `j` periods after the maturity. -/
def couponDate (mat : Int) (freq : Nat) (j : Int) : Int := movedBy mat (j * (12 / freq))

theorem movedBy_eq (z k : Int) : movedBy z k = movedTo z (monthOf z + k) := by
  have hle := dayOf_le z
  have hend : IsMonthEnd z ↔ dayOf z = monthLength (monthOf z) := by
    unfold IsMonthEnd
    omega
  unfold movedBy movedTo dayIn
  by_cases h : dayOf z = monthLength (monthOf z)
  · rw [if_pos h, if_pos (hend.mpr h), monthStart_succ]
  · rw [if_neg h, if_neg (mt hend.mp h), addMonths_eq]

theorem couponDate_strictMono (mat : Int) {freq : Nat} (hperiod : 0 < 12 / (freq : Int)) :
    StrictMono (couponDate mat freq) := by
  intro i j hij
  unfold couponDate
  rw [movedBy_eq, movedBy_eq]
  apply movedTo_strictMono
  have hmul := mul_lt_mul_of_pos_right hij hperiod
  omega

theorem movedTo_self (z : Int) : movedTo z (monthOf z) = z := by
  have hle := dayOf_le z
  have hself : dayIn z (monthOf z) = dayOf z := by
    unfold dayIn
    by_cases hend : IsMonthEnd z
    · rw [if_pos hend]
      exact le_antisymm hend hle
    · rw [if_neg hend, min_eq_left hle]
  unfold movedTo
  rw [hself]
  exact (eq_monthStart_add z).symm

theorem couponDate_zero (mat : Int) (freq : Nat) : couponDate mat freq 0 = mat := by
  unfold couponDate
  rw [zero_mul, movedBy_eq, add_zero, movedTo_self]

/-! ## Dates that are built -/

/-- The dates that are made: of a day, and moved by months or into a year. -/
inductive Built (basis : Nat) : ScaDate → Prop
  | new (z : Int) : Built basis (.new z basis)
  | addMonths {s : ScaDate} (h : Built basis s) (k : Int) : Built basis (s.addMonths k)
  | setYear {s : ScaDate} (h : Built basis s) (y : Int) : Built basis (s.setYear y)

theorem Built.eq_onMonth {basis : Nat} {s : ScaDate} (h : Built basis s) :
    ∃ z t, s = .onMonth z basis t := by
  induction h with
  | new z => exact ⟨z, _, ScaDate.new_eq z basis⟩
  | addMonths _ k ih =>
      obtain ⟨z, t, rfl⟩ := ih
      exact ⟨z, _, ScaDate.addMonths_onMonth z basis t k⟩
  | setYear _ y ih =>
      obtain ⟨z, t, rfl⟩ := ih
      exact ⟨z, _, ScaDate.setYear_onMonth z basis t y⟩

/-- In a basis of actual days the difference is the calendar's. -/
theorem diff_built {basis : Nat} (h : basis ≠ 0 ∧ basis ≠ 4) {a b : ScaDate}
    (ha : Built basis a) (hb : Built basis b) : a.diff b = |b.date - a.date| := by
  have hpos : ∀ z t, 1 ≤ (ScaDate.onMonth z basis t).day := by
    intro z t
    rw [ScaDate.onMonth_day, if_neg (by omega)]
    exact dayIn_pos z t
  obtain ⟨w, t, rfl⟩ := ha.eq_onMonth
  obtain ⟨z, u, rfl⟩ := hb.eq_onMonth
  exact ScaDate.diff_eq (ScaDate.actual_onMonth w h t) (ScaDate.actual_onMonth z h u) (hpos w t)
    (hpos z u)

/-! ## The search -/

/-- A search ends at the first date that fails its test. -/
theorem moveWhile_eq {test : ScaDate → Bool} {z k : Int} {basis : Nat} (n : Nat) (t : Int)
    (hstop : test (.onMonth z basis (t + n * k)) = false) :
    ∃ i : Nat, test (.onMonth z basis (t + i * k)) = false ∧
      (i = 0 ∨ test (.onMonth z basis (t + i * k - k)) = true) ∧
      ∀ fuel, n < fuel →
        moveWhile test k fuel (.onMonth z basis t) = some (.onMonth z basis (t + i * k)) := by
  induction n generalizing t with
  | zero =>
      refine ⟨0, hstop, .inl rfl, fun fuel hfuel => ?_⟩
      obtain ⟨fuel, rfl⟩ : ∃ f, fuel = f + 1 := ⟨fuel - 1, by omega⟩
      rw [Nat.cast_zero, zero_mul, add_zero] at hstop ⊢
      rw [moveWhile, hstop]
      rfl
  | succ n ih =>
      by_cases hhere : test (.onMonth z basis t) = true
      · rw [Nat.cast_succ, add_mul, one_mul, add_comm _ k, ← add_assoc] at hstop
        obtain ⟨i, hi, hprev, hrun⟩ := ih (t + k) hstop
        have hnext : t + ((i + 1 : Nat) : Int) * k = t + k + i * k := by
          rw [Nat.cast_succ, add_mul, one_mul]
          omega
        refine ⟨i + 1, ?_, .inr ?_, fun fuel hfuel => ?_⟩
        · rwa [hnext]
        · rw [hnext]
          rcases hprev with rfl | hprev
          · rwa [Nat.cast_zero, zero_mul, add_zero, add_sub_cancel_right]
          · exact hprev
        · obtain ⟨fuel, rfl⟩ : ∃ f, fuel = f + 1 := ⟨fuel - 1, by omega⟩
          rw [moveWhile, if_pos hhere, ScaDate.addMonths_onMonth, hrun fuel (by omega), hnext]
      · rw [Bool.not_eq_true] at hhere
        refine ⟨0, ?_, .inl rfl, fun fuel hfuel => ?_⟩
        · rwa [Nat.cast_zero, zero_mul, add_zero]
        · obtain ⟨fuel, rfl⟩ : ∃ f, fuel = f + 1 := ⟨fuel - 1, by omega⟩
          rw [Nat.cast_zero, zero_mul, add_zero, moveWhile, hhere]
          rfl

/-- The months of a period. -/
theorem exists_period {freq : Nat} (h : freq = 1 ∨ freq = 2 ∨ freq = 4) :
    ∃ p : Int, 12 / (freq : Int) = p ∧ Int.tdiv 12 freq = p ∧ Int.tdiv (-12) freq = -p ∧
      freq * p = 12 ∧ 3 ≤ p := by
  rcases h with rfl | rfl | rfl
  · exact ⟨12, rfl, rfl, rfl, rfl, by decide⟩
  · exact ⟨6, rfl, rfl, rfl, rfl, by decide⟩
  · exact ⟨3, rfl, rfl, rfl, rfl, by decide⟩

section
variable {settle mat : Int} {freq basis : Nat} {p : Int}

/-- The maturity in the settlement's year. -/
theorem start_eq (settle mat : Int) (basis : Nat) :
    (ScaDate.new mat basis).setYear (ScaDate.new settle basis).year =
      .onMonth mat basis (monthOf settle / 12 * 12 + monthOf mat % 12) := by
  rw [ScaDate.new_eq settle, ScaDate.onMonth_year, ScaDate.new_eq mat, ScaDate.setYear_onMonth]

theorem new_lt_of_lt {t : Int} (h : monthOf settle < t) :
    (ScaDate.new settle basis).lt (.onMonth mat basis t) = true := by
  rw [ScaDate.new_eq]
  exact ScaDate.lt_onMonth_of_lt h

theorem not_new_lt_of_gt {t : Int} (h : t < monthOf settle) :
    (ScaDate.new settle basis).lt (.onMonth mat basis t) = false := by
  rw [ScaDate.new_eq]
  exact ScaDate.lt_onMonth_of_gt h

theorem not_new_lt_iff {t : Int} :
    (ScaDate.new settle basis).lt (.onMonth mat basis t) = false ↔ movedTo mat t ≤ settle := by
  rw [← Bool.not_eq_true, ScaDate.new_lt_onMonth_iff, not_lt]

theorem pcd_eq (hback : Int.tdiv (-12) freq = -p) (hfreq : freq * p = 12) (hp : 3 ≤ p) :
    ∃ j : Int, movedTo mat (monthOf mat + j * p) ≤ settle ∧
      settle < movedTo mat (monthOf mat + j * p + p) ∧
      ∀ fuel, 8 < fuel →
        pcd fuel settle mat freq basis = some (.onMonth mat basis (monthOf mat + j * p)) := by
  obtain ⟨t₀, ht₀⟩ : ∃ t, t = monthOf settle / 12 * 12 + monthOf mat % 12 := ⟨_, rfl⟩
  obtain ⟨s, hs⟩ : ∃ s, s = ScaDate.new settle basis := ⟨_, rfl⟩
  -- The search from a start in the settlement's year, or in the next.
  have hsearch : ∀ c start : Int, start = monthOf mat + 12 * c → start ≤ t₀ + 12 →
      (s.lt (.onMonth mat basis start) = false → settle < movedTo mat (start + p)) →
      ∃ j : Int, movedTo mat (monthOf mat + j * p) ≤ settle ∧
        settle < movedTo mat (monthOf mat + j * p + p) ∧
        ∀ fuel, 8 < fuel → moveWhile (fun d => s.lt d) (-p) fuel (.onMonth mat basis start) =
          some (.onMonth mat basis (monthOf mat + j * p)) := by
    intro c start hstart hle hfirst
    have hstop : s.lt (.onMonth mat basis (start + (8 : Nat) * -p)) = false := by
      rw [hs]
      exact not_new_lt_of_gt (by omega)
    obtain ⟨i, hi, hprev, hrun⟩ := @moveWhile_eq (fun d => s.lt d) mat (-p) basis 8 start hstop
    have hj : start + i * -p = monthOf mat + (c * freq - i) * p := by
      calc
        start + i * -p = monthOf mat + c * 12 - i * p := by
          rw [hstart, Int.mul_neg]
          omega
        _ = monthOf mat + (c * freq - i) * p := by
          rw [← hfreq, sub_mul, mul_assoc]
          omega
    rw [hj] at hi hprev
    refine ⟨c * freq - i, ?_, ?_, fun fuel hfuel => by rw [hrun fuel hfuel, hj]⟩
    · rw [hs] at hi
      exact not_new_lt_iff.mp hi
    · rcases hprev with rfl | hprev
      · rw [← hj] at hi ⊢
        rw [Nat.cast_zero, zero_mul, add_zero] at hi ⊢
        exact hfirst hi
      · rw [sub_neg_eq_add, hs] at hprev
        exact (ScaDate.new_lt_onMonth_iff settle mat basis _).mp hprev
  unfold pcd
  simp only
  rw [start_eq, ← ht₀, ← hs, hback]
  by_cases hlt : (ScaDate.onMonth mat basis t₀).lt s = true
  · rw [if_pos hlt, ScaDate.onMonth_year, ScaDate.setYear_onMonth]
    refine hsearch (monthOf settle / 12 + 1 - monthOf mat / 12) _ (by omega) (by omega) fun h => ?_
    rw [hs, new_lt_of_lt (by omega)] at h
    cases h
  · rw [if_neg hlt]
    refine hsearch (monthOf settle / 12 - monthOf mat / 12) _ (by omega) (by omega) fun h => ?_
    -- neither is before the other: they are in one month
    have hsame : ¬ t₀ < monthOf settle := by
      intro hbefore
      rw [hs, ScaDate.new_eq] at hlt
      exact hlt (ScaDate.lt_onMonth_of_lt hbefore)
    rw [lt_iff_of_month, (monthOf_movedTo mat _).1]
    omega

theorem ncd_eq (hforward : Int.tdiv 12 freq = p) (hfreq : freq * p = 12) (hp : 3 ≤ p) :
    ∃ j : Int, movedTo mat (monthOf mat + j * p - p) ≤ settle ∧
      settle < movedTo mat (monthOf mat + j * p) ∧
      ∀ fuel, 8 < fuel →
        ncd fuel settle mat freq basis = some (.onMonth mat basis (monthOf mat + j * p)) := by
  obtain ⟨t₀, ht₀⟩ : ∃ t, t = monthOf settle / 12 * 12 + monthOf mat % 12 := ⟨_, rfl⟩
  obtain ⟨s, hs⟩ : ∃ s, s = ScaDate.new settle basis := ⟨_, rfl⟩
  -- The search from a start in the settlement's year, or in the one before, that
  -- is not after the settlement.
  have hsearch : ∀ c start : Int, start = monthOf mat + 12 * c → t₀ - 12 ≤ start →
      s.lt (.onMonth mat basis start) = false →
      ∃ j : Int, movedTo mat (monthOf mat + j * p - p) ≤ settle ∧
        settle < movedTo mat (monthOf mat + j * p) ∧
        ∀ fuel, 8 < fuel → moveWhile (fun d => !s.lt d) p fuel (.onMonth mat basis start) =
          some (.onMonth mat basis (monthOf mat + j * p)) := by
    intro c start hstart hle hfirst
    have hstop : (!s.lt (.onMonth mat basis (start + (8 : Nat) * p))) = false := by
      rw [hs, new_lt_of_lt (by omega)]
      rfl
    obtain ⟨i, hi, hprev, hrun⟩ := @moveWhile_eq (fun d => !s.lt d) mat p basis 8 start hstop
    have hj : start + i * p = monthOf mat + (c * freq + i) * p := by
      calc
        start + i * p = monthOf mat + c * 12 + i * p := by
          rw [hstart]
          omega
        _ = monthOf mat + (c * freq + i) * p := by
          rw [← hfreq, add_mul, mul_assoc]
          omega
    rw [hj] at hi hprev
    refine ⟨c * freq + i, ?_, ?_, fun fuel hfuel => by rw [hrun fuel hfuel, hj]⟩
    · rcases hprev with rfl | hprev
      · rw [← hj, Nat.cast_zero, zero_mul, add_zero, hfirst] at hi
        cases hi
      · rw [Bool.not_eq_true', hs] at hprev
        exact not_new_lt_iff.mp hprev
    · rw [Bool.not_eq_false', hs] at hi
      exact (ScaDate.new_lt_onMonth_iff settle mat basis _).mp hi
  unfold ncd
  simp only
  rw [start_eq, ← ht₀, ← hs, hforward]
  by_cases hlt : s.lt (.onMonth mat basis t₀) = true
  · rw [if_pos hlt, ScaDate.onMonth_year, ScaDate.setYear_onMonth]
    refine hsearch (monthOf settle / 12 - 1 - monthOf mat / 12) _ (by omega) (by omega) ?_
    rw [hs]
    exact not_new_lt_of_gt (by omega)
  · rw [if_neg hlt]
    exact hsearch (monthOf settle / 12 - monthOf mat / 12) _ (by omega) (by omega)
      (Bool.not_eq_true _ ▸ hlt)

end

/-! ## The schedule -/

/-- Dates of a schedule counted back from its end. -/
theorem ncard_due {f : Int → Int} (hf : StrictMono f) {j s : Int} (hj : j ≤ 0)
    (hbefore : f j ≤ s) (hafter : s < f (j + 1)) :
    (({d | (∃ i, d = f i) ∧ s < d ∧ d ≤ f 0}.ncard : Nat) : Int) = -j := by
  obtain ⟨n, rfl⟩ : ∃ n : Nat, j = -n := ⟨j.natAbs, by omega⟩
  have hset : {d | (∃ i, d = f i) ∧ s < d ∧ d ≤ f 0} =
      ((Finset.range n).image fun i : Nat => f (-i) : Finset Int) := by
    ext d
    rw [Finset.coe_image, Set.mem_image]
    constructor
    · rintro ⟨⟨i, rfl⟩, hlow, hhigh⟩
      have hi : i ≤ 0 := hf.le_iff_le.mp hhigh
      have hlt : -(n : Int) < i := hf.lt_iff_lt.mp (lt_of_le_of_lt hbefore hlow)
      refine ⟨i.natAbs, ?_, ?_⟩
      · rw [Finset.mem_coe, Finset.mem_range]
        omega
      · show f (-(i.natAbs : Int)) = f i
        rw [show -(i.natAbs : Int) = i by omega]
    · rintro ⟨i, hi, rfl⟩
      rw [Finset.mem_coe, Finset.mem_range] at hi
      refine ⟨⟨_, rfl⟩, ?_, ?_⟩
      · exact lt_of_lt_of_le hafter (hf.le_iff_le.mpr (by omega))
      · exact hf.le_iff_le.mpr (by omega)
  have hinj : Function.Injective fun i : Nat => f (-i) := by
    intro i i' h
    have heq := hf.injective h
    omega
  rw [hset, Set.ncard_coe_finset, Finset.card_image_of_injective _ hinj, Finset.card_range, neg_neg]

/-- The coupon schedule brackets a settlement. -/
theorem coupons_bracket (settle mat : Int) (hsettle : settle < mat) (freq basis : Nat)
    (hfreq : freq = 1 ∨ freq = 2 ∨ freq = 4) :
    (∃ (p n : ScaDate) (j : Int),
      (∀ fuel, 8 < fuel → pcd fuel settle mat freq basis = some p ∧
        ncd fuel settle mat freq basis = some n ∧
        coupnum fuel settle mat freq basis =
          some (({d | (∃ i, d = couponDate mat freq i) ∧ settle < d ∧ d ≤ mat}.ncard : Nat) :
            Int)) ∧
      p.date = couponDate mat freq j ∧ n.date = couponDate mat freq (j + 1) ∧
      p.date ≤ settle ∧ settle < n.date ∧
      (basis ≠ 0 ∧ basis ≠ 4 → p.diff n = n.date - p.date ∧
        ∀ fuel, 8 < fuel → ∃ before after, coupdaybs fuel settle mat freq basis = some before ∧
          coupdaysnc fuel settle mat freq basis = some after ∧ before + after = p.diff n ∧
          (basis = 1 → coupdays fuel settle mat freq basis = some (before + after)))) ∧
    (basis ≠ 0 ∧ basis ≠ 4 →
      ∀ a b, Built basis a → Built basis b → a.diff b = |b.date - a.date|) := by
  obtain ⟨k, hk, hforward, hback, hmul, hthree⟩ := exists_period hfreq
  obtain ⟨j, hjle, hjlt, hpcd⟩ := @pcd_eq settle mat freq basis k hback hmul hthree
  obtain ⟨i, hile, hilt, hncd⟩ := @ncd_eq settle mat freq basis k hforward hmul hthree
  have hdate : ∀ l, movedTo mat (monthOf mat + l * k) = couponDate mat freq l := by
    intro l
    rw [couponDate, movedBy_eq, hk]
  have hmono : StrictMono (couponDate mat freq) := couponDate_strictMono mat (by omega)
  -- the date found after the settlement is the next one of the schedule
  have hnext : i = j + 1 := by
    rw [show monthOf mat + i * k - k = monthOf mat + (i - 1) * k by rw [sub_mul]; omega] at hile
    rw [show monthOf mat + j * k + k = monthOf mat + (j + 1) * k by rw [add_mul]; omega] at hjlt
    rw [hdate] at hjle hjlt hile hilt
    have hlow := hmono.lt_iff_lt.mp (lt_of_le_of_lt hjle hilt)
    have hhigh := hmono.lt_iff_lt.mp (lt_of_le_of_lt hile hjlt)
    omega
  subst hnext
  refine ⟨⟨.onMonth mat basis (monthOf mat + j * k), .onMonth mat basis (monthOf mat + (j + 1) * k),
    j, ?_, ?_, ?_, ?_, ?_, ?_⟩, fun hactual a b => diff_built hactual⟩
  · intro fuel hfuel
    have hzero : j ≤ 0 := by
      rw [hdate] at hjle
      rw [← couponDate_zero mat freq] at hsettle
      exact (hmono.lt_iff_lt.mp (lt_of_le_of_lt hjle hsettle)).le
    have hafter : settle < couponDate mat freq (j + 1) := by rwa [hdate] at hilt
    have hdue := ncard_due hmono hzero (hdate j ▸ hjle) hafter
    rw [couponDate_zero] at hdue
    refine ⟨hpcd fuel hfuel, hncd fuel hfuel, ?_⟩
    unfold coupnum
    rw [hpcd fuel hfuel, hdue]
    show some _ = some (-j)
    rw [ScaDate.new_eq, ScaDate.onMonth_year, ScaDate.onMonth_year, ScaDate.onMonth_month,
      ScaDate.onMonth_month]
    have hmonths : (monthOf mat / 12 - (monthOf mat + j * k) / 12) * 12 +
        (((monthOf mat % 12).toNat + 1 : Nat) : Int) -
        ((((monthOf mat + j * k) % 12).toNat + 1 : Nat) : Int) = -j * k := by
      rw [neg_mul]
      omega
    rw [hmonths, mul_assoc, mul_comm k, hmul, Int.mul_tdiv_cancel _ (by decide)]
  · rw [ScaDate.date_onMonth, hdate]
  · rw [ScaDate.date_onMonth, hdate]
  · rw [ScaDate.date_onMonth]
    exact hjle
  · rw [ScaDate.date_onMonth]
    exact hilt
  · intro hactual
    have hbuilt : ∀ t, Built basis (.onMonth mat basis t) := by
      intro t
      have h := (@Built.new basis mat).addMonths (t - monthOf mat)
      rw [ScaDate.new_eq, ScaDate.addMonths_onMonth, add_sub_cancel] at h
      exact h
    have hsettled : (ScaDate.new settle basis).date = settle := by
      rw [ScaDate.new_eq, ScaDate.date_onMonth, movedTo_self]
    have hwhole := diff_built hactual (hbuilt (monthOf mat + j * k))
      (hbuilt (monthOf mat + (j + 1) * k))
    have hbefore := diff_built hactual (hbuilt (monthOf mat + j * k)) (.new settle)
    have hafter := diff_built hactual (.new settle) (hbuilt (monthOf mat + (j + 1) * k))
    rw [ScaDate.date_onMonth, ScaDate.date_onMonth, abs_of_nonneg (by omega)] at hwhole
    rw [hsettled, ScaDate.date_onMonth, abs_of_nonneg (by omega)] at hbefore hafter
    have hsum : (ScaDate.onMonth mat basis (monthOf mat + j * k)).diff (.new settle basis) +
        (ScaDate.new settle basis).diff (.onMonth mat basis (monthOf mat + (j + 1) * k)) =
          (ScaDate.onMonth mat basis (monthOf mat + j * k)).diff
            (.onMonth mat basis (monthOf mat + (j + 1) * k)) := by
      rw [hwhole, hbefore, hafter]
      omega
    rw [ScaDate.date_onMonth, ScaDate.date_onMonth]
    refine ⟨hwhole, fun fuel hfuel => ?_⟩
    have hbs : coupdaybs fuel settle mat freq basis =
        some ((ScaDate.onMonth mat basis (monthOf mat + j * k)).diff (.new settle basis) : ℚ) := by
      unfold coupdaybs
      rw [hpcd fuel hfuel]
      rfl
    have hnc : coupdaysnc fuel settle mat freq basis =
        some ((ScaDate.new settle basis).diff
          (.onMonth mat basis (monthOf mat + (j + 1) * k)) : ℚ) := by
      unfold coupdaysnc
      rw [if_pos hactual, hncd fuel hfuel]
      rfl
    refine ⟨_, _, hbs, hnc, ?_, ?_⟩
    · exact_mod_cast hsum
    · intro hone
      have hnext : monthOf mat + j * k + k = monthOf mat + (j + 1) * k := by
        rw [add_mul, one_mul, add_assoc]
      subst hone
      unfold coupdays
      simp only
      rw [hpcd fuel hfuel, hforward]
      show some (ScaDate.diff _ (ScaDate.addMonths _ k) : ℚ) = _
      rw [ScaDate.addMonths_onMonth, hnext, ← hsum, Int.cast_add]

/-- A bond that matures on the last day of a leap year's February, settled in a
common year's. -/
theorem coupons_bracket_february :
    ∃ (p n : ScaDate) (j : Int),
      (∀ fuel, 8 < fuel → pcd fuel (days 2023 2 28) (days 2024 2 29) 2 1 = some p ∧
        ncd fuel (days 2023 2 28) (days 2024 2 29) 2 1 = some n) ∧
      p.date = couponDate (days 2024 2 29) 2 j ∧ n.date = couponDate (days 2024 2 29) 2 (j + 1) :=
  have ⟨⟨p, n, j, hrun, hp, hn, _⟩, _⟩ :=
    coupons_bracket (days 2023 2 28) (days 2024 2 29) (by decide) 2 1 (.inr (.inl rfl))
  ⟨p, n, j, fun fuel hfuel => ⟨(hrun fuel hfuel).1, (hrun fuel hfuel).2.1⟩, hp, hn⟩

end Improv.Engine.Coupons
