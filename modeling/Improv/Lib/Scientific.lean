import Mathlib.Algebra.Order.Field.Basic
import Mathlib.Algebra.Order.Field.Power
import Mathlib.Data.Rat.Cast.Order
import Mathlib.Tactic.FieldSimp
import Mathlib.Tactic.Positivity
import Improv.Lib.Rounding
/-!
# Scientific notation

A positive quotient to some significant digits: the power of ten of its first
digit, and the digits, rounded to the nearest with ties to even.  A carry out
of the first digit moves the exponent.
-/

namespace Improv.Lib.Scientific

open F64 (evenQuotient)

/-- The power of ten of the first digit of `num / den`. -/
def exponent10 (num den : Nat) : Int :=
  if den ≤ num then Nat.log 10 (num / den) else -(Nat.clog 10 ((den + num - 1) / num) : Int)

/-- `num / den` times a power of ten, to the nearest whole number. -/
def scaled (num den : Nat) (k : Int) : Nat :=
  evenQuotient (num * 10 ^ k.toNat) (den * 10 ^ (-k).toNat)

/-- The first `p + 1` digits of `num / den` as one number, and their exponent. -/
def scientific (p num den : Nat) : Nat × Int :=
  if num = 0 then (0, 0)
  else
    let e := exponent10 num den
    let d := scaled num den (p - e)
    if d = 10 ^ (p + 1) then (10 ^ p, e + 1) else (d, e)

/-! ## The exponent -/

theorem exponent10_spec {num den : Nat} (hnum : 0 < num) (hden : 0 < den) :
    (10 : ℚ) ^ exponent10 num den ≤ num / den ∧
      (num / den : ℚ) < 10 ^ (exponent10 num den + 1) := by
  have hnumq : (0 : ℚ) < num := by exact_mod_cast hnum
  have hdenq : (0 : ℚ) < den := by exact_mod_cast hden
  unfold exponent10
  by_cases hle : den ≤ num
  · rw [if_pos hle]
    have hq : num / den ≠ 0 := (Nat.div_pos hle hden).ne'
    have hlow := Nat.pow_log_le_self 10 hq
    have hhigh := Nat.lt_pow_succ_log_self (b := 10) (by norm_num) (num / den)
    generalize Nat.log 10 (num / den) = e at hlow hhigh ⊢
    constructor
    · rw [zpow_natCast, le_div_iff₀ hdenq]
      exact_mod_cast (Nat.le_div_iff_mul_le hden).mp hlow
    · rw [show (e : Int) + 1 = ((e + 1 : Nat) : Int) by push_cast; rfl, zpow_natCast,
        div_lt_iff₀ hdenq]
      exact_mod_cast (Nat.div_lt_iff_lt_mul hden).mp hhigh
  · rw [if_neg hle]
    obtain ⟨c, hc⟩ : ∃ c, c = (den + num - 1) / num := ⟨_, rfl⟩
    have hceil : den ≤ c * num ∧ c * num < den + num := by
      have hdiv := Nat.div_add_mod' (den + num - 1) num
      have hmod := Nat.mod_lt (den + num - 1) hnum
      rw [← hc] at hdiv
      omega
    have hlarge : 1 < c := by
      by_contra hsmall
      have hone : c * num ≤ 1 * num := Nat.mul_le_mul_right _ (by omega)
      omega
    rw [← hc]
    have hup := Nat.le_pow_clog (b := 10) (by norm_num) c
    have hdown := Nat.pow_pred_clog_lt_self (b := 10) (by norm_num) hlarge
    have hclog : 0 < Nat.clog 10 c := Nat.clog_pos (by norm_num) hlarge
    obtain ⟨k, hk⟩ : ∃ k, Nat.clog 10 c = k + 1 := ⟨Nat.clog 10 c - 1, by omega⟩
    rw [hk, Nat.pred_succ] at hdown
    rw [hk] at hup ⊢
    constructor
    · rw [zpow_neg, zpow_natCast, inv_eq_one_div, div_le_div_iff₀ (by positivity) hdenq, one_mul]
      have hle : den ≤ num * 10 ^ (k + 1) := by
        calc den ≤ c * num := hceil.1
          _ ≤ 10 ^ (k + 1) * num := Nat.mul_le_mul_right _ hup
          _ = num * 10 ^ (k + 1) := Nat.mul_comm _ _
      exact_mod_cast hle
    · rw [show -((k + 1 : Nat) : Int) + 1 = -(k : Int) by push_cast; ring, zpow_neg, zpow_natCast,
        inv_eq_one_div, div_lt_div_iff₀ hdenq (by positivity), one_mul]
      have hlt : num * 10 ^ k < den := by
        have hstep : (10 ^ k + 1) * num ≤ c * num := Nat.mul_le_mul_right _ hdown
        rw [Nat.add_mul, one_mul] at hstep
        rw [Nat.mul_comm]
        omega
      exact_mod_cast hlt

/-! ## The digits -/

theorem evenQuotient_le_of_le {n s k : Nat} (hs : 0 < s) (h : n ≤ k * s) :
    evenQuotient n s ≤ k := by
  have hsplit := Nat.div_add_mod' n s
  have hmod := Nat.mod_lt n hs
  unfold evenQuotient
  split
  · next hup =>
      by_contra hgt
      have hge : k * s ≤ n / s * s := Nat.mul_le_mul_right _ (by omega)
      omega
  · exact Nat.div_le_of_le_mul (by rw [Nat.mul_comm]; exact h)

theorem le_evenQuotient_of_le {n s k : Nat} (hs : 0 < s) (h : k * s ≤ n) :
    k ≤ evenQuotient n s := by
  have hle := (Nat.le_div_iff_mul_le hs).mpr h
  unfold evenQuotient
  split <;> omega

/-- Rounding moves a quotient by at most a half. -/
theorem evenQuotient_error {n s : Nat} (hs : 0 < s) :
    |(n : ℚ) / s - evenQuotient n s| ≤ 1 / 2 := by
  have hsq : (0 : ℚ) < s := by exact_mod_cast hs
  have hsplit : (n : ℚ) = (n / s : Nat) * s + (n % s : Nat) := by
    exact_mod_cast (Nat.div_add_mod' n s).symm
  have hquot : (n : ℚ) / s = (n / s : Nat) + (n % s : Nat) / s := by
    rw [hsplit, add_div, mul_div_cancel_right₀ _ hsq.ne']
  have hmod : ((n % s : Nat) : ℚ) / s < 1 := by
    rw [div_lt_one hsq]
    exact_mod_cast Nat.mod_lt n hs
  have hzero : 0 ≤ ((n % s : Nat) : ℚ) / s := by positivity
  rw [hquot, abs_le]
  unfold evenQuotient
  split
  · next hup =>
      have hhalf : 1 / 2 ≤ ((n % s : Nat) : ℚ) / s := by
        rw [div_le_div_iff₀ (by norm_num) hsq, one_mul]
        have hnat : s ≤ n % s * 2 := by omega
        exact_mod_cast hnat
      rw [Nat.cast_succ]
      constructor <;> linarith
  · next hup =>
      have hhalf : ((n % s : Nat) : ℚ) / s ≤ 1 / 2 := by
        rw [div_le_div_iff₀ hsq (by norm_num), one_mul]
        have hnat : n % s * 2 ≤ s := by omega
        exact_mod_cast hnat
      constructor <;> linarith

/-- The quotient a scaled number rounds. -/
theorem scaled_quotient (num den : Nat) (k : Int) :
    ((num * 10 ^ k.toNat : Nat) : ℚ) / (den * 10 ^ (-k).toNat : Nat) = num / den * 10 ^ k := by
  push_cast
  rw [mul_div_mul_comm]
  congr 1
  rw [← zpow_natCast, ← zpow_natCast, ← zpow_sub₀ (by norm_num)]
  congr 1
  omega

/-- Some digits are a number to the nearest, and as many as asked for. -/
structure Rounds (p : Nat) (q : ℚ) (d : Nat) (e : Int) : Prop where
  low : 10 ^ p ≤ d
  high : d < 10 ^ (p + 1)
  error : |q - d * 10 ^ (e - p)| ≤ 10 ^ (e - p) / 2

theorem scaled_bounds {num den : Nat} (p : Nat) (hnum : 0 < num) (hden : 0 < den) :
    10 ^ p ≤ scaled num den (p - exponent10 num den) ∧
      scaled num den (p - exponent10 num den) ≤ 10 ^ (p + 1) := by
  obtain ⟨hlow, hhigh⟩ := exponent10_spec hnum hden
  generalize exponent10 num den = e at hlow hhigh ⊢
  have hs : 0 < den * 10 ^ (-((p : Int) - e)).toNat := Nat.mul_pos hden (by positivity)
  have hsq : (0 : ℚ) < (den * 10 ^ (-((p : Int) - e)).toNat : Nat) := by exact_mod_cast hs
  have hquot := scaled_quotient num den (p - e)
  have hten : (0 : ℚ) < 10 ^ ((p : Int) - e) := by positivity
  constructor
  · apply le_evenQuotient_of_le hs
    have hle : ((10 ^ p : Nat) : ℚ) ≤ num / den * 10 ^ ((p : Int) - e) := by
      calc ((10 ^ p : Nat) : ℚ) = 10 ^ e * 10 ^ ((p : Int) - e) := by
            rw [← zpow_add₀ (by norm_num), add_sub_cancel, zpow_natCast]
            push_cast
            rfl
        _ ≤ num / den * 10 ^ ((p : Int) - e) := mul_le_mul_of_nonneg_right hlow hten.le
    rw [← hquot, le_div_iff₀ hsq] at hle
    exact_mod_cast hle
  · apply evenQuotient_le_of_le hs
    have hle : num / den * 10 ^ ((p : Int) - e) ≤ ((10 ^ (p + 1) : Nat) : ℚ) := by
      calc (num / den : ℚ) * 10 ^ ((p : Int) - e) ≤ 10 ^ (e + 1) * 10 ^ ((p : Int) - e) :=
            mul_le_mul_of_nonneg_right hhigh.le hten.le
        _ = ((10 ^ (p + 1) : Nat) : ℚ) := by
          rw [← zpow_add₀ (by norm_num), show e + 1 + (p - e) = ((p + 1 : Nat) : Int) by
            push_cast; ring, zpow_natCast]
          push_cast
          rfl
    rw [← hquot, div_le_iff₀ hsq] at hle
    exact_mod_cast hle

/-- The digits are the number correctly rounded. -/
theorem scientific_rounds {num den : Nat} (p : Nat) (hnum : 0 < num) (hden : 0 < den) :
    Rounds p (num / den) (scientific p num den).1 (scientific p num den).2 := by
  obtain ⟨hlow, hhigh⟩ := scaled_bounds p hnum hden
  have hs : 0 < den * 10 ^ (-((p : Int) - exponent10 num den)).toNat :=
    Nat.mul_pos hden (by positivity)
  have herror := evenQuotient_error (n := num * 10 ^ ((p : Int) - exponent10 num den).toNat) hs
  rw [scaled_quotient] at herror
  change |(num / den * 10 ^ ((p : Int) - exponent10 num den) : ℚ) -
    scaled num den (p - exponent10 num den)| ≤ _ at herror
  unfold scientific
  rw [if_neg hnum.ne']
  generalize exponent10 num den = e at hlow hhigh herror ⊢
  dsimp only
  generalize scaled num den (p - e) = d at hlow hhigh herror ⊢
  have hten : (0 : ℚ) < 10 ^ (e - p) := by positivity
  have hcancel : (10 : ℚ) ^ ((p : Int) - e) * 10 ^ (e - p) = 1 := by
    rw [← zpow_add₀ (by norm_num), show (p : Int) - e + (e - p) = 0 by ring, zpow_zero]
  have hmoved : |(num / den : ℚ) - d * 10 ^ (e - p)| ≤ 10 ^ (e - p) / 2 := by
    have hfactor : (num / den : ℚ) - d * 10 ^ (e - p) =
        (num / den * 10 ^ ((p : Int) - e) - d) * 10 ^ (e - p) := by
      rw [sub_mul, mul_assoc, hcancel, mul_one]
    rw [hfactor, abs_mul, abs_of_pos hten]
    calc |(num / den * 10 ^ ((p : Int) - e) - d : ℚ)| * 10 ^ (e - p) ≤ 1 / 2 * 10 ^ (e - p) :=
          mul_le_mul_of_nonneg_right herror hten.le
      _ = 10 ^ (e - p) / 2 := by ring
  split
  · next hcarry =>
      have hstep : (10 : ℚ) ^ (e + 1 - p) = 10 ^ (e - p) * 10 := by
        rw [← zpow_add_one₀ (by norm_num)]
        congr 1
        ring
      have hsame : ((10 ^ p : Nat) : ℚ) * 10 ^ (e + 1 - p) = d * 10 ^ (e - p) := by
        rw [hcarry, hstep]
        push_cast
        ring
      refine ⟨le_refl _, Nat.pow_lt_pow_right (by norm_num) (Nat.lt_succ_self p), ?_⟩
      rw [hsame, hstep]
      linarith
  · next hfits => exact ⟨hlow, lt_of_le_of_ne hhigh hfits, hmoved⟩

end Improv.Lib.Scientific
