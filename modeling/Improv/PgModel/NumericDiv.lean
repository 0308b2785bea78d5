import Mathlib.Algebra.Order.Field.Basic
import Mathlib.Data.Rat.Cast.Order
import Mathlib.Tactic.FieldSimp
import Mathlib.Tactic.Positivity
import Improv.Lib.DigitLists
import Improv.PgModel.FoldTally
/-!
# Dividing a decimal sum

The mean of a decimal column is Postgres's: the sum divided by the count digit
by digit, to the scale `select_div_scale` gives for the two numerics, and
rounded half away from zero.  Every number on the way fits an `i128`.
-/

namespace Improv.PgModel.NumericDiv

open Improv.Lib Improv.Lib.DigitLists Improv.Engine

/-! ## The digits -/

theorem divisionDigits_spec {d : Nat} (k : Nat) {rem : Nat} (h : rem < d) :
    (divisionDigits d k rem).1.length = k ∧ Digits (divisionDigits d k rem).1 ∧
      (divisionDigits d k rem).2 < d ∧
      rem * 10 ^ k = number (divisionDigits d k rem).1 * d + (divisionDigits d k rem).2 := by
  induction k generalizing rem with
  | zero => exact ⟨rfl, by simp [Digits, divisionDigits], h, by simp [divisionDigits]⟩
  | succ k ih =>
      have hpos : 0 < d := by omega
      have hmod : rem * 10 % d < d := Nat.mod_lt _ hpos
      have hdigit : rem * 10 / d < 10 := by
        rw [Nat.div_lt_iff_lt_mul hpos]
        omega
      obtain ⟨hlen, hdigits, hrest, hsum⟩ := ih hmod
      refine ⟨congrArg (· + 1) hlen, ?_, hrest, ?_⟩
      · intro x hx
        cases List.mem_cons.mp hx with
        | inl heq => rw [heq]; exact hdigit
        | inr hmem => exact hdigits x hmem
      · have hsplit := Nat.div_add_mod' (rem * 10) d
        change rem * 10 ^ (k + 1) =
          number (rem * 10 / d :: (divisionDigits d k (rem * 10 % d)).1) * d +
            (divisionDigits d k (rem * 10 % d)).2
        rw [number_cons, hlen, pow_succ]
        calc rem * (10 ^ k * 10) = (rem * 10) * 10 ^ k := by ring
          _ = (rem * 10 / d * d + rem * 10 % d) * 10 ^ k := by rw [hsplit]
          _ = rem * 10 / d * d * 10 ^ k + rem * 10 % d * 10 ^ k := by ring
          _ = _ := by
            rw [hsum]
            ring

/-- One added in the last place. -/
theorem roundUp_spec {ds : List Nat} (h : Digits ds) :
    (roundUp ds).1.length = ds.length ∧ Digits (roundUp ds).1 ∧
      number (roundUp ds).1 + (roundUp ds).2.toNat * 10 ^ ds.length = number ds + 1 := by
  induction ds with
  | nil => exact ⟨rfl, by simp [Digits, roundUp], rfl⟩
  | cons d ds ih =>
      obtain ⟨hlen, hdigits, hsum⟩ := ih h.of_cons
      have hd := h d List.mem_cons_self
      unfold roundUp
      generalize roundUp ds = up at hlen hdigits hsum ⊢
      obtain ⟨ys, carry⟩ := up
      cases carry with
      | false =>
          refine ⟨congrArg (· + 1) hlen, ?_, ?_⟩
          · intro x hx
            cases List.mem_cons.mp hx with
            | inl heq => rw [heq]; exact hd
            | inr hmem => exact hdigits x hmem
          · simp only [Bool.false_eq_true, if_false, number_cons, hlen, Bool.toNat_false] at hsum ⊢
            omega
      | true =>
          refine ⟨congrArg (· + 1) hlen, ?_, ?_⟩
          · intro x hx
            cases List.mem_cons.mp hx with
            | inl heq => rw [heq]; exact Nat.mod_lt _ (by norm_num)
            | inr hmem => exact hdigits x hmem
          · simp only [if_true, number_cons, hlen, Bool.toNat_true, List.length_cons,
              pow_succ] at hsum ⊢
            by_cases hnine : d = 9
            · simp only [hnine]
              simp
              omega
            · have hmod : (d + 1) % 10 = d + 1 := Nat.mod_eq_of_lt (by omega)
              rw [hmod, decide_eq_false (by omega), Bool.toNat_false]
              have hmul : (d + 1) * 10 ^ ds.length = d * 10 ^ ds.length + 10 ^ ds.length := by ring
              omega

/-! ## Rounding -/

/-- The scale of a quotient, of the numerics' first base-10000 digits, their
positions and their scales. -/
def selectDivScale (w1 : Int) (d1 : Nat) (w2 : Int) (d2 dscale1 dscale2 : Nat) : Nat :=
  let qweight := w1 - w2 - if d1 ≤ d2 then 1 else 0
  (min (max (max (16 - 4 * qweight) dscale1) dscale2) 1000).toNat

/-- The scale a sum of a display scale is divided to. -/
def resultScale (x : Int) (scale : Nat) (n : Int) : Nat :=
  let (w1, d1) := weight (x.natAbs / NANOS) (x.natAbs % NANOS)
  let (w2, d2) := weight n.toNat 0
  selectDivScale w1 d1 w2 d2 scale 0

/-- The decimals of a quotient rounded by its remainder, and whether one is
carried out of them. -/
def roundedDigits (d k a : Nat) : List Nat × Bool :=
  let out := divisionDigits d k (a % d)
  if 5 ≤ out.2 * 10 / d then roundUp out.1 else (out.1, false)

theorem roundedDigits_spec {d : Nat} (k a : Nat) (hd : 0 < d) :
    (roundedDigits d k a).1.length = k ∧ Digits (roundedDigits d k a).1 ∧
      (a / d + if (roundedDigits d k a).2 then 1 else 0) * 10 ^ k +
        number (roundedDigits d k a).1 = halfAway (a * 10 ^ k) d := by
  unfold roundedDigits
  obtain ⟨hlen, hdigits, hrest, hsum⟩ := divisionDigits_spec k (Nat.mod_lt a hd)
  generalize divisionDigits d k (a % d) = out at hlen hdigits hrest hsum ⊢
  obtain ⟨digits, rem⟩ := out
  have hnum : a * 10 ^ k = (a / d * 10 ^ k + number digits) * d + rem := by
    calc a * 10 ^ k = (a / d * d + a % d) * 10 ^ k := by rw [Nat.div_add_mod']
      _ = a / d * d * 10 ^ k + a % d * 10 ^ k := by ring
      _ = _ := by
        rw [hsum]
        ring
  have hup : 5 ≤ rem * 10 / d ↔ d ≤ 2 * rem := by
    rw [Nat.le_div_iff_mul_le hd]
    omega
  simp only
  rw [halfAway_eq hrest hnum]
  by_cases hhalf : d ≤ 2 * rem
  · rw [if_pos (hup.mpr hhalf), if_pos hhalf]
    obtain ⟨hlen', hdigits', hsum'⟩ := roundUp_spec hdigits
    rw [hlen] at hlen' hsum'
    refine ⟨hlen', hdigits', ?_⟩
    generalize roundUp digits = up at hsum' ⊢
    obtain ⟨ys, carry⟩ := up
    cases carry with
    | false =>
        simp only [Bool.false_eq_true, if_false, Bool.toNat_false, Nat.add_zero] at hsum' ⊢
        omega
    | true =>
        simp only [if_true, Bool.toNat_true] at hsum' ⊢
        rw [Nat.add_mul]
        omega
  · rw [if_neg (mt hup.mp hhalf), if_neg hhalf]
    exact ⟨hlen, hdigits, by simp⟩

/-- The quotient's text reads as the nearest float. -/
theorem parseF64_division (neg : Bool) (int : Nat) {digits : List Nat} (h : Digits digits) :
    let sign := if neg then "-" else ""
    let frac := String.ofList (digits.map Nat.digitChar)
    Decimal.parseF64 s!"{sign}{int}.{frac}0" =
      some (.ofRatio neg (int * 10 ^ digits.length + number digits) (10 ^ digits.length)) := by
  intro sign frac
  have htext : s!"{sign}{int}.{frac}0" = .ofList ((if neg then ['-'] else []) ++
      Nat.toDigits 10 int ++ '.' :: (digits ++ [0]).map Nat.digitChar) := by
    apply String.toList_injective
    have hsign : sign.toList = if neg then ['-'] else [] := by
      cases neg with
      | true => exact (show "-".toList = ['-'] by decide)
      | false => rfl
    have hfrac : frac.toList = digits.map Nat.digitChar := String.toList_ofList
    have hint : (toString int).toList = Nat.toDigits 10 int := Nat.toList_repr
    rw [String.toList_ofList, ← hsign, List.map_append, ← hfrac, ← hint]
    simp only [String.toList_append]
    rw [show (toString sign).toList = sign.toList from rfl,
      show (toString ".").toList = ['.'] by decide,
      show (toString frac).toList = frac.toList from rfl,
      show (toString "0").toList = [0].map Nat.digitChar by decide]
    simp only [List.append_assoc, List.cons_append, List.nil_append]
  have hdigits : Digits (digits ++ [0]) := h.append (digits_replicate (by norm_num) 1)
  have hlen : (digits ++ [0]).length = digits.length + 1 := by simp
  rw [htext, Decimal.parseF64_point Nat.toDigits_ne_nil
    (fun c hc => Decimal.isDigit_of_mem_toDigits hc) (isDigit_of_mem_map hdigits),
    Decimal.ofDigits_append, Decimal.ofDigits_toDigits, ofDigits_map_digitChar hdigits,
    List.length_map, hlen, number_append, pow_succ]
  have hnum : int * (10 ^ digits.length * 10) + (number digits * 10 ^ [0].length + number [0]) =
      (int * 10 ^ digits.length + number digits) * 10 := by
    simp
    ring
  rw [hnum]
  unfold F64.ofRatio
  rw [mul_right_comm, F64.roundUnits_mul_right (by norm_num)]

/-- The division gives the rounded quotient as the nearest float. -/
theorem numericDiv_eq (x : Int) (scale : Nat) {n : Int} (hn : 0 < n) :
    numericDiv x scale n = .ofRatio (x < 0)
      (halfAway (x.natAbs * 10 ^ resultScale x scale n) (NANOS * n.toNat))
      (10 ^ resultScale x scale n) := by
  have hd : 0 < NANOS * n.toNat := Nat.mul_pos (by decide) (by omega)
  have hscale : ∀ (w1 w2 : Int) (d1 d2 : Nat),
      (max 0 (min (max (16 - 4 * (w1 - w2 - if d1 ≤ d2 then 1 else 0)) scale) 1000)).toNat =
        selectDivScale w1 d1 w2 d2 scale 0 := by
    intro w1 w2 d1 d2
    unfold selectDivScale
    dsimp only
    omega
  obtain ⟨hlen, hdigits, hsum⟩ := roundedDigits_spec (resultScale x scale n) x.natAbs hd
  have hbody : numericDiv x scale n =
      let out := roundedDigits (NANOS * n.toNat) (resultScale x scale n) x.natAbs
      let int := x.natAbs / (NANOS * n.toNat) + if out.2 then 1 else 0
      let sign := if x < 0 then "-" else ""
      let frac := String.ofList (out.1.map Nat.digitChar)
      (Decimal.parseF64 s!"{sign}{int}.{frac}0").getD .nan := by
    unfold numericDiv
    simp only [hscale]
    rfl
  have hparse := parseF64_division (decide (x < 0))
    (x.natAbs / (NANOS * n.toNat) +
      if (roundedDigits (NANOS * n.toNat) (resultScale x scale n) x.natAbs).2 then 1 else 0) hdigits
  simp only [decide_eq_true_eq] at hparse
  rw [hbody]
  simp only
  rw [hparse, Option.getD_some, hlen, hsum]

/-! ## The scale -/

/-- A number's first base-10000 digit that is not zero, and its position: both
zero for zero. -/
def Leading (q : ℚ) (w : Int) (d : Nat) : Prop :=
  (q = 0 ∧ w = 0 ∧ d = 0) ∨
    (1 ≤ d ∧ d < 10000 ∧ d * (10000 : ℚ) ^ w ≤ q ∧ q < (d + 1) * (10000 : ℚ) ^ w)

/-- The first digit of a whole number. -/
theorem weight_int {int : Nat} (hint : 0 < int) {q : ℚ} (hlow : int ≤ q) (hhigh : q < int + 1)
    (frac9 : Nat) : Leading q (weight int frac9).1 (weight int frac9).2 := by
  obtain ⟨w, hw⟩ : ∃ w, w = Nat.log 10 int / 4 := ⟨_, rfl⟩
  have hweight : weight int frac9 = ((w : Int), int / 10000 ^ w) := by
    unfold weight
    rw [if_pos hint, hw]
  have hpow : 0 < 10000 ^ w := Nat.pow_pos (by norm_num)
  have hten : ∀ k : Nat, 10000 ^ k = 10 ^ (4 * k) := fun k => by
    rw [pow_mul]
    norm_num
  have hge : 10000 ^ w ≤ int := by
    calc 10000 ^ w = 10 ^ (4 * w) := hten w
      _ ≤ 10 ^ Nat.log 10 int := Nat.pow_le_pow_right (by norm_num) (by omega)
      _ ≤ int := Nat.pow_log_le_self 10 hint.ne'
  have hlt : int < 10000 ^ (w + 1) := by
    calc int < 10 ^ (Nat.log 10 int + 1) := Nat.lt_pow_succ_log_self (by norm_num) int
      _ ≤ 10 ^ (4 * (w + 1)) := Nat.pow_le_pow_right (by norm_num) (by omega)
      _ = 10000 ^ (w + 1) := (hten (w + 1)).symm
  rw [hweight]
  refine Or.inr ⟨Nat.div_pos hge hpow, ?_, ?_, ?_⟩
  · rw [Nat.div_lt_iff_lt_mul hpow, ← pow_succ']
    exact hlt
  · have hle : (int / 10000 ^ w * 10000 ^ w : Nat) ≤ int := Nat.div_mul_le_self _ _
    have hcast : ((int / 10000 ^ w : Nat) : ℚ) * 10000 ^ w ≤ int := by exact_mod_cast hle
    rw [zpow_natCast]
    exact hcast.trans hlow
  · have hle : int + 1 ≤ (int / 10000 ^ w + 1) * 10000 ^ w := Nat.lt_mul_of_div_lt (by omega) hpow
    have hcast : (int : ℚ) + 1 ≤ ((int / 10000 ^ w : Nat) + 1) * 10000 ^ w := by exact_mod_cast hle
    rw [zpow_natCast]
    exact hhigh.trans_le hcast

theorem leading_of_div {f b : Nat} {w : Int} (hpos : 0 < f / b) (hlt : f / b < 10000)
    (hw : (10000 : ℚ) ^ w = b / 10 ^ 12) : Leading (f / 10 ^ 12) w (f / b) := by
  have hb : 0 < b := by
    by_contra hzero
    rw [Nat.eq_zero_of_not_pos hzero, Nat.div_zero] at hpos
    exact absurd hpos (lt_irrefl 0)
  refine Or.inr ⟨hpos, hlt, ?_, ?_⟩
  · have hle : ((f / b : Nat) : ℚ) * b ≤ f := by exact_mod_cast Nat.div_mul_le_self f b
    rw [hw, ← mul_div_assoc]
    exact div_le_div_of_nonneg_right hle (by norm_num)
  · have hgt : (f : ℚ) < ((f / b : Nat) + 1) * b := by
      exact_mod_cast Nat.lt_mul_of_div_lt (Nat.lt_succ_self _) hb
    rw [hw, ← mul_div_assoc]
    exact div_lt_div_of_pos_right hgt (by norm_num)

/-- The first digit of what is below one, of its nanos. -/
theorem weight_frac {frac9 : Nat} (hfrac : frac9 < NANOS) :
    Leading (frac9 / NANOS) (weight 0 frac9).1 (weight 0 frac9).2 := by
  obtain ⟨f, hf⟩ : ∃ f, f = frac9 * 1000 := ⟨_, rfl⟩
  have hnanos : NANOS = 1000000000 := rfl
  have hq : (frac9 : ℚ) / NANOS = f / 10 ^ 12 := by
    rw [hf, hnanos]
    push_cast
    ring
  have hweight : weight 0 frac9 = if 0 < f / 100000000 then (-1, f / 100000000)
      else if 0 < f / 10000 % 10000 then (-2, f / 10000 % 10000)
      else if 0 < f % 10000 then (-3, f % 10000) else (0, 0) := by
    have hfind : ∀ x y z : Int × Nat, [x, y, z].find? (fun x => 0 < x.2) =
        if 0 < x.2 then some x else if 0 < y.2 then some y else if 0 < z.2 then some z
          else none := by
      intro x y z
      by_cases hx : 0 < x.2 <;> by_cases hy : 0 < y.2 <;> by_cases hz : 0 < z.2 <;>
        simp [List.find?, hx, hy, hz]
    unfold weight
    simp only [if_neg (lt_irrefl 0), ← hf]
    rw [hfind]
    split_ifs <;> rfl
  rw [hq, hweight]
  split_ifs with h1 h2 h3
  · exact leading_of_div h1 (by omega) (by norm_num)
  · have hdiv : f / 10000 % 10000 = f / 10000 := by omega
    rw [hdiv] at h2 ⊢
    exact leading_of_div h2 (by omega) (by norm_num)
  · have hdiv : f % 10000 = f / 1 := by omega
    rw [hdiv] at h3 ⊢
    exact leading_of_div h3 (by omega) (by norm_num)
  · have hzero : f = 0 := by omega
    exact Or.inl ⟨by rw [hzero]; norm_num, rfl, rfl⟩

/-- The first digit of a sum, of its nanos. -/
theorem leading_nanos (a : Nat) :
    Leading (a / NANOS) (weight (a / NANOS) (a % NANOS)).1 (weight (a / NANOS) (a % NANOS)).2 := by
  have hpos : 0 < NANOS := by decide
  have hposq : (0 : ℚ) < NANOS := by exact_mod_cast hpos
  have hsplit := Nat.div_add_mod' a NANOS
  have hmod := Nat.mod_lt a hpos
  by_cases hint : 0 < a / NANOS
  · apply weight_int hint
    · rw [le_div_iff₀ hposq]
      exact_mod_cast Nat.div_mul_le_self a NANOS
    · rw [div_lt_iff₀ hposq]
      exact_mod_cast Nat.lt_mul_of_div_lt (Nat.lt_succ_self _) hpos
  · have hzero : a / NANOS = 0 := Nat.eq_zero_of_not_pos hint
    have ha : a % NANOS = a := by
      rw [hzero, Nat.zero_mul, Nat.zero_add] at hsplit
      exact hsplit
    rw [hzero, ha]
    exact weight_frac (by omega)

theorem leading_count {n : Nat} (hn : 0 < n) : Leading n (weight n 0).1 (weight n 0).2 :=
  weight_int hn le_rfl (lt_add_one _) 0

/-- A number has one first digit. -/
theorem Leading.unique {q : ℚ} {w w' : Int} {d d' : Nat} (h : Leading q w d)
    (h' : Leading q w' d') : w = w' ∧ d = d' := by
  have hpow : ∀ w : Int, (0 : ℚ) < 10000 ^ w := fun w => zpow_pos (by norm_num) w
  have hpos : ∀ {w : Int} {d : Nat}, 1 ≤ d → d * (10000 : ℚ) ^ w ≤ q → q ≠ 0 := by
    intro w d hd hle hzero
    have hlt : (0 : ℚ) < d * 10000 ^ w := mul_pos (by exact_mod_cast hd) (hpow w)
    rw [hzero] at hle
    exact absurd hlt (not_lt.mpr hle)
  have hplace : ∀ {w w' : Int} {d d' : Nat}, 1 ≤ d → d * (10000 : ℚ) ^ w ≤ q → d' < 10000 →
      q < (d' + 1) * (10000 : ℚ) ^ w' → w ≤ w' := by
    intro w w' d d' hd hle hd' hlt
    have hone : (1 : ℚ) ≤ d := by exact_mod_cast hd
    have htop : (d' : ℚ) + 1 ≤ 10000 := by exact_mod_cast hd'
    have hstep : (10000 : ℚ) ^ w < 10000 ^ (w' + 1) := by
      calc (10000 : ℚ) ^ w = 1 * 10000 ^ w := (one_mul _).symm
        _ ≤ d * 10000 ^ w := mul_le_mul_of_nonneg_right hone (hpow w).le
        _ ≤ q := hle
        _ < (d' + 1) * 10000 ^ w' := hlt
        _ ≤ 10000 * 10000 ^ w' := mul_le_mul_of_nonneg_right htop (hpow w').le
        _ = 10000 ^ (w' + 1) := by
          rw [zpow_add_one₀ (by norm_num)]
          ring
    have hlt' := (zpow_lt_zpow_iff_right₀ (by norm_num)).mp hstep
    omega
  have hdigit : ∀ {w : Int} {d d' : Nat}, d * (10000 : ℚ) ^ w ≤ q →
      q < (d' + 1) * (10000 : ℚ) ^ w → d ≤ d' := by
    intro w d d' hle hlt
    have hmul := lt_of_mul_lt_mul_right (hle.trans_lt hlt) (hpow w).le
    have hnat : d < d' + 1 := by exact_mod_cast hmul
    omega
  cases h with
  | inl hzero =>
      cases h' with
      | inl hzero' => exact ⟨hzero.2.1.trans hzero'.2.1.symm, hzero.2.2.trans hzero'.2.2.symm⟩
      | inr hfirst => exact absurd hzero.1 (hpos hfirst.1 hfirst.2.2.1)
  | inr hfirst =>
      cases h' with
      | inl hzero => exact absurd hzero.1 (hpos hfirst.1 hfirst.2.2.1)
      | inr hfirst' =>
          obtain ⟨hd, hten, hle, hlt⟩ := hfirst
          obtain ⟨hd', hten', hle', hlt'⟩ := hfirst'
          have hw : w = w' := le_antisymm (hplace hd hle hten' hlt') (hplace hd' hle' hten hlt)
          rw [← hw] at hle' hlt'
          exact ⟨hw, le_antisymm (hdigit hle hlt') (hdigit hle' hlt)⟩

/-- A quotient of two numbers is at least the power their first digits give. -/
theorem le_div_of_leading {x y : ℚ} {w1 w2 : Int} {d1 d2 : Nat} (hx : Leading x w1 d1)
    (hy : Leading y w2 d2) (hx0 : x ≠ 0) (hy0 : y ≠ 0) :
    (10000 : ℚ) ^ (w1 - w2 - if d1 ≤ d2 then 1 else 0) ≤ x / y := by
  obtain ⟨hd1, -, hx, -⟩ := hx.resolve_left fun h => hx0 h.1
  obtain ⟨hd2pos, hd2, hylow, hy⟩ := hy.resolve_left fun h => hy0 h.1
  have hpow : ∀ w : Int, (0 : ℚ) < 10000 ^ w := fun w => zpow_pos (by norm_num) w
  have hy0 : 0 < y := by
    have hpos : (0 : ℚ) < d2 * 10000 ^ w2 := mul_pos (by exact_mod_cast hd2pos) (hpow w2)
    exact hpos.trans_le hylow
  obtain ⟨e, he⟩ : ∃ e : Int, e = w1 - w2 - if d1 ≤ d2 then 1 else 0 := ⟨_, rfl⟩
  have hlead : ((d2 : ℚ) + 1) * 10000 ^ (e + w2) ≤ d1 * 10000 ^ w1 := by
    by_cases hle : d1 ≤ d2
    · rw [if_pos hle] at he
      have hw : w1 = (e + w2) + 1 := by omega
      have hone : (1 : ℚ) ≤ d1 := by exact_mod_cast hd1
      have htop : (d2 : ℚ) + 1 ≤ 10000 := by exact_mod_cast hd2
      rw [hw, zpow_add_one₀ (by norm_num)]
      calc ((d2 : ℚ) + 1) * 10000 ^ (e + w2) ≤ 10000 * 10000 ^ (e + w2) :=
            mul_le_mul_of_nonneg_right htop (hpow _).le
        _ = 1 * (10000 ^ (e + w2) * 10000) := by ring
        _ ≤ d1 * (10000 ^ (e + w2) * 10000) :=
            mul_le_mul_of_nonneg_right hone (mul_pos (hpow _) (by norm_num)).le
    · rw [if_neg hle] at he
      have hw : w1 = e + w2 := by omega
      have hlt : (d2 : ℚ) + 1 ≤ d1 := by exact_mod_cast not_le.mp hle
      rw [hw]
      exact mul_le_mul_of_nonneg_right hlt (hpow _).le
  rw [← he, le_div_iff₀ hy0]
  calc (10000 : ℚ) ^ e * y ≤ 10000 ^ e * ((d2 + 1) * 10000 ^ w2) :=
        mul_le_mul_of_nonneg_left hy.le (hpow e).le
    _ = (d2 + 1) * 10000 ^ (e + w2) := by
        rw [zpow_add₀ (by norm_num)]
        ring
    _ ≤ d1 * 10000 ^ w1 := hlead
    _ ≤ x := hx

theorem neg_three_le_weight (int frac9 : Nat) : -3 ≤ (weight int frac9).1 := by
  unfold weight
  split
  · exact le_trans (by norm_num) (Int.natCast_nonneg _)
  · simp only [List.find?]
    split
    · norm_num
    · split
      · norm_num
      · split <;> norm_num

theorem weight_count_le {n : Nat} (hpos : 0 < n) (hn : n < 2 ^ 63) : (weight n 0).1 ≤ 4 := by
  have hlog : Nat.log 10 n < 19 := Nat.log_lt_of_lt_pow hpos.ne' (hn.trans (by norm_num))
  unfold weight
  rw [if_pos hpos]
  have hle : Nat.log 10 n / 4 ≤ 4 := by omega
  dsimp only
  exact_mod_cast hle

/-- The quotient to its scale has at least sixteen digits before the point. -/
theorem ten_pow_le_quotient {a : Nat} {n : Int} {x : Int} (ha : a = x.natAbs) (hx : x ≠ 0)
    (hn : 0 < n) (hn64 : n < 2 ^ 63) (scale : Nat) :
    10 ^ 16 * (NANOS * n.toNat) ≤ a * 10 ^ resultScale x scale n := by
  have hcount : 0 < n.toNat := by omega
  have hposq : (0 : ℚ) < NANOS := by exact_mod_cast (show 0 < NANOS by decide)
  have hapos : (a : ℚ) ≠ 0 := by
    rw [ha]
    exact_mod_cast Int.natAbs_ne_zero.mpr hx
  have hcountq : (0 : ℚ) < n.toNat := by exact_mod_cast hcount
  have hle := le_div_of_leading (leading_nanos a) (leading_count hcount)
    (div_ne_zero hapos hposq.ne') hcountq.ne'
  obtain ⟨k, hk⟩ : ∃ k, k = resultScale x scale n := ⟨_, rfl⟩
  rw [← hk]
  unfold resultScale at hk
  rw [← ha] at hk
  have hw1 := neg_three_le_weight (a / NANOS) (a % NANOS)
  have hw2 := weight_count_le hcount (show n.toNat < 2 ^ 63 by omega)
  generalize weight (a / NANOS) (a % NANOS) = first at hle hk hw1
  generalize weight n.toNat 0 = second at hle hk hw2
  obtain ⟨w1, d1⟩ := first
  obtain ⟨w2, d2⟩ := second
  simp only at hle hk hw1 hw2
  obtain ⟨e, he⟩ : ∃ e : Int, e = w1 - w2 - if d1 ≤ d2 then 1 else 0 := ⟨_, rfl⟩
  have hscale : 16 - 4 * e ≤ k := by
    unfold selectDivScale at hk
    dsimp only at hk
    rw [← he] at hk
    have hbound : -8 ≤ e := by
      rw [he]
      split <;> omega
    omega
  rw [← he] at hle
  have hquot : (10 : ℚ) ^ 16 ≤ a / NANOS / n.toNat * 10 ^ k := by
    calc (10 : ℚ) ^ 16 = 10 ^ (4 * e) * 10 ^ (16 - 4 * e) := by
          rw [← zpow_add₀ (by norm_num)]
          norm_num
      _ = 10000 ^ e * 10 ^ (16 - 4 * e) := by
          rw [zpow_mul]
          norm_num
      _ ≤ a / NANOS / n.toNat * 10 ^ (16 - 4 * e) :=
          mul_le_mul_of_nonneg_right hle (zpow_pos (by norm_num) _).le
      _ ≤ a / NANOS / n.toNat * 10 ^ (k : Int) := by
          apply mul_le_mul_of_nonneg_left (zpow_le_zpow_right₀ (by norm_num) hscale)
          positivity
      _ = a / NANOS / n.toNat * 10 ^ k := by rw [zpow_natCast]
  rw [div_div, div_mul_eq_mul_div, le_div_iff₀ (mul_pos hposq hcountq)] at hquot
  exact_mod_cast hquot

/-- A nonzero sum has a mean of at least sixteen digits. -/
theorem ten_pow_le_halfAway {num den : Nat} (hden : 0 < den) (h : 10 ^ 16 * den ≤ num) :
    10 ^ 16 ≤ halfAway num den := by
  unfold halfAway
  rw [Nat.le_div_iff_mul_le (by omega)]
  omega

/-- The nearest float to a nonzero mean is not zero. -/
theorem ofRatio_ne_zero {neg : Bool} {num den k : Nat} (hden : 0 < den)
    (hsmall : 2 * den ≤ F64.one) (hnum : 10 ^ 16 * den ≤ num) (hk : 10 ^ k ≤ num) (s : Bool)
    (h : representable 0 = true) :
    F64.ofRatio neg (halfAway num den) (10 ^ k) ≠ .finite s 0 h := by
  have hN := ten_pow_le_halfAway hden hnum
  have hlt : 2 * num + den < (halfAway num den + 1) * (2 * den) :=
    Nat.lt_mul_of_div_lt (Nat.lt_succ_self _) (by omega)
  have hle : 10 ^ k ≤ halfAway num den * F64.one := by
    have hmul : halfAway num den * (2 * den) ≤ halfAway num den * F64.one :=
      Nat.mul_le_mul_left _ hsmall
    have hone : 1 * (2 * den) ≤ halfAway num den * (2 * den) := Nat.mul_le_mul_right _ (by omega)
    rw [Nat.add_mul] at hlt
    omega
  have hpos := roundUnits_pos (Nat.pow_pos (by norm_num)) hle
  unfold F64.ofRatio F64.ofUnits
  split
  · intro heq
    rw [(F64.finite.inj heq).2] at hpos
    exact lt_irrefl 0 hpos
  · intro heq
    cases heq

/-! ## Within an `i128` -/

/-- What an `i128` holds. -/
def I128 (z : Int) : Prop := -2 ^ 127 ≤ z ∧ z < 2 ^ 127

/-- The products of a long division, each with the digit it gives. -/
def divisionProducts (d : Nat) : Nat → Nat → List Nat
  | 0, rem => [rem * 10]
  | k + 1, rem => rem * 10 :: divisionProducts d k (rem * 10 % d)

/-- The products and powers `numericDiv` computes, the largest of its numbers. -/
def divisionValues (x : Int) (scale : Nat) (n : Int) : List Int :=
  let a := x.natAbs
  let d := NANOS * n.toNat
  [(a : Int), (10000 ^ (Nat.log 10 (a / NANOS) / 4) : Nat),
    (10000 ^ (Nat.log 10 n.toNat / 4) : Nat), (a % NANOS * 1000 : Nat), d, (a / d + 1 : Nat)] ++
    (divisionProducts d (resultScale x scale n) (a % d)).map Int.ofNat

theorem divisionProducts_le {d : Nat} (k : Nat) {rem : Nat} (h : rem < d) :
    ∀ z ∈ divisionProducts d k rem, z ≤ d * 10 := by
  induction k generalizing rem with
  | zero =>
      intro z hz
      rw [List.mem_singleton.mp hz]
      omega
  | succ k ih =>
      intro z hz
      cases List.mem_cons.mp hz with
      | inl heq =>
          rw [heq]
          omega
      | inr hmem => exact ih (Nat.mod_lt _ (by omega)) z hmem

theorem pow_log_le {m : Nat} (hm : m < 2 ^ 127) : 10000 ^ (Nat.log 10 m / 4) < 2 ^ 127 := by
  by_cases hzero : m = 0
  · rw [hzero, Nat.log_zero_right]
    norm_num
  · calc 10000 ^ (Nat.log 10 m / 4) = 10 ^ (4 * (Nat.log 10 m / 4)) := by
          rw [pow_mul]
          norm_num
      _ ≤ 10 ^ Nat.log 10 m := Nat.pow_le_pow_right (by norm_num) (by omega)
      _ ≤ m := Nat.pow_log_le_self 10 hzero
      _ < 2 ^ 127 := hm

theorem i128_natCast {m : Nat} (h : m < 2 ^ 127) : I128 m :=
  ⟨by omega, by exact_mod_cast h⟩

/-- Dividing never leaves an `i128`. -/
theorem i128_divisionValues {x n : Int} (scale : Nat) (hx : x.natAbs < 2 ^ 127) (hn : 0 < n)
    (hn64 : n < 2 ^ 63) : ∀ z ∈ divisionValues x scale n, I128 z := by
  have hcount : n.toNat < 2 ^ 63 := by omega
  have hnanos : NANOS = 1000000000 := rfl
  have hd : 0 < NANOS * n.toNat := Nat.mul_pos (by decide) (by omega)
  have hmod := Nat.mod_lt x.natAbs (show 0 < NANOS by decide)
  have hint := Nat.div_le_self x.natAbs NANOS
  have hquot : x.natAbs / (NANOS * n.toNat) ≤ x.natAbs / NANOS := by
    rw [← Nat.div_div_eq_div_mul]
    exact Nat.div_le_self _ _
  have hsmall : x.natAbs / NANOS < 2 ^ 126 := by
    rw [hnanos]
    omega
  have hden : NANOS * n.toNat ≤ NANOS * 2 ^ 63 := Nat.mul_le_mul_left _ hcount.le
  rw [show NANOS * 2 ^ 63 = 1000000000 * 2 ^ 63 by rw [hnanos]] at hden
  intro z hz
  unfold divisionValues at hz
  cases List.mem_append.mp hz with
  | inl hmem =>
      simp only [List.mem_cons, List.not_mem_nil, or_false] at hmem
      obtain rfl | rfl | rfl | rfl | rfl | rfl := hmem
      · exact i128_natCast hx
      · exact i128_natCast (pow_log_le (by omega))
      · exact i128_natCast (pow_log_le (by omega))
      · exact i128_natCast (by omega)
      · exact i128_natCast (by omega)
      · exact i128_natCast (by omega)
  | inr hmem =>
      obtain ⟨m, hm, rfl⟩ := List.mem_map.mp hmem
      have hle := divisionProducts_le _ (Nat.mod_lt _ hd) m hm
      exact i128_natCast (by omega)

/-! ## Sums of rows -/

theorem ofDigits_lt {ds : List Char} (h : ds.all Decimal.isDigit = true) :
    Decimal.ofDigits ds < 10 ^ ds.length := by
  induction ds using List.reverseRecOn with
  | nil => exact Nat.one_pos
  | append_singleton ds c ih =>
      rw [List.all_append, Bool.and_eq_true] at h
      have hrest := ih h.1
      have hdigit : Decimal.isDigit c = true := by simpa using h.2
      have hc : Decimal.ofDigits [c] < 10 := by
        unfold Decimal.isDigit at hdigit
        rw [Bool.and_eq_true, decide_eq_true_eq, decide_eq_true_eq] at hdigit
        have hle : c.toNat ≤ 57 := UInt32.le_iff_toNat_le.mp hdigit.2
        change 0 * 10 + (c.toNat - 48) < 10
        omega
      rw [Decimal.ofDigits_append, List.length_append, List.length_singleton, pow_one, pow_succ]
      omega

/-- A decimal is below `10 ^ 20`. -/
theorem nanos_natAbs_lt {s : String} {x : Int} {i : Fin 10} (h : nanos s = some (x, i)) :
    x.natAbs < 10 ^ 29 := by
  unfold nanos at h
  dsimp only at h
  generalize (Decimal.splitOnce '.' (Decimal.sign s.toList).2).getD
    ((Decimal.sign s.toList).2, []) = parts at h
  obtain ⟨int, frac⟩ := parts
  dsimp only at h
  split at h
  · cases h
  · next hrefuse =>
      simp only [Bool.or_eq_true, not_or, decide_eq_true_eq, Bool.not_eq_true', Bool.not_eq_false]
        at hrefuse
      obtain ⟨⟨⟨-, hlong⟩, hint⟩, hfrac⟩ := hrefuse
      split at h
      · next hten =>
          have hintlt := ofDigits_lt hint
          have hfraclt := ofDigits_lt hfrac
          have hintle : 10 ^ int.length ≤ 10 ^ 20 := Nat.pow_le_pow_right (by norm_num) (by omega)
          have hdecimals : Decimal.ofDigits frac * 10 ^ (9 - frac.length) < NANOS := by
            calc Decimal.ofDigits frac * 10 ^ (9 - frac.length)
                < 10 ^ frac.length * 10 ^ (9 - frac.length) :=
                  Nat.mul_lt_mul_of_pos_right hfraclt (Nat.pow_pos (by norm_num))
              _ = NANOS := by
                  rw [← pow_add, Nat.add_sub_cancel' (by omega)]
                  rfl
          have hlt : Decimal.ofDigits int * NANOS + Decimal.ofDigits frac * 10 ^ (9 - frac.length) <
              10 ^ 29 := by
            calc Decimal.ofDigits int * NANOS + Decimal.ofDigits frac * 10 ^ (9 - frac.length)
                < Decimal.ofDigits int * NANOS + NANOS := Nat.add_lt_add_left hdecimals _
              _ = (Decimal.ofDigits int + 1) * NANOS := (Nat.succ_mul _ _).symm
              _ ≤ 10 ^ 20 * NANOS := Nat.mul_le_mul_right _ (hintlt.trans_le hintle)
              _ = 10 ^ 29 := rfl
          rw [Option.some.injEq, Prod.mk.injEq] at h
          rw [← h.1]
          split
          · rw [Int.natAbs_neg]
            exact hlt
          · exact hlt
      · cases h

/-- A number the text of a row can be. -/
def Admitted : Num → Prop
  | .nanos x i => ∃ s, nanos s = some (x, i)
  | .float _ => True

/-- As many decimals as surely stay within an `i128`. -/
def maxRows : Nat := 1701411834

/-- A total reached by adding and removing rows, with the rows present. -/
inductive Run : Total → Multiset Num → Prop
  | start : Run .default 0
  | add {t : Total} {rows : Multiset Num} {x : Num} {k : Nat} : Run t rows → Admitted x →
      rows.card + k ≤ maxRows → Run (t.add x k) (rows + Multiset.replicate k x)
  | remove {t : Total} {rows : Multiset Num} {x : Num} {k : Nat} : Run t rows →
      Multiset.replicate k x ≤ rows → Run (t.add x (-k)) (rows - Multiset.replicate k x)

/-- What some rows come to. -/
def sumOf (rows : Multiset Num) (s : Stat) : Int := (rows.map fun x => x.weight s).sum

@[simp] theorem sumOf_zero (s : Stat) : sumOf 0 s = 0 := rfl

theorem sumOf_add (rows rows' : Multiset Num) (s : Stat) :
    sumOf (rows + rows') s = sumOf rows s + sumOf rows' s := by
  unfold sumOf
  rw [Multiset.map_add, Multiset.sum_add]

theorem sumOf_replicate (k : Nat) (x : Num) (s : Stat) :
    sumOf (Multiset.replicate k x) s = x.weight s * k := by
  unfold sumOf
  rw [Multiset.map_replicate, Multiset.sum_replicate, nsmul_eq_mul, mul_comm]

theorem sumOf_sub {rows : Multiset Num} {k : Nat} {x : Num}
    (h : Multiset.replicate k x ≤ rows) (s : Stat) :
    sumOf (rows - Multiset.replicate k x) s = sumOf rows s + x.weight s * -k := by
  have hsum := sumOf_add (rows - Multiset.replicate k x) (Multiset.replicate k x) s
  rw [Multiset.sub_add_cancel h, sumOf_replicate] at hsum
  rw [hsum]
  ring

/-- A total's counts and sums are those of some rows. -/
structure Tallies (t : Total) (rows : Multiset Num) : Prop where
  nanos : t.nanos = sumOf rows .nanos
  scales : ∀ i, t.scales i = sumOf rows (.scale i)
  floats : t.floats = sumOf rows .floats
  posInf : t.posInf = sumOf rows .posInf
  negInf : t.negInf = sumOf rows .negInf
  nan : t.nan = sumOf rows .nan

theorem Tallies.change {t : Total} {rows rows' : Multiset Num} (h : Tallies t rows) {x : Num}
    {k : Int} (hrows : ∀ s, sumOf rows' s = sumOf rows s + x.weight s * k) :
    Tallies (t.add x k) rows' where
  nanos := by rw [Total.add_nanos, h.nanos, hrows]
  scales := fun i => by rw [Total.add_scales, h.scales, hrows]
  floats := by rw [Total.add_floats, h.floats, hrows]
  posInf := by rw [Total.add_posInf, h.posInf, hrows]
  negInf := by rw [Total.add_negInf, h.negInf, hrows]
  nan := by rw [Total.add_nan, h.nan, hrows]

theorem Run.tallies {t : Total} {rows : Multiset Num} (h : Run t rows) : Tallies t rows := by
  induction h with
  | start => exact ⟨rfl, fun _ => rfl, rfl, rfl, rfl, rfl⟩
  | add _ _ _ ih =>
      exact ih.change fun s => by rw [sumOf_add, sumOf_replicate]
  | remove _ hle ih => exact ih.change (sumOf_sub hle)

theorem Run.card_le {t : Total} {rows : Multiset Num} (h : Run t rows) :
    rows.card ≤ maxRows ∧ ∀ x ∈ rows, Admitted x := by
  induction h with
  | start => exact ⟨Nat.zero_le _, by simp⟩
  | add _ hx hcard ih =>
      refine ⟨by rw [Multiset.card_add, Multiset.card_replicate]; exact hcard, fun y hy => ?_⟩
      cases Multiset.mem_add.mp hy with
      | inl hmem => exact ih.2 y hmem
      | inr hmem => exact Multiset.eq_of_mem_replicate hmem ▸ hx
  | @remove t rows x k _ _ ih =>
      have hle : rows - Multiset.replicate k x ≤ rows := Multiset.sub_le_self _ _
      exact ⟨(Multiset.card_le_card hle).trans ih.1, fun y hy => ih.2 y (Multiset.mem_of_le hle hy)⟩

/-- Some rows of a multiset stay within an `i128`. -/
theorem natAbs_sumOf_le {rows : Multiset Num} (h : ∀ x ∈ rows, Admitted x) :
    (sumOf rows .nanos).natAbs ≤ rows.card * 10 ^ 29 := by
  induction rows using Multiset.induction with
  | empty => simp
  | cons x rows ih =>
      have hrows := ih fun y hy => h y (Multiset.mem_cons_of_mem hy)
      have hx : (x.weight .nanos).natAbs ≤ 10 ^ 29 := by
        cases x using Num.kinds with
        | hnanos n i =>
            obtain ⟨s, hs⟩ := h _ (Multiset.mem_cons_self _ _)
            exact (nanos_natAbs_lt hs).le
        | _ => exact Nat.zero_le _
      have hsum : sumOf (x ::ₘ rows) .nanos = x.weight .nanos + sumOf rows .nanos := by
        unfold sumOf
        rw [Multiset.map_cons, Multiset.sum_cons]
      rw [hsum, Multiset.card_cons, Nat.succ_mul]
      calc (x.weight .nanos + sumOf rows .nanos).natAbs
          ≤ (x.weight .nanos).natAbs + (sumOf rows .nanos).natAbs := Int.natAbs_add_le _ _
        _ ≤ _ := by
          rw [Nat.add_comm]
          exact Nat.add_le_add hrows hx

theorem natAbs_lt_of_le_maxRows {z : Int} {k : Nat} (hk : k ≤ maxRows)
    (h : z.natAbs ≤ k * 10 ^ 29) : z.natAbs < 2 ^ 127 := by
  calc z.natAbs ≤ k * 10 ^ 29 := h
    _ ≤ maxRows * 10 ^ 29 := Nat.mul_le_mul_right _ hk
    _ < 2 ^ 127 := by
      unfold maxRows
      norm_num

theorem i128_of_le_maxRows {z : Int} {k : Nat} (hk : k ≤ maxRows)
    (h : z.natAbs ≤ k * 10 ^ 29) : I128 z := by
  have hlt := natAbs_lt_of_le_maxRows hk h
  unfold I128
  omega

/-- Adding some rows of a number computes nothing that leaves an `i128`. -/
def Fits (t : Total) : Num → Int → Prop
  | .nanos n _, k => I128 (n * k) ∧ I128 (t.nanos + n * k)
  | .float _, _ => True

theorem Run.fits_add {t : Total} {rows : Multiset Num} (h : Run t rows) {x : Num} {k : Nat}
    (hx : Admitted x) (hcard : rows.card + k ≤ maxRows) : Fits t x k := by
  have hmore := h.add hx hcard
  cases x with
  | float f => trivial
  | nanos n i =>
      obtain ⟨s, hs⟩ := hx
      have hlt := nanos_natAbs_lt hs
      constructor
      · apply i128_of_le_maxRows (show k ≤ maxRows by omega)
        rw [Int.natAbs_mul, Int.natAbs_natCast, Nat.mul_comm]
        exact Nat.mul_le_mul_left _ hlt.le
      · have hle := natAbs_sumOf_le hmore.card_le.2
        rw [← hmore.tallies.nanos, Total.add_nanos] at hle
        exact i128_of_le_maxRows hmore.card_le.1 hle

theorem Run.fits_remove {t : Total} {rows : Multiset Num} (h : Run t rows) {x : Num} {k : Nat}
    (hle : Multiset.replicate k x ≤ rows) : Fits t x (-k) := by
  have hless := h.remove hle
  cases x with
  | float f => trivial
  | nanos n i =>
      have hcard := Multiset.card_le_card hle
      rw [Multiset.card_replicate] at hcard
      constructor
      · by_cases hk : k = 0
        · rw [hk]
          simp [I128]
        · obtain ⟨s, hs⟩ := h.card_le.2 _
            (Multiset.mem_of_le hle (Multiset.mem_replicate.mpr ⟨hk, rfl⟩))
          have hlt := nanos_natAbs_lt hs
          apply i128_of_le_maxRows (hcard.trans h.card_le.1)
          rw [Int.natAbs_mul, Int.natAbs_neg, Int.natAbs_natCast, Nat.mul_comm]
          exact Nat.mul_le_mul_left _ hlt.le
      · have hsum := natAbs_sumOf_le hless.card_le.2
        rw [← hless.tallies.nanos, Total.add_nanos] at hsum
        exact i128_of_le_maxRows hless.card_le.1 hsum

theorem Run.natAbs_nanos_lt {t : Total} {rows : Multiset Num} (h : Run t rows) :
    t.nanos.natAbs < 2 ^ 127 := by
  have hle := natAbs_sumOf_le h.card_le.2
  rw [← h.tallies.nanos] at hle
  exact natAbs_lt_of_le_maxRows h.card_le.1 hle

/-! ## The scale of a mean -/

/-- The scales of some decimals. -/
def scalesOf (rows : Multiset Num) : Set Nat := {k | ∃ n, ∃ i : Fin 10, .nanos n i ∈ rows ∧ k = i}

theorem sumOf_scale (rows : Multiset Num) (i : Fin 10) :
    0 ≤ sumOf rows (.scale i) ∧ (0 < sumOf rows (.scale i) ↔ ∃ n, .nanos n i ∈ rows) := by
  induction rows using Multiset.induction with
  | empty => simp
  | cons x rows ih =>
      have hsum : sumOf (x ::ₘ rows) (.scale i) = x.weight (.scale i) + sumOf rows (.scale i) := by
        unfold sumOf
        rw [Multiset.map_cons, Multiset.sum_cons]
      have hother : x.weight (.scale i) = 0 → (∀ n, x ≠ .nanos n i) →
          0 ≤ sumOf (x ::ₘ rows) (.scale i) ∧
            (0 < sumOf (x ::ₘ rows) (.scale i) ↔ ∃ n, .nanos n i ∈ x ::ₘ rows) := by
        intro hweight hne
        rw [hsum, hweight, zero_add]
        refine ⟨ih.1, ih.2.trans (exists_congr fun n => ?_)⟩
        rw [Multiset.mem_cons]
        exact (or_iff_right fun heq => hne n heq.symm).symm
      cases x using Num.kinds with
      | hnanos n j =>
          by_cases hij : i = j
          · have hweight : Num.weight (.nanos n j) (.scale i) = 1 := by
              rw [hij]
              exact if_pos rfl
            rw [hsum, hweight]
            have hmem : ∃ n', Num.nanos n' i ∈ Num.nanos n j ::ₘ rows := ⟨n, by simp [hij]⟩
            exact ⟨by omega, fun _ => hmem, fun _ => by omega⟩
          · exact hother (if_neg hij) fun n' heq => hij (Num.nanos.inj heq).2.symm
      | _ => exact hother rfl fun _ heq => by cases heq

/-- Searched from the end, the first place found is the last. -/
theorem find_reverse_finRange {n : Nat} {p : Fin n → Bool} {i : Fin n}
    (h : (List.finRange n).reverse.find? p = some i) : p i = true ∧ ∀ j, p j = true → j ≤ i := by
  obtain ⟨hi, before, after, hlist, hbefore⟩ := List.find?_eq_some_iff_append.mp h
  refine ⟨hi, fun j hj => ?_⟩
  have hmem : j ∈ before ++ i :: after := by
    rw [← hlist]
    simp
  have hsorted : (before ++ i :: after).Pairwise fun a b => b < a := by
    rw [← hlist, List.pairwise_reverse]
    exact List.pairwise_lt_finRange n
  cases List.mem_append.mp hmem with
  | inl hfirst =>
      have hfalse := hbefore j hfirst
      rw [hj] at hfalse
      cases hfalse
  | inr hrest =>
      cases List.mem_cons.mp hrest with
      | inl heq => exact heq.le
      | inr hlater =>
          have hpair := (List.pairwise_append.mp hsorted).2.1
          exact ((List.pairwise_cons.mp hpair).1 j hlater).le

theorem sumOf_eq_zero {rows : Multiset Num} {s : Stat} (h : ∀ x ∈ rows, x.weight s = 0) :
    sumOf rows s = 0 := by
  unfold sumOf
  apply Multiset.sum_eq_zero
  intro z hz
  obtain ⟨x, hx, rfl⟩ := Multiset.mem_map.mp hz
  exact h x hx

/-- The mean of decimals is divided to the largest of their scales. -/
theorem Run.avg_decimals {t : Total} {rows : Multiset Num} (h : Run t rows) (hrows : rows ≠ 0)
    (hdecimals : ∀ x ∈ rows, ∃ n i, x = Num.nanos n i) :
    ∃ scale, IsGreatest (scalesOf rows) scale ∧
      ∀ n, t.avg n false = numericDiv t.nanos scale n := by
  have hzero : ∀ s, (∀ n i, Num.weight (.nanos n i) s = 0) → sumOf rows s = 0 := by
    intro s hs
    apply sumOf_eq_zero
    intro x hx
    obtain ⟨n, i, rfl⟩ := hdecimals x hx
    exact hs n i
  have hfloats : t.floats = 0 := h.tallies.floats.trans (hzero _ fun _ _ => rfl)
  have hpos : t.posInf = 0 := h.tallies.posInf.trans (hzero _ fun _ _ => rfl)
  have hneg : t.negInf = 0 := h.tallies.negInf.trans (hzero _ fun _ _ => rfl)
  have hnan : t.nan = 0 := h.tallies.nan.trans (hzero _ fun _ _ => rfl)
  have hscale : ∀ i, decide (0 < t.scales i) = true ↔ ∃ n, Num.nanos n i ∈ rows := by
    intro i
    rw [decide_eq_true_eq, h.tallies.scales i]
    exact (sumOf_scale rows i).2
  obtain ⟨x, hx⟩ := Multiset.exists_mem_of_ne_zero hrows
  obtain ⟨n, i, rfl⟩ := hdecimals x hx
  have hsome : ((List.finRange 10).reverse.find? fun i => 0 < t.scales i).isSome = true := by
    rw [List.find?_isSome]
    exact ⟨i, by simp, (hscale i).mpr ⟨n, hx⟩⟩
  obtain ⟨top, htop⟩ := Option.isSome_iff_exists.mp hsome
  obtain ⟨hfound, hlargest⟩ := find_reverse_finRange htop
  refine ⟨top, ⟨?_, ?_⟩, fun n => ?_⟩
  · obtain ⟨m, hm⟩ := (hscale top).mp hfound
    exact ⟨m, top, hm, rfl⟩
  · intro k hk
    obtain ⟨m, j, hm, rfl⟩ := hk
    exact hlargest j ((hscale j).mpr ⟨m, hm⟩)
  · unfold Total.avg
    rw [hfloats, hpos, hneg, hnan, htop]
    rfl

/-! ## The mean is Postgres's -/

/-- Dividing `x` nanos by a count gives the quotient to `k` decimals. -/
structure Divides (x : Int) (scale : Nat) (n : Int) (k : Nat) : Prop where
  fits : ∀ z ∈ divisionValues x scale n, I128 z
  mean : numericDiv x scale n =
    .ofRatio (x < 0) (halfAway (x.natAbs * 10 ^ k) (NANOS * n.toNat)) (10 ^ k)
  decimals : min scale 1000 ≤ k
  digits : x ≠ 0 → 10 ^ 16 ≤ halfAway (x.natAbs * 10 ^ k) (NANOS * n.toNat)
  nonzero : x ≠ 0 → ∀ s h, numericDiv x scale n ≠ .finite s 0 h

theorem resultScale_eq {x n w1 w2 : Int} {d1 d2 : Nat} (scale : Nat) (hn : 0 < n)
    (hx : Leading (x.natAbs / NANOS) w1 d1) (hy : Leading n w2 d2) :
    resultScale x scale n = selectDivScale w1 d1 w2 d2 scale 0 := by
  have hcount : ((n.toNat : Nat) : ℚ) = n := by exact_mod_cast Int.toNat_of_nonneg hn.le
  rw [← hcount] at hy
  obtain ⟨hw1, hd1⟩ := (leading_nanos x.natAbs).unique hx
  obtain ⟨hw2, hd2⟩ := (leading_count (show 0 < n.toNat by omega)).unique hy
  unfold resultScale
  rw [← hw1, ← hd1, ← hw2, ← hd2]

theorem divides_resultScale {x n : Int} (scale : Nat) (hx : x.natAbs < 2 ^ 127) (hn : 0 < n)
    (hn64 : n < 2 ^ 63) : Divides x scale n (resultScale x scale n) where
  fits := i128_divisionValues scale hx hn hn64
  mean := numericDiv_eq x scale hn
  decimals := by
    unfold resultScale selectDivScale
    dsimp only
    omega
  digits := fun hzero =>
    ten_pow_le_halfAway (Nat.mul_pos (by decide) (by omega))
      (ten_pow_le_quotient rfl hzero hn hn64 scale)
  nonzero := by
    intro hzero s h
    have hd : 0 < NANOS * n.toNat := Nat.mul_pos (by decide) (by omega)
    have hapos : 0 < x.natAbs := Int.natAbs_pos.mpr hzero
    rw [numericDiv_eq x scale hn]
    apply ofRatio_ne_zero hd _ (ten_pow_le_quotient rfl hzero hn hn64 scale)
    · exact Nat.le_mul_of_pos_left _ hapos
    · calc 2 * (NANOS * n.toNat) ≤ 2 * (2 ^ 30 * 2 ^ 63) := by
            apply Nat.mul_le_mul_left
            exact Nat.mul_le_mul (by decide) (by omega)
        _ = 2 ^ 94 := by norm_num
        _ ≤ F64.one := Nat.pow_le_pow_right (by norm_num) (by norm_num)

/-- The mean of decimals: what `numericDiv` gives of any sum and count, and what
it is given after any additions and removals. -/
theorem decimal_average :
    (∀ (x : Int) (scale : Nat) (n w1 w2 : Int) (d1 d2 : Nat), x.natAbs < 2 ^ 127 → 0 < n →
      n < 2 ^ 63 → Leading (x.natAbs / NANOS) w1 d1 → Leading n w2 d2 →
        Divides x scale n (selectDivScale w1 d1 w2 d2 scale 0)) ∧
    ∀ t rows, Run t rows →
      (t.nanos = sumOf rows .nanos ∧ t.nanos.natAbs < 2 ^ 127) ∧
      (∀ x (k : Nat), Admitted x → rows.card + k ≤ maxRows → Fits t x k) ∧
      (∀ x (k : Nat), Multiset.replicate k x ≤ rows → Fits t x (-k)) ∧
      (rows ≠ 0 → (∀ x ∈ rows, ∃ n i, x = Num.nanos n i) →
        ∃ scale, IsGreatest (scalesOf rows) scale ∧
          ∀ n, t.avg n false = numericDiv t.nanos scale n) := by
  constructor
  · intro x scale n w1 w2 d1 d2 hx hn hn64 hfirst hcount
    rw [← resultScale_eq scale hn hfirst hcount]
    exact divides_resultScale scale hx hn hn64
  · intro t rows h
    exact ⟨⟨h.tallies.nanos, h.natAbs_nanos_lt⟩, fun _ _ => h.fits_add, fun _ _ => h.fits_remove,
      h.avg_decimals⟩

/-- Ten thirds: sixteen decimals. -/
theorem decimal_average_ten_thirds : Divides 10000000000 2 3 16 :=
  decimal_average.1 10000000000 2 3 0 0 10 3 (by norm_num) (by norm_num) (by norm_num)
    (Or.inr ⟨by norm_num, by norm_num, by norm_num [NANOS], by norm_num [NANOS]⟩)
    (Or.inr ⟨by norm_num, by norm_num, by norm_num, by norm_num⟩)

/-- `2 ^ 31` of the largest decimals leave an `i128`. -/
theorem greatest_sum_overflows :
    nanos "99999999999999999999.999999999" = some (10 ^ 29 - 1, 9) ∧
      ¬I128 (Total.default.add (.nanos (10 ^ 29 - 1) 9) (2 ^ 31)).nanos := by
  constructor
  · decide
  · rw [Total.add_nanos]
    unfold I128 Total.default Num.weight
    norm_num

end Improv.PgModel.NumericDiv
