import Mathlib.Algebra.Order.Floor.Semifield
import Mathlib.Data.Rat.Floor
import Improv.CoreModel.Number
import Improv.Lib.DigitLists
/-!
# Formatted numbers

A number of decimals writes the fifteen digits rounded half away from zero: the
digit vector always stands for a number of as many places as it has digits
after the point, whatever zeros it begins with and whatever a carry does to it.
-/

namespace Improv.CoreModel.Number

open Improv.Lib Improv.Lib.Decimal Improv.Lib.DigitLists

/-! ## Reading scientific notation -/

theorem splitOnce_append {c : Char} {as bs : List Char} (h : c ∉ as) :
    splitOnce c (as ++ c :: bs) = some (as, bs) := by
  have htake : (as ++ c :: bs).takeWhile (· ≠ c) = as := by
    rw [List.takeWhile_append_of_pos, List.takeWhile_cons_of_neg (by simp), List.append_nil]
    intro x hx
    exact decide_eq_true fun heq => h (heq ▸ hx)
  unfold splitOnce
  rw [htake]
  dsimp only
  rw [List.drop_left' rfl]

theorem notMem_of_isDigit {c : Char} {ds : List Char} (h : ∀ d ∈ ds, isDigit d = true)
    (hc : isDigit c = false) : c ∉ ds := by
  intro hmem
  have hdigit := h c hmem
  rw [hc] at hdigit
  cases hdigit

theorem toString_toList (e : Int) :
    (toString e).toList = (if e < 0 then ['-'] else []) ++ Nat.toDigits 10 e.natAbs := by
  cases e with
  | ofNat m =>
      have hneg : ¬Int.ofNat m < 0 := not_lt.mpr (Int.natCast_nonneg m)
      rw [if_neg hneg]
      exact Nat.toList_repr
  | negSucc m =>
      rw [if_pos (Int.negSucc_lt_zero m)]
      change ("-" ++ Nat.repr (m + 1)).toList = _
      rw [String.toList_append, Nat.toList_repr]
      rfl

/-- An exponent is read back. -/
theorem parseI32_toString {e : Int} (hlow : -2 ^ 31 ≤ e) (hhigh : e < 2 ^ 31) :
    parseI32 (toString e).toList = some e := by
  have hdigits : ∀ c ∈ Nat.toDigits 10 e.natAbs, isDigit c = true :=
    fun c hc => isDigit_of_mem_toDigits hc
  have hsign : sign (toString e).toList = (decide (e < 0), Nat.toDigits 10 e.natAbs) := by
    rw [toString_toList]
    by_cases hneg : e < 0
    · rw [if_pos hneg, decide_eq_true hneg]
      rfl
    · rw [if_neg hneg, decide_eq_false hneg, List.nil_append]
      unfold sign
      split
      · next heq =>
          rw [heq] at hdigits
          exact absurd (hdigits _ List.mem_cons_self) (by decide)
      · next heq =>
          rw [heq] at hdigits
          exact absurd (hdigits _ List.mem_cons_self) (by decide)
      · rfl
  have hvalue : (if decide (e < 0) = true then -((e.natAbs : Nat) : Int) else e.natAbs) = e := by
    by_cases hneg : e < 0
    · rw [decide_eq_true hneg, if_pos rfl]
      omega
    · rw [decide_eq_false hneg, if_neg (by decide)]
      omega
  unfold parseI32
  rw [hsign]
  dsimp only
  rw [ofDigits_toDigits, hvalue, if_pos ⟨Nat.toDigits_ne_nil, List.all_eq_true.mpr hdigits, hlow,
    hhigh⟩]

/-! ## The fifteen digits -/

/-- A magnitude. -/
def magnitude : F64 → ℚ
  | .finite _ u _ => u / F64.one
  | _ => 0

theorem fifteenDigits_finite (s : Bool) {u : Nat} (h : representable u = true) :
    fifteenDigits (.finite s u h) = Scientific.scientific 14 u F64.one := rfl

theorem magnitude_finite (s : Bool) {u : Nat} (h : representable u = true) :
    magnitude (.finite s u h) = u / F64.one := rfl

/-- The fifteen digits as a quantity. -/
def rounded (n : F64) : ℚ := (fifteenDigits n).1 * 10 ^ ((fifteenDigits n).2 - 14)

theorem fifteenDigits_rounds {n : F64} (h : magnitude n ≠ 0) :
    Scientific.Rounds 14 (magnitude n) (fifteenDigits n).1 (fifteenDigits n).2 := by
  cases n with
  | nan => exact absurd rfl h
  | inf s => exact absurd rfl h
  | finite s u hu =>
      rw [fifteenDigits_finite, magnitude_finite] at *
      apply Scientific.scientific_rounds 14 _ (Nat.two_pow_pos 1074)
      apply Nat.pos_of_ne_zero
      intro hzero
      exact h (by rw [hzero, Nat.cast_zero, zero_div])

theorem fifteenDigits_zero {n : F64} (h : magnitude n = 0) : fifteenDigits n = (0, 0) := by
  cases n with
  | nan => rfl
  | inf s => rfl
  | finite s u hu =>
      have hone : (F64.one : ℚ) ≠ 0 := by
        exact_mod_cast (Nat.two_pow_pos 1074).ne'
      have hzero : u = 0 := by
        rw [magnitude_finite] at h
        have hq := (div_eq_zero_iff.mp h).resolve_right hone
        exact_mod_cast hq
      rw [fifteenDigits_finite, Scientific.scientific, if_pos hzero]

theorem fifteenDigits_lt (n : F64) : (fifteenDigits n).1 < 10 ^ 15 := by
  by_cases h : magnitude n = 0
  · rw [fifteenDigits_zero h]
    norm_num
  · exact (fifteenDigits_rounds h).high

/-- The exponent of a double is small. -/
theorem fifteenDigits_exponent (n : F64) :
    -2 ^ 31 ≤ (fifteenDigits n).2 ∧ (fifteenDigits n).2 < 2 ^ 31 := by
  cases n with
  | nan => exact ⟨by decide, by decide⟩
  | inf s => exact ⟨show -2 ^ 31 ≤ 0 by decide, show 0 < 2 ^ 31 by decide⟩
  | finite s u hu =>
      rw [fifteenDigits_finite, Scientific.scientific]
      by_cases hzero : u = 0
      · rw [if_pos hzero]
        exact ⟨by decide, by decide⟩
      · have hbounds : -1074 ≤ Scientific.exponent10 u F64.one ∧
            Scientific.exponent10 u F64.one < 1024 := by
          have htwo : ∀ k, 2 ^ k ≤ 10 ^ k := fun k => Nat.pow_le_pow_left (by norm_num) k
          unfold Scientific.exponent10
          split
          · have hlt : u < 2 ^ 1024 * F64.one := by
              have hfits := (F64.representable_iff.mp hu).1
              unfold F64.one
              rw [← pow_add]
              exact hfits
            have hdiv : u / F64.one < 2 ^ 1024 := Nat.div_lt_of_lt_mul (by rwa [Nat.mul_comm])
            have hlog : Nat.log 10 (u / F64.one) < 1024 :=
              Nat.log_lt_of_lt_pow' (by norm_num) (hdiv.trans_le (htwo 1024))
            omega
          · have hle : (F64.one + u - 1) / u ≤ 10 ^ 1074 := by
              have hmul : F64.one + u - 1 ≤ u * F64.one := by
                obtain ⟨a, ha⟩ : ∃ a, u = a + 1 := ⟨u - 1, by omega⟩
                have hone : 1 ≤ F64.one := Nat.two_pow_pos 1074
                rw [ha, Nat.add_mul, one_mul]
                have hprod : a * 1 ≤ a * F64.one := Nat.mul_le_mul_left _ hone
                omega
              exact (Nat.div_le_of_le_mul hmul).trans (htwo 1074)
            have hclog := Nat.clog_le_of_le_pow hle
            omega
        rw [if_neg hzero]
        dsimp only
        split <;> dsimp only <;> omega

/-- The fifteen digits one by one. -/
def digitsOf (n : F64) : List Nat :=
  (padded 15 (fifteenDigits n).1).map fun c => c.toNat - 48

theorem isDigit_of_mem_padded {k m : Nat} {c : Char} (h : c ∈ padded k m) : isDigit c = true :=
  isDigit_of_mem_leftpad h

theorem length_padded_fifteen (n : F64) : (padded 15 (fifteenDigits n).1).length = 15 :=
  length_leftpad_toDigits (by norm_num) (fifteenDigits_lt n)

theorem digitsOf_spec (n : F64) : Digits (digitsOf n) ∧ (digitsOf n).length = 15 ∧
    number (digitsOf n) = (fifteenDigits n).1 := by
  refine ⟨?_, by rw [digitsOf, List.length_map, length_padded_fifteen], ?_⟩
  · intro d hd
    obtain ⟨c, hc, rfl⟩ := List.mem_map.mp hd
    have hdigit := isDigit_of_mem_padded hc
    unfold isDigit at hdigit
    rw [Bool.and_eq_true, decide_eq_true_eq, decide_eq_true_eq] at hdigit
    have hle : c.toNat ≤ 57 := UInt32.le_iff_toNat_le.mp hdigit.2
    omega
  · have hread := ofDigits_leftpad 15 (fifteenDigits n).1
    unfold digitsOf number
    rw [List.foldl_map]
    exact hread

/-- The mantissa a number is written with. -/
def mantissaText (n : F64) : List Char :=
  (padded 15 (fifteenDigits n).1).take 1 ++ '.' :: (padded 15 (fifteenDigits n).1).drop 1

theorem scientificText_eq (n : F64) : scientificText n =
    (if isSignNegative n then ['-'] else []) ++ mantissaText n ++
      'e' :: (toString (fifteenDigits n).2).toList := by
  unfold scientificText mantissaText
  simp only [List.append_assoc, List.cons_append]

theorem mem_mantissaText {n : F64} {c : Char} (h : c ∈ mantissaText n) :
    isDigit c = true ∨ c = '.' := by
  unfold mantissaText at h
  cases List.mem_append.mp h with
  | inl hfirst => exact Or.inl (isDigit_of_mem_padded (List.mem_of_mem_take hfirst))
  | inr hrest =>
      cases List.mem_cons.mp hrest with
      | inl hpoint => exact Or.inr hpoint
      | inr hdigit => exact Or.inl (isDigit_of_mem_padded (List.mem_of_mem_drop hdigit))

theorem splitOnce_scientificText (n : F64) : splitOnce 'e' (scientificText n) =
    some ((if isSignNegative n then ['-'] else []) ++ mantissaText n,
      (toString (fifteenDigits n).2).toList) := by
  rw [scientificText_eq]
  apply splitOnce_append
  intro hmem
  cases List.mem_append.mp hmem with
  | inl hsign =>
      split at hsign
      · exact absurd (List.mem_singleton.mp hsign) (by decide)
      · cases hsign
  | inr hmantissa =>
      cases mem_mantissaText hmantissa with
      | inl hdigit => exact absurd hdigit (by decide)
      | inr hpoint => exact absurd hpoint (by decide)

theorem filter_mantissaText (n : F64) :
    ((mantissaText n).filter isDigit).map (fun c => c.toNat - 48) = digitsOf n := by
  have hkeep : ∀ cs : List Char, (∀ c ∈ cs, isDigit c = true) → cs.filter isDigit = cs :=
    fun cs h => List.filter_eq_self.mpr h
  unfold mantissaText digitsOf
  rw [List.filter_append, List.filter_cons_of_neg (by decide),
    hkeep _ fun c hc => isDigit_of_mem_padded (List.mem_of_mem_take hc),
    hkeep _ fun c hc => isDigit_of_mem_padded (List.mem_of_mem_drop hc), List.take_append_drop]

theorem fifteenDigits_abs (n : F64) : fifteenDigits n.abs = fifteenDigits n := by
  cases n <;> rfl

/-! ## Rounding the digits -/

theorem getD_append_cons (as : List Nat) (d : Nat) (ds : List Nat) :
    (as ++ d :: ds).getD as.length 0 = d := by
  simp

/-- The last place that is not a nine is before the nines. -/
theorem rposition_append {as : List Nat} {d : Nat} (k : Nat) (hd : d ≠ 9) :
    rposition (· ≠ 9) (as ++ d :: List.replicate k 9) = some as.length := by
  unfold rposition
  rw [List.find?_eq_some_iff_append]
  have hlen : (as ++ d :: List.replicate k 9).length = as.length + 1 + k := by
    rw [List.length_append, List.length_cons, List.length_replicate]
    omega
  refine ⟨by rw [getD_append_cons]; exact decide_eq_true hd,
    ((List.range k).map (as.length + 1 + ·)).reverse, (List.range as.length).reverse, ?_, ?_⟩
  · rw [hlen, List.range_add, List.reverse_append, List.range_succ, List.reverse_append]
    rfl
  · intro i hi
    obtain ⟨j, hj, rfl⟩ := List.mem_map.mp (List.mem_reverse.mp hi)
    have hlt := List.mem_range.mp hj
    have hnine : (as ++ d :: List.replicate k 9).getD (as.length + 1 + j) 0 = 9 := by
      rw [List.getD_eq_getElem?_getD, List.getElem?_append_right (by omega),
        show as.length + 1 + j - as.length = j + 1 by omega, List.getElem?_cons_succ]
      simp [hlt]
    rw [hnine]
    rfl

theorem rposition_nines (k : Nat) : rposition (· ≠ 9) (List.replicate k 9) = none := by
  unfold rposition
  rw [List.find?_eq_none]
  intro i hi
  rw [List.mem_reverse, List.mem_range, List.length_replicate] at hi
  have hnine : (List.replicate k 9).getD i 0 = 9 := by simp [hi]
  rw [hnine]
  decide

/-- Digits end in nines, all of them or after one that is not. -/
theorem ends_in_nines (ds : List Nat) :
    ds = List.replicate ds.length 9 ∨ ∃ as d k, d ≠ 9 ∧ ds = as ++ d :: List.replicate k 9 := by
  induction ds using List.reverseRecOn with
  | nil => exact Or.inl rfl
  | append_singleton ds e ih =>
      by_cases he : e = 9
      · cases ih with
        | inl hall =>
            refine Or.inl ?_
            rw [List.length_append, List.length_singleton, List.replicate_succ', ← hall, he]
        | inr hsome =>
            obtain ⟨as, d, k, hd, hds⟩ := hsome
            refine Or.inr ⟨as, d, k + 1, hd, ?_⟩
            rw [List.replicate_succ', hds, he, List.append_assoc]
            rfl
      · exact Or.inr ⟨ds, e, 0, he, rfl⟩

/-- Counting up adds one in the last place. -/
theorem countUp_spec {ds : List Nat} (h : Digits ds) (point : Nat) :
    Digits (countUp ds point).1 ∧ number (countUp ds point).1 = number ds + 1 ∧
      point ≤ (countUp ds point).2 ∧
      (countUp ds point).1.length + point = ds.length + (countUp ds point).2 := by
  unfold countUp
  cases ends_in_nines ds with
  | inl hall =>
      have hnumber := number_replicate_nine ds.length
      rw [← hall] at hnumber
      have hnone : rposition (· ≠ 9) ds = none := by
        rw [hall]
        exact rposition_nines _
      rw [hnone]
      dsimp only
      refine ⟨?_, ?_, Nat.le_succ _, ?_⟩
      · intro d hd
        cases List.mem_cons.mp hd with
        | inl heq => omega
        | inr hmem =>
            rw [List.eq_of_mem_replicate hmem]
            norm_num
      · rw [number_cons, number_replicate_zero, List.length_replicate]
        omega
      · rw [List.length_cons, List.length_replicate]
        omega
  | inr hsome =>
      obtain ⟨as, d, k, hd, rfl⟩ := hsome
      rw [rposition_append k hd]
      dsimp only
      rw [List.take_left' rfl, getD_append_cons]
      have hlen : (as ++ d :: List.replicate k 9).length - (as.length + 1) = k := by
        rw [List.length_append, List.length_cons, List.length_replicate]
        omega
      have hten : d < 10 := h d (by simp)
      rw [hlen]
      refine ⟨?_, ?_, le_refl _, ?_⟩
      · apply Digits.append fun x hx => h x (List.mem_append_left _ hx)
        intro x hx
        cases List.mem_cons.mp hx with
        | inl heq => omega
        | inr hmem =>
            rw [List.eq_of_mem_replicate hmem]
            norm_num
      · have hnines := number_replicate_nine k
        rw [number_append, number_append, number_cons, number_cons, number_replicate_zero,
          List.length_cons, List.length_cons, List.length_replicate, List.length_replicate,
          Nat.succ_mul]
        omega
      · simp only [List.length_append, List.length_cons, List.length_replicate]

/-- The digits kept are the number rounded to as many places. -/
theorem keepDigits_spec {ds : List Nat} {point places : Nat} (d : Nat) (h : Digits ds)
    (hlen : ds.length = point + places) :
    ∃ kept, keepDigits ds point (point + d) = kept ∧ Digits kept.1 ∧ point ≤ kept.2 ∧
      kept.1.length = kept.2 + d ∧ number kept.1 = halfAway (number ds * 10 ^ d) (10 ^ places) := by
  refine ⟨_, rfl, ?_⟩
  have hpow : ∀ k, 0 < 10 ^ k := fun k => Nat.pow_pos (by norm_num)
  unfold keepDigits
  by_cases hshort : places ≤ d
  · -- Zeros are appended: nothing is cut off.
    rw [if_pos (by omega)]
    refine ⟨h.append (digits_replicate (by norm_num) _), le_refl _, ?_, ?_⟩
    · rw [List.length_append, List.length_replicate]
      omega
    · rw [number_append, number_replicate_zero, List.length_replicate, Nat.add_zero,
        show point + d - ds.length = d - places by omega]
      have hsplit : number ds * 10 ^ d = number ds * 10 ^ (d - places) * 10 ^ places + 0 := by
        rw [mul_assoc, ← pow_add, Nat.sub_add_cancel hshort, Nat.add_zero]
      rw [halfAway_eq (hpow places) hsplit, if_neg (by have := hpow places; omega)]
  · rw [if_neg (by omega)]
    obtain ⟨as, x, rest, hds, has⟩ : ∃ as x rest, ds = as ++ x :: rest ∧
        as.length = point + d := by
      have hdrop : (ds.drop (point + d)).length ≠ 0 := by
        rw [List.length_drop]
        omega
      obtain ⟨x, rest, hrest⟩ := List.exists_cons_of_ne_nil (List.ne_nil_of_length_pos
        (Nat.pos_of_ne_zero hdrop))
      exact ⟨ds.take (point + d), x, rest, by rw [← hrest, List.take_append_drop],
        by rw [List.length_take]; omega⟩
    rw [hds] at h hlen ⊢
    have hkept : Digits as := fun y hy => h y (List.mem_append_left _ hy)
    have hcut : Digits (x :: rest) := fun y hy => h y (List.mem_append_right _ hy)
    have hrest : rest.length + 1 + d = places := by
      rw [List.length_append, List.length_cons] at hlen
      omega
    have hrounded : halfAway (number (as ++ x :: rest) * 10 ^ d) (10 ^ places) =
        if 5 ≤ x then number as + 1 else number as := by
      rw [← hrest, pow_add, halfAway_mul_right (hpow d)]
      change halfAway (number (as ++ x :: rest)) (10 ^ (x :: rest).length) = _
      rw [halfAway_eq (number_lt hcut) (number_append as (x :: rest))]
      simp only [List.length_cons, half_le_number_iff hcut]
    rw [← has, getD_append_cons, List.take_left' rfl, hrounded]
    by_cases hup : 5 ≤ x
    · rw [if_pos hup, if_pos hup]
      obtain ⟨hdigits, hnumber, hpoint, hlength⟩ := countUp_spec hkept point
      exact ⟨hdigits, hpoint, by omega, hnumber⟩
    · rw [if_neg hup, if_neg hup]
      exact ⟨hkept, le_refl _, has, rfl⟩

/-! ## The decimals -/

/-- A magnitude to some places: the fifteen digits rounded half away from zero. -/
def places (n : F64) (d : Nat) : Nat := ⌊rounded n * 10 ^ d + 1 / 2⌋₊

theorem rounded_lt_iff (n : F64) : rounded n < 10 ^ 15 ↔ (fifteenDigits n).2 < 15 := by
  unfold rounded
  have hhigh := fifteenDigits_lt n
  by_cases hzero : magnitude n = 0
  · rw [fifteenDigits_zero hzero]
    norm_num
  · have hlow := (fifteenDigits_rounds hzero).low
    generalize fifteenDigits n = out at hhigh hlow ⊢
    obtain ⟨D, e⟩ := out
    simp only at hhigh hlow ⊢
    have hpow : (0 : ℚ) < 10 ^ (e - 14) := zpow_pos (by norm_num) _
    constructor
    · intro hlt
      by_contra hge
      have hstep : (10 : ℚ) ^ 15 ≤ D * 10 ^ (e - 14) := by
        calc (10 : ℚ) ^ 15 = (10 : ℚ) ^ 14 * (10 : ℚ) ^ (1 : Int) := by norm_num
          _ ≤ (D : ℚ) * 10 ^ (e - 14) := by
            apply mul_le_mul _ (zpow_le_zpow_right₀ (by norm_num) (by omega)) (by positivity)
              (by positivity)
            exact_mod_cast hlow
      exact absurd hlt (not_lt.mpr hstep)
    · intro he
      calc (D : ℚ) * 10 ^ (e - 14) < 10 ^ 15 * 10 ^ (e - 14) :=
            mul_lt_mul_of_pos_right (by exact_mod_cast hhigh) hpow
        _ ≤ 10 ^ 15 * (10 : ℚ) ^ (0 : Int) :=
            mul_le_mul_of_nonneg_left (zpow_le_zpow_right₀ (by norm_num) (by omega)) (by norm_num)
        _ = 10 ^ 15 := by norm_num

theorem places_eq (n : F64) (d : Nat) (h : (fifteenDigits n).2 < 15) :
    places n d =
      halfAway ((fifteenDigits n).1 * 10 ^ d) (10 ^ (14 - (fifteenDigits n).2).toNat) := by
  unfold places rounded halfAway
  generalize fifteenDigits n = out at h ⊢
  obtain ⟨D, e⟩ := out
  simp only at h ⊢
  obtain ⟨k, hk⟩ : ∃ k : Nat, 14 - e = k := ⟨(14 - e).toNat, by omega⟩
  rw [hk, Int.toNat_natCast, ← Nat.floor_div_eq_div (K := ℚ)]
  congr 1
  rw [show e - 14 = -(k : Int) by omega, zpow_neg, zpow_natCast]
  push_cast
  field_simp

/-- What `fixed` gives: the sign, and the text of the rounded magnitude. -/
theorem fixed_eq (n : F64) (d : Nat) (h : (fifteenDigits n).2 < 15) :
    fixed n d = some (isSignNegative n && decide (places n d ≠ 0),
      Nat.toDigits 10 (places n d / 10 ^ d),
      if d = 0 then [] else padded d (places n d % 10 ^ d)) := by
  obtain ⟨hdigits, hlen, hnumber⟩ := digitsOf_spec n
  obtain ⟨hlow, hhigh⟩ := fifteenDigits_exponent n
  obtain ⟨e, he⟩ : ∃ e, e = (fifteenDigits n).2 := ⟨_, rfl⟩
  have hsci : splitOnce 'e' (scientificText n.abs) =
      some (mantissaText n, (toString e).toList) := by
    have hpositive : isSignNegative n.abs = false := by cases n <;> rfl
    have habs : mantissaText n.abs = mantissaText n := by
      unfold mantissaText
      rw [fifteenDigits_abs]
    rw [splitOnce_scientificText, hpositive, habs, fifteenDigits_abs, he]
    rfl
  rw [← he] at h hlow hhigh
  -- The digits with the zeros before them, and the place of the point.
  obtain ⟨out, hout⟩ : ∃ out : List Nat × Nat, out =
      if e < 0 then (List.replicate e.natAbs 0 ++ digitsOf n, 1)
      else (digitsOf n, (e + 1).toNat) := ⟨_, rfl⟩
  have hspec : Digits out.1 ∧ out.1.length = out.2 + (14 - e).toNat ∧ 1 ≤ out.2 ∧
      number out.1 = (fifteenDigits n).1 := by
    rw [hout]
    by_cases hneg : e < 0
    · rw [if_pos hneg]
      refine ⟨(digits_replicate (by norm_num) _).append hdigits, ?_, le_refl _, ?_⟩
      · rw [List.length_append, List.length_replicate, hlen]
        omega
      · rw [number_zeros_append, hnumber]
    · rw [if_neg hneg]
      refine ⟨hdigits, ?_, ?_, hnumber⟩
      · rw [hlen]
        omega
      · dsimp only
        omega
  obtain ⟨hd, hl, hpoint, hn⟩ := hspec
  obtain ⟨kept, hkept, hkd, hkp, hkl, hkn⟩ := keepDigits_spec d hd hl
  rw [hn, he, ← places_eq n d (he ▸ h)] at hkn
  have hsplit := List.take_append_drop kept.2 kept.1
  have hfracLen : (kept.1.drop kept.2).length = d := by
    rw [List.length_drop]
    omega
  have hint : Digits (kept.1.take kept.2) := fun x hx => hkd x (List.mem_of_mem_take hx)
  have hfrac : Digits (kept.1.drop kept.2) := fun x hx => hkd x (List.mem_of_mem_drop hx)
  have hne : kept.1.take kept.2 ≠ [] := by
    apply List.ne_nil_of_length_pos
    rw [List.length_take]
    omega
  obtain ⟨hdiv, hmod⟩ := @number_take_drop (kept.1.take kept.2) _ hfrac
  rw [hsplit, hfracLen, hkn] at hdiv hmod
  have hany : kept.1.any (· ≠ 0) = decide (places n d ≠ 0) := by
    rw [← hkn, Bool.eq_iff_iff, List.any_eq_true, decide_eq_true_eq, Ne, number_eq_zero_iff]
    simp
  have hfracText : (kept.1.drop kept.2).map Nat.digitChar =
      if d = 0 then [] else padded d (places n d % 10 ^ d) := by
    by_cases hzero : d = 0
    · rw [if_pos hzero, List.length_eq_zero_iff.mp (hfracLen.trans hzero)]
      rfl
    · rw [if_neg hzero, map_digitChar_eq_leftpad hfrac (by
        apply List.ne_nil_of_length_pos
        omega), hfracLen, ← hmod]
      rfl
  unfold fixed
  rw [hsci]
  simp only [Option.bind_eq_bind, Option.bind_some, parseI32_toString hlow hhigh]
  rw [if_neg (by omega), filter_mantissaText]
  rw [← hout, hkept, hany, drop_leadingZeros hint hne, hfracText, ← hdiv]

theorem fixed_eq_none (n : F64) (d : Nat) (h : ¬(fifteenDigits n).2 < 15) : fixed n d = none := by
  obtain ⟨hlow, hhigh⟩ := fifteenDigits_exponent n
  unfold fixed
  rw [splitOnce_scientificText]
  simp only [Option.bind_eq_bind, Option.bind_some]
  rw [fifteenDigits_abs, parseI32_toString hlow hhigh]
  simp only [Option.bind_some]
  rw [if_pos (by omega)]

/-! ## Groups of three -/

/-- A separator stands before each full group of three digits. -/
def Grouped (sep : Char) (ds text : List Char) : Prop :=
  ∃ (first : List Char) (rest : List (List Char)), first ≠ [] ∧ first.length ≤ 3 ∧ 
    (∀ g ∈ rest, g.length = 3) ∧ ds = first ++ rest.flatten ∧
    text = first ++ rest.flatMap (sep :: ·)

/-- Digits with a separator before each place that is a multiple of three from
the end, the first included. -/
def separated (sep : Char) : List Char → List Char
  | [] => []
  | c :: cs => (if (cs.length + 1) % 3 = 0 then [sep] else []) ++ c :: separated sep cs

theorem separated_cons (sep c : Char) (cs : List Char) : separated sep (c :: cs) =
    (if (cs.length + 1) % 3 = 0 then [sep] else []) ++ c :: separated sep cs := rfl

theorem separated_eq (sep : Char) (cs : List Char) :
    ∃ (first : List Char) (rest : List (List Char)), first.length = cs.length % 3 ∧
      (∀ g ∈ rest, g.length = 3) ∧ cs = first ++ rest.flatten ∧
      separated sep cs = first ++ rest.flatMap (sep :: ·) := by
  induction cs with
  | nil => exact ⟨[], [], rfl, by simp, rfl, rfl⟩
  | cons c cs ih =>
      obtain ⟨first, rest, hfirst, hrest, hcs, htext⟩ := ih
      rw [separated_cons]
      by_cases hfull : (cs.length + 1) % 3 = 0
      · rw [if_pos hfull]
        refine ⟨[], (c :: first) :: rest, ?_, ?_, ?_, ?_⟩
        · rw [List.length_cons, hfull]
          rfl
        · intro g hg
          cases List.mem_cons.mp hg with
          | inl heq =>
              rw [heq, List.length_cons, hfirst]
              omega
          | inr hmem => exact hrest g hmem
        · rw [List.flatten_cons, List.nil_append, List.cons_append, ← hcs]
        · rw [htext]
          rfl
      · rw [if_neg hfull]
        refine ⟨c :: first, rest, ?_, hrest, ?_, ?_⟩
        · rw [List.length_cons, List.length_cons, hfirst]
          omega
        · rw [List.cons_append, ← hcs]
        · rw [htext]
          rfl

/-- The separators written while counting the places from the front. -/
theorem flatMap_zipIdx_eq_separated (sep : Char) (cs : List Char) (k : Nat) (hk : 0 < k) :
    ((cs.zipIdx k).flatMap fun (c, i) =>
      if true = true ∧ 0 < i ∧ (k + cs.length - i) % 3 = 0 then [sep, c] else [c]) =
      separated sep cs := by
  induction cs generalizing k with
  | nil => rfl
  | cons c cs ih =>
      have hrest := ih (k + 1) (by omega)
      rw [show k + 1 + cs.length = k + (c :: cs).length by rw [List.length_cons]; omega] at hrest
      rw [List.zipIdx_cons, List.flatMap_cons, hrest, separated_cons]
      dsimp only
      rw [List.length_cons, show k + (cs.length + 1) - k = cs.length + 1 by omega]
      by_cases hfull : (cs.length + 1) % 3 = 0
      · rw [if_pos ⟨rfl, hk, hfull⟩, if_pos hfull]
        rfl
      · rw [if_neg fun h => hfull h.2.2, if_neg hfull]
        rfl

theorem grouped_true (sep : Char) {cs : List Char} (h : cs ≠ []) :
    Grouped sep cs (grouped true sep cs) := by
  obtain ⟨c, cs, rfl⟩ := List.exists_cons_of_ne_nil h
  obtain ⟨first, rest, hfirst, hrest, hcs, htext⟩ := separated_eq sep cs
  have htail := flatMap_zipIdx_eq_separated sep cs 1 one_pos
  rw [show 1 + cs.length = (c :: cs).length by rw [List.length_cons]; omega] at htail
  refine ⟨c :: first, rest, List.cons_ne_nil _ _, ?_, hrest, ?_, ?_⟩
  · rw [List.length_cons, hfirst]
    omega
  · rw [List.cons_append, ← hcs]
  · unfold grouped
    rw [List.zipIdx_cons, List.flatMap_cons, htail, htext]
    rfl

theorem grouped_false (sep : Char) (cs : List Char) : grouped false sep cs = cs := by
  have hone : (fun x : Char × Nat =>
      if false = true ∧ 0 < x.2 ∧ (cs.length - x.2) % 3 = 0 then [sep, x.1] else [x.1]) =
        fun x => [x.1] := by
    funext x
    exact if_neg fun h => Bool.false_ne_true h.1
  change cs.zipIdx.flatMap (fun x : Char × Nat =>
      if false = true ∧ 0 < x.2 ∧ (cs.length - x.2) % 3 = 0 then [sep, x.1] else [x.1]) = cs
  rw [hone, ← List.map_eq_flatMap, List.zipIdx_map_fst]

/-! ## The exponent form -/

/-- The digits General shows from `1E+15`, with a decimal mark. -/
def exponentText (mark : Char) (n : F64) : List Char :=
  let digits := padded 15 (fifteenDigits n).1
  let frac := trimEnd '0' (digits.drop 1)
  (if isSignNegative n then ['-'] else []) ++ digits.take 1 ++
    (if frac = [] then [] else mark :: frac) ++ 'E' :: '+' :: padded 2 (fifteenDigits n).2.natAbs

theorem trimEnd_append (c : Char) (as bs : List Char) :
    trimEnd c (as ++ bs) = if trimEnd c bs = [] then trimEnd c as else as ++ trimEnd c bs := by
  unfold trimEnd List.rdropWhile
  rw [List.reverse_append, List.dropWhile_append]
  simp only [List.isEmpty_iff, List.reverse_eq_nil_iff]
  split
  · rfl
  · rw [List.reverse_append, List.reverse_reverse]

theorem trimEnd_of_notMem {c : Char} {cs : List Char} (h : c ∉ cs) : trimEnd c cs = cs := by
  unfold trimEnd
  induction cs using List.reverseRecOn with
  | nil => rfl
  | append_singleton cs x =>
      rw [List.rdropWhile_concat_neg _ _ _ (by
        intro heq
        exact h (by rw [of_decide_eq_true heq]; simp))]

theorem mem_of_mem_trimEnd {c x : Char} {cs : List Char} (h : x ∈ trimEnd c cs) : x ∈ cs := by
  unfold trimEnd List.rdropWhile at h
  exact List.mem_reverse.mp ((List.dropWhile_sublist _).subset (List.mem_reverse.mp h))

/-- The mantissa without its last zeros, nor a point after which nothing is. -/
theorem trim_mantissa {sign lead frac : List Char} (hlead : '.' ∉ sign ++ lead)
    (hfrac : '.' ∉ frac) :
    trimEnd '.' (trimEnd '0' (sign ++ (lead ++ '.' :: frac))) =
      sign ++ lead ++ (if trimEnd '0' frac = [] then [] else '.' :: trimEnd '0' frac) := by
  have hpoint : trimEnd '0' ('.' :: frac) = '.' :: trimEnd '0' frac := by
    have happend := trimEnd_append '0' ['.'] frac
    have hone : trimEnd '0' ['.'] = ['.'] := by decide
    rw [hone] at happend
    change trimEnd '0' (['.'] ++ frac) = _
    rw [happend]
    split
    · next hnil => rw [hnil]
    · rfl
  rw [← List.append_assoc, trimEnd_append, hpoint, if_neg (List.cons_ne_nil _ _), trimEnd_append]
  have hkeep : '.' ∉ trimEnd '0' frac := fun hmem => hfrac (mem_of_mem_trimEnd hmem)
  have hafter := trimEnd_append '.' ['.'] (trimEnd '0' frac)
  have hone : trimEnd '.' ['.'] = [] := by decide
  rw [trimEnd_of_notMem hkeep, hone] at hafter
  change (if trimEnd '.' (['.'] ++ trimEnd '0' frac) = [] then trimEnd '.' (sign ++ lead)
    else sign ++ lead ++ trimEnd '.' (['.'] ++ trimEnd '0' frac)) = _
  rw [hafter]
  by_cases hnil : trimEnd '0' frac = []
  · rw [if_pos hnil, if_pos rfl, if_pos hnil, List.append_nil, trimEnd_of_notMem hlead]
  · rw [if_neg hnil, if_neg (by simp), if_neg hnil]
    rfl

/-! ## Formatting -/

variable (toText : F64 → List Char)

theorem point_notMem_digits (n : F64) : '.' ∉ padded 15 (fifteenDigits n).1 :=
  notMem_of_isDigit (fun _ hc => isDigit_of_mem_padded hc) (by decide)

theorem displayNumber_eq {n : F64} (hn : n.isFinite = true) (h : ¬(fifteenDigits n).2 < 15) :
    displayNumber toText n = exponentText '.' n := by
  obtain ⟨hlow, hhigh⟩ := fifteenDigits_exponent n
  have hzero : n.eq .zero = false := by
    cases n with
    | nan => rfl
    | inf s => rfl
    | finite s u hu =>
        apply decide_eq_false
        intro heq
        have hu0 : u = 0 := by
          unfold F64.signed at heq
          cases s <;> simp at heq <;> exact heq
        rw [fifteenDigits_finite, Scientific.scientific, if_pos hu0] at h
        exact h (by norm_num)
  have hsign : '.' ∉ (if isSignNegative n then ['-'] else []) ++
      (padded 15 (fifteenDigits n).1).take 1 := by
    intro hmem
    cases List.mem_append.mp hmem with
    | inl hminus =>
        split at hminus
        · exact absurd (List.mem_singleton.mp hminus) (by decide)
        · cases hminus
    | inr hdigit => exact point_notMem_digits n (List.mem_of_mem_take hdigit)
  have hfrac : '.' ∉ (padded 15 (fifteenDigits n).1).drop 1 := fun hmem =>
    point_notMem_digits n (List.mem_of_mem_drop hmem)
  unfold displayNumber
  rw [if_neg (by simp [hn, hzero])]
  simp only [splitOnce_scientificText, Option.getD_some, parseI32_toString hlow hhigh]
  have hlarge : ¬(-4 ≤ (fifteenDigits n).2 ∧ (fifteenDigits n).2 < 15) := fun hrange => h hrange.2
  rw [if_neg hlarge, if_neg (show ¬(fifteenDigits n).2 < 0 by omega)]
  unfold mantissaText exponentText
  rw [trim_mantissa hsign hfrac]

/-- The mark is written where General has its point. -/
theorem map_exponentText (mark : Char) (n : F64) :
    (exponentText '.' n).map (fun c => if c = '.' then mark else c) = exponentText mark n := by
  have hkeep : ∀ cs : List Char, '.' ∉ cs →
      cs.map (fun c => if c = '.' then mark else c) = cs := by
    intro cs h
    calc cs.map (fun c => if c = '.' then mark else c) = cs.map id := by
          apply List.map_congr_left
          intro c hc
          apply if_neg
          intro heq
          exact h (heq ▸ hc)
      _ = cs := List.map_id cs
  have hdigits := point_notMem_digits n
  have hpadded : '.' ∉ padded 2 (fifteenDigits n).2.natAbs :=
    notMem_of_isDigit (fun _ hc => isDigit_of_mem_padded hc) (by decide)
  have hfrac : '.' ∉ trimEnd '0' ((padded 15 (fifteenDigits n).1).drop 1) :=
    fun hmem => hdigits (List.mem_of_mem_drop (mem_of_mem_trimEnd hmem))
  have hsign : '.' ∉ (if isSignNegative n then ['-'] else [] : List Char) := by
    split <;> decide
  unfold exponentText
  dsimp only
  rw [List.map_append, List.map_append, List.map_append, List.map_cons, List.map_cons,
    hkeep _ hsign, hkeep _ fun hmem => hdigits (List.mem_of_mem_take hmem), hkeep _ hpadded,
    if_neg (show 'E' ≠ '.' by decide), if_neg (show '+' ≠ '.' by decide)]
  by_cases hnil : trimEnd '0' ((padded 15 (fifteenDigits n).1).drop 1) = []
  · rw [if_pos hnil, if_pos hnil]
    rfl
  · rw [if_neg hnil, if_neg hnil, List.map_cons, if_pos rfl, hkeep _ hfrac]

/-- A number to some decimals: the sign, the integer digits, grouped or not, and
as many fraction digits as decimals. -/
structure Rendered (locale : Locale) (grouping neg : Bool) (N d : Nat) (int text : List Char) :
    Prop where
  text : text = (if neg ∧ N ≠ 0 then ['-'] else []) ++ int ++
    if d = 0 then [] else locale.decimal :: padded d (N % 10 ^ d)
  decimals : d ≠ 0 → (padded d (N % 10 ^ d)).length = d
  grouped : grouping = true → Grouped locale.group (Nat.toDigits 10 (N / 10 ^ d)) int
  ungrouped : grouping = false → int = Nat.toDigits 10 (N / 10 ^ d)

/-- Formatted numbers are correctly rounded. -/
theorem formatNumber_spec (n : F64) (hn : n.isFinite = true) (d : Nat) (grouping : Bool)
    (locale : Locale) :
    (magnitude n = 0 ∧ rounded n = 0 ∨
      Scientific.Rounds 14 (magnitude n) (fifteenDigits n).1 (fifteenDigits n).2) ∧
    (rounded n < 10 ^ 15 → ∃ int, Rendered locale grouping (isSignNegative n) (places n d) d int
      (formatNumber toText n (some ⟨some d, grouping⟩) locale)) ∧
    (10 ^ 15 ≤ rounded n →
      formatNumber toText n (some ⟨some d, grouping⟩) locale = exponentText locale.decimal n ∧
        displayNumber toText n = exponentText '.' n) := by
  refine ⟨?_, fun hlt => ?_, fun hge => ?_⟩
  · by_cases hzero : magnitude n = 0
    · refine Or.inl ⟨hzero, ?_⟩
      unfold rounded
      rw [fifteenDigits_zero hzero]
      simp
    · exact Or.inr (fifteenDigits_rounds hzero)
  · have hfixed := fixed_eq n d ((rounded_lt_iff n).mp hlt)
    have hdecimals : d ≠ 0 → (padded d (places n d % 10 ^ d)).length = d := fun hd =>
      length_leftpad_toDigits (Nat.pos_of_ne_zero hd) (Nat.mod_lt _ (by positivity))
    have hfrac : ∀ mark : Char, (if (if d = 0 then [] else padded d (places n d % 10 ^ d)) = []
        then [] else mark :: if d = 0 then [] else padded d (places n d % 10 ^ d)) =
          if d = 0 then [] else mark :: padded d (places n d % 10 ^ d) := by
      intro mark
      by_cases hd : d = 0
      · rw [if_pos hd, if_pos rfl, if_pos hd]
      · rw [if_neg hd, if_neg hd, if_neg fun hnil => hd (by rw [← hdecimals hd, hnil]; rfl)]
    unfold formatNumber
    simp only [hn, Bool.true_eq_false, if_false, hfixed, hfrac]
    refine ⟨grouped grouping locale.group (Nat.toDigits 10 (places n d / 10 ^ d)), ?_,
      hdecimals, ?_, ?_⟩
    · simp only [Bool.and_eq_true, decide_eq_true_eq]
    · intro hgroup
      rw [hgroup]
      exact grouped_true _ Nat.toDigits_ne_nil
    · intro hgroup
      rw [hgroup]
      exact grouped_false _ _
  · have hexp : ¬(fifteenDigits n).2 < 15 := fun h =>
      absurd ((rounded_lt_iff n).mpr h) (not_lt.mpr hge)
    have hgeneral := displayNumber_eq toText hn hexp
    refine ⟨?_, hgeneral⟩
    unfold formatNumber
    simp only [hn, Bool.true_eq_false, if_false, fixed_eq_none n d hexp]
    rw [hgeneral, map_exponentText]

theorem representable_half : representable (5 * 2 ^ 1073) = true :=
  F64.representable_iff.mpr ⟨by decide +kernel, 5, 1073, by norm_num, rfl⟩

/-- Two and a half to no decimals. -/
theorem formatNumber_spec_half :
    let n := F64.finite true (5 * 2 ^ 1073) representable_half
    ∃ int, Rendered .de true true (places n 0) 0 int
      (formatNumber (fun _ => []) n (some ⟨some 0, true⟩) .de) := by
  intro n
  have hexp : (Scientific.scientific 14 (5 * 2 ^ 1073) F64.one).2 < 15 := by decide +kernel
  exact (formatNumber_spec (fun _ => []) n rfl 0 true .de).2.1 ((rounded_lt_iff n).mpr hexp)

end Improv.CoreModel.Number
