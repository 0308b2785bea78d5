import Improv.Engine.ExactValue
import Mathlib.Algebra.BigOperators.Group.Multiset.Basic
import Mathlib.Algebra.Ring.GeomSum
import Mathlib.Data.Multiset.Count
/-!
# The sum of terms

What terms should sum to, and the value of a compact sum of them: the exact sum
rounded once, except where it is a nonzero multiple of the last digit's weight.
-/

namespace Improv.Engine

open Lib Lib.SignedDigits Lib.F64

/-! ## The sum of terms -/

/-- The exact sum of the finite terms, in units. -/
def sumUnits (s : Multiset F64) : Int := (s.map unitsOf).sum

@[simp] theorem sumUnits_zero : sumUnits 0 = 0 := rfl

@[simp] theorem sumUnits_cons (x : F64) (s : Multiset F64) :
    sumUnits (x ::ₘ s) = unitsOf x + sumUnits s := by
  simp [sumUnits]

@[simp] theorem sumUnits_add (s t : Multiset F64) : sumUnits (s + t) = sumUnits s + sumUnits t := by
  simp [sumUnits]

/-- What some terms leave in the flags. -/
def flagsOfAll (s : Multiset F64) : SumFlags :=
  ⟨0 < s.countP (· ≠ negZero), .inf false ∈ s, .inf true ∈ s, .nan ∈ s⟩

/-- The sum of some terms: the exact sum of the finite ones rounded once, -0.0
when no other was added, and IEEE addition's result on infinities and NaNs. -/
def ieeeSum (s : Multiset F64) : F64 :=
  if .nan ∈ s ∨ (.inf false ∈ s ∧ .inf true ∈ s) then .nan
  else if .inf false ∈ s then .inf false
  else if .inf true ∈ s then .inf true
  else if sumUnits s = 0 then if 0 < s.countP (· ≠ negZero) then F64.zero else negZero
  else nearest (sumUnits s)

/-- Only finite terms, and their sum is a nonzero multiple of what the last
digit weighs. -/
def Misrounded (s : Multiset F64) : Prop :=
  .nan ∉ s ∧ .inf false ∉ s ∧ .inf true ∉ s ∧ sumUnits s ≠ 0 ∧ radix ^ 66 ∣ sumUnits s

/-! ## The value of a compact sum -/

/-- From here the carry digit of an expansion leaves 32 bits. -/
def clampFrom : Int := carryRange - 2 ^ 31 * ((radix ^ 66 - 1) / (radix - 1))

theorem clampFrom_mul : clampFrom * (radix - 1) =
    2 ^ 31 * (radix ^ 66 * (radix - 1) - (radix ^ 66 - 1)) := by
  have hdvd : radix - 1 ∣ radix ^ 66 - 1 := by
    have h := sub_dvd_pow_sub_pow radix 1 66
    rwa [one_pow] at h
  obtain ⟨q, hq⟩ := hdvd
  unfold clampFrom carryRange
  rw [hq, Int.mul_ediv_cancel_left _ (by norm_num [radix] : radix - 1 ≠ 0)]
  ring

namespace ExactSum

/-- The carry digit of an expansion in range: it is within 32 bits, or just one
past them. -/
theorem Expansion.cases {d : List Int} {V : Int} (h : Expansion d V) (hV : |V| < carryRange) :
    ∃ low t, d = low ++ [t] ∧ low.length = 66 ∧ (∀ x ∈ low, Balanced (2 ^ 31) x) ∧
      V = ofDigits radix low + radix ^ 66 * t ∧
      ((Balanced (2 ^ 31) t ∧ V < clampFrom) ∨ (t = 2 ^ 31 ∧ clampFrom ≤ V)) := by
  have hne : d ≠ [] := by
    intro hnil
    have hlen := h.length
    rw [hnil] at hlen
    exact absurd hlen (by decide)
  have hd := List.dropLast_append_getLast hne
  have hlen : d.dropLast.length = 66 := by
    rw [List.length_dropLast, h.length]
    rfl
  have hval := h.value
  rw [← hd, ofDigits_append, hlen, ofDigits_cons, ofDigits_nil, mul_zero, add_zero] at hval
  refine ⟨d.dropLast, d.getLast hne, hd.symm, hlen, h.balanced, hval.symm, ?_⟩
  have hlow := abs_lt.mp (abs_ofDigits_lt (by norm_num : (1 : Int) ≤ 2 ^ 31)
    fun x hx => abs_le_of_balanced (h.balanced x hx))
  rw [show (2 * 2 ^ 31 : Int) = radix from rfl, hlen] at hlow
  have hup := @ofDigits_mul_le radix (2 ^ 31 - 1) (by norm_num [radix]) d.dropLast
    fun x hx => by have := (h.balanced x hx).2; omega
  have hdown := abs_ofDigits_mul_le (R := radix) (by norm_num [radix])
    fun x hx => abs_le_of_balanced (h.balanced x hx)
  rw [hlen] at hup hdown
  have hclamp := clampFrom_mul
  have hV' := abs_lt.mp hV
  unfold carryRange at hV'
  have hneg := neg_le_of_abs_le (le_refl |ofDigits radix d.dropLast|)
  generalize ofDigits radix d.dropLast = L at *
  generalize d.getLast hne = t at *
  rw [show radix - 1 = 2 ^ 32 - 1 by norm_num [radix]] at hup hdown hclamp
  have hP : (1 : Int) ≤ radix ^ 66 := one_le_pow₀ (by norm_num [radix])
  generalize radix ^ 66 = P at *
  have htop : t ≤ 2 ^ 31 := by
    by_contra hgt
    have hmul : P * (2 ^ 31 + 1) ≤ P * t := mul_le_mul_of_nonneg_left (by omega) (by omega)
    omega
  have hbottom : -2 ^ 31 ≤ t := by
    by_contra hlt
    have hmul : P * t ≤ P * (-2 ^ 31 - 1) := mul_le_mul_of_nonneg_left (by omega) (by omega)
    omega
  by_cases heq : t = 2 ^ 31
  · right
    refine ⟨heq, ?_⟩
    rw [heq] at hval
    omega
  · left
    refine ⟨⟨hbottom, by omega⟩, ?_⟩
    have hmul : P * t ≤ P * (2 ^ 31 - 1) := mul_le_mul_of_nonneg_left (by omega) (by omega)
    omega

theorem map_clampDigit {low : List Int} (h : ∀ x ∈ low, Balanced (2 ^ 31) x) :
    low.map clampDigit = low :=
  (List.map_congr_left fun x hx => clampDigit_of_balanced (h x hx)).trans (List.map_id _)

theorem trim_last {k : Int} (hk : k ≠ 0) :
    trim 0 (List.replicate 66 0 ++ [k]) = (66, [k]) := by
  have hpad := trim_pad 66 0 [k]
  rw [List.replicate_zero, List.append_nil] at hpad
  rw [hpad]
  simp [trim, List.rdropWhile, hk]

theorem eq_zero_of_dvd {P L : Int} (hlow : -P < L) (hhigh : L < P) (hdvd : P ∣ L) : L = 0 :=
  Int.eq_zero_of_abs_lt_dvd hdvd (abs_lt.mpr ⟨hlow, hhigh⟩)

/-- Digits that denote a multiple of the last one's weight are zero below it. -/
theorem low_eq_zeros {low : List Int} (hlen : low.length = 66)
    (hlow : ∀ x ∈ low, Balanced (2 ^ 31) x) {t : Int}
    (hdvd : radix ^ 66 ∣ ofDigits radix low + radix ^ 66 * t) : low = List.replicate 66 0 := by
  have hlt := abs_lt.mp (abs_ofDigits_lt (by norm_num : (1 : Int) ≤ 2 ^ 31)
    fun x hx => abs_le_of_balanced (hlow x hx))
  rw [show (2 * 2 ^ 31 : Int) = radix from rfl, hlen] at hlt
  have hzero := eq_zero_of_dvd hlt.1 hlt.2 ((Int.dvd_add_left (Int.dvd_mul_right _ _)).mp hdvd)
  apply eq_of_ofDigits_eq (h := 2 ^ 31) (by rw [hlen, List.length_replicate])
    (fun x hx => hlow x (List.dropLast_subset _ hx))
  · intro x hx
    rw [List.eq_of_mem_replicate (List.dropLast_subset _ hx)]
    exact balanced_zero (by norm_num)
  · rw [show (2 * 2 ^ 31 : Int) = radix from rfl, hzero]
    exact (ofDigits_eq_zero fun x hx => List.eq_of_mem_replicate hx).symm

/-- What finite digits that denote `V` come out as: nearest, but for the
multiples of the last digit's weight. -/
def valueOf (f : SumFlags) (V : Int) : F64 :=
  if V = 0 then if f.notNegZero then F64.zero else negZero
  else if radix ^ 66 ∣ V then F64.ofUnits (0 < V) ((V / radix ^ 66).natAbs * 2 ^ 64)
  else nearest V

theorem value_trim {low : List Int} {t : Int} (hlen : low.length = 66)
    (hlow : ∀ x ∈ low, Balanced (2 ^ 31) x) (ht : Balanced (2 ^ 31) t) {f : SumFlags}
    (hf : Exact.Finite f) :
    Exact.value ⟨(trim 0 (low ++ [t])).1, (trim 0 (low ++ [t])).2, f⟩ =
      valueOf f (ofDigits radix low + radix ^ 66 * t) := by
  have hall : ∀ x ∈ low ++ [t], Balanced (2 ^ 31) x := by
    intro x hx
    rw [List.mem_append, List.mem_singleton] at hx
    cases hx with
    | inl h => exact hlow x h
    | inr h => rwa [h]
  have hval : ofDigits radix (low ++ [t]) = ofDigits radix low + radix ^ 66 * t := by
    rw [ofDigits_append, hlen, ofDigits_cons, ofDigits_nil, mul_zero, add_zero]
  have htrim := ofDigits_trim radix 0 (low ++ [t])
  rw [pow_zero, one_mul, hval] at htrim
  have hP : (0 : Int) < radix ^ 66 := pow_pos (by norm_num [radix]) 66
  unfold valueOf
  by_cases hdvd : radix ^ 66 ∣ ofDigits radix low + radix ^ 66 * t
  · have hzeros := low_eq_zeros hlen hlow hdvd
    have hV : ofDigits radix low + radix ^ 66 * t = radix ^ 66 * t := by
      rw [hzeros, ofDigits_eq_zero fun x hx => List.eq_of_mem_replicate hx, zero_add]
    rw [if_pos hdvd, hV, hzeros]
    by_cases hzero : t = 0
    · have hnil : trim 0 (List.replicate 66 0 ++ [t]) = (0, []) := by
        rw [hzero, show [(0 : Int)] = List.replicate 1 0 from rfl, List.replicate_append_replicate,
          trim_replicate]
      rw [if_pos (by rw [hzero, mul_zero]), hnil, Exact.value_of_nil hf rfl]
    · have hvalue := @Exact.value_of_last ⟨66, [t], f⟩ hf t rfl
      rw [if_neg (mul_ne_zero hP.ne' hzero), trim_last hzero, hvalue,
        Exact.rounded_last hzero (abs_le_of_balanced ht), Int.mul_ediv_cancel_left _ hP.ne']
      congr 1
      rw [decide_eq_decide]
      exact (mul_pos_iff_of_pos_left hP).symm
  · have hne : ofDigits radix low + radix ^ 66 * t ≠ 0 := fun hc => hdvd (hc ▸ Int.dvd_zero _)
    have hnotNil : (trim 0 (low ++ [t])).2 ≠ [] := by
      intro hnil
      rw [hnil, ofDigits_nil, mul_zero] at htrim
      exact hne htrim.symm
    have hlast := List.getLast?_eq_some_getLast hnotNil
    have hcount := length_trim_le 0 (low ++ [t]) hnotNil
    rw [List.length_append, hlen, List.length_singleton, zero_add] at hcount
    have hlo : (trim 0 (low ++ [t])).1 ≠ 66 := by
      intro hlo
      rw [hlo] at htrim
      exact hdvd ⟨_, htrim.symm⟩
    rw [if_neg hne, if_neg hdvd, Exact.value_of_last hf hlast, ← htrim]
    exact Exact.rounded_eq_nearest hlast (getLast_trim_ne_zero hlast)
      (fun x hx => abs_le_of_balanced (hall x (mem_of_mem_trim hx))) hcount hlo

theorem nearest_of_ge {V : Int} (h : 2 ^ 2098 ≤ |V|) : nearest V = .inf (V < 0) := by
  have hnat : 2 ^ 2098 ≤ V.natAbs := by
    zify
    exact h
  have hle := le_roundUnits (significand_pow 2098) hnat
  unfold nearest F64.ofUnits
  rw [dif_neg fun hrep => absurd (representable_iff.mp hrep).1 (not_lt.mpr hle)]

/-- The value of a compact sum in range. -/
theorem value_compact {d : List Int} {V : Int} (h : Expansion d V) (hV : |V| < carryRange)
    {f : SumFlags} (hf : Exact.Finite f) : (compact d f).value = valueOf f V := by
  obtain ⟨low, t, rfl, hlen, hlow, hval, hcase⟩ := h.cases hV
  unfold compact
  rw [List.map_append, map_clampDigit hlow, List.map_singleton]
  rw [value_trim hlen hlow (balanced_clampDigit t) hf]
  cases hcase with
  | inl hfits => rw [clampDigit_of_balanced hfits.1, hval]
  | inr hclamped =>
      -- one unit of the carry digit is lost, far past the largest double
      obtain ⟨rfl, hge⟩ := hclamped
      have hclamp : clampDigit (2 ^ 31) = 2 ^ 31 - 1 := by decide
      have hW : ofDigits radix low + radix ^ 66 * (2 ^ 31 - 1) = V - radix ^ 66 := by
        rw [hval]
        ring
      rw [hclamp, hW]
      have hmul := clampFrom_mul
      rw [show radix - 1 = 2 ^ 32 - 1 by norm_num [radix]] at hmul
      have hP : radix ^ 66 = 2 ^ 14 * 2 ^ 2098 := by rw [radix_eq, ← pow_mul, ← pow_add]
      have hnotDvd : ¬radix ^ 66 ∣ V := by
        intro hdvd
        have hzeros := low_eq_zeros hlen hlow (hval ▸ hdvd)
        rw [hzeros, ofDigits_eq_zero fun x hx => List.eq_of_mem_replicate hx, zero_add] at hval
        have hlt := (abs_lt.mp hV).2
        unfold carryRange at hlt
        rw [hval, mul_comm] at hlt
        exact lt_irrefl _ hlt
      have hnotDvd' : ¬radix ^ 66 ∣ V - radix ^ 66 := by
        intro hdvd
        have hsum := Int.dvd_add hdvd (Int.dvd_refl (radix ^ 66))
        rw [sub_add_cancel] at hsum
        exact hnotDvd hsum
      rw [hP] at hmul hnotDvd hnotDvd' ⊢
      have hpos : (1 : Int) ≤ 2 ^ 2098 := one_le_pow₀ (by norm_num)
      generalize hB : (2 : Int) ^ 2098 = B at hmul hnotDvd hnotDvd' hpos ⊢
      unfold valueOf
      rw [hP, hB, if_neg (by omega), if_neg hnotDvd', if_neg (by omega), if_neg hnotDvd,
        nearest_of_ge (by rw [hB, abs_of_nonneg (by omega)]; omega),
        nearest_of_ge (by rw [hB, abs_of_nonneg (by omega)]; omega),
        decide_eq_false (by omega), decide_eq_false (by omega)]

theorem value_flagsOfAll {d : List Int} {V : Int} (h : Expansion d V) (hV : |V| < carryRange)
    (s : Multiset F64) :
    (compact d (flagsOfAll s)).value =
      if .nan ∈ s ∨ (.inf false ∈ s ∧ .inf true ∈ s) then .nan
      else if .inf false ∈ s then .inf false
      else if .inf true ∈ s then .inf true
      else valueOf (flagsOfAll s) V := by
  by_cases hnan : F64.nan ∈ s
  · simp [Exact.value, compact, flagsOfAll, hnan]
  · by_cases hpos : F64.inf false ∈ s
    · by_cases hneg : F64.inf true ∈ s
      · simp [Exact.value, compact, flagsOfAll, hpos, hneg]
      · simp [Exact.value, compact, flagsOfAll, hnan, hpos, hneg]
    · by_cases hneg : F64.inf true ∈ s
      · simp [Exact.value, compact, flagsOfAll, hnan, hpos, hneg]
      · have hf : Exact.Finite (flagsOfAll s) :=
          ⟨decide_eq_false hnan, decide_eq_false hpos, decide_eq_false hneg⟩
        rw [value_compact h hV hf, if_neg (by simp [hnan, hpos]), if_neg hpos, if_neg hneg]

/-- A nonzero multiple of the last digit's weight is past the largest double,
and its value is not. -/
theorem scaled_ne_nearest {V : Int} (hV : |V| < carryRange) (hne : V ≠ 0)
    (hdvd : radix ^ 66 ∣ V) :
    F64.ofUnits (0 < V) ((V / radix ^ 66).natAbs * 2 ^ 64) ≠ nearest V := by
  obtain ⟨k, rfl⟩ := hdvd
  have hP : (0 : Int) < radix ^ 66 := pow_pos (by norm_num [radix]) 66
  have hk : k ≠ 0 := fun hc => hne (by rw [hc, mul_zero])
  unfold carryRange at hV
  rw [abs_mul, abs_of_pos hP, mul_comm, mul_lt_mul_iff_left₀ hP, Int.abs_eq_natAbs] at hV
  have hlarge : 2 ^ 2098 ≤ |radix ^ 66 * k| := by
    have hone : 1 ≤ |k| := Int.one_le_abs hk
    have hpow : radix ^ 66 = 2 ^ 14 * 2 ^ 2098 := by rw [radix_eq, ← pow_mul, ← pow_add]
    have hpos : (1 : Int) ≤ 2 ^ 2098 := one_le_pow₀ (by norm_num)
    rw [abs_mul, abs_of_pos hP]
    calc (2 : Int) ^ 2098 ≤ radix ^ 66 * 1 := by rw [hpow]; omega
      _ ≤ radix ^ 66 * |k| := mul_le_mul_of_nonneg_left hone hP.le
  have hrep : representable (k.natAbs * 2 ^ 64) = true :=
    representable_mul_pow (k := 31) (by omega) (by norm_num) (significand_of_lt (by omega))
  rw [nearest_of_ge hlarge, Int.mul_ediv_cancel_left _ hP.ne', ofUnits_of_representable hrep]
  exact fun hc => by injection hc

/-- With the flags of its terms, a compact sum is rounded as their sum should
be, except for the multiples of the last digit's weight. -/
theorem value_eq_ieeeSum_iff {d : List Int} {s : Multiset F64} (h : Expansion d (sumUnits s))
    (hV : |sumUnits s| < carryRange) :
    (compact d (flagsOfAll s)).value = ieeeSum s ↔ ¬Misrounded s := by
  rw [value_flagsOfAll h hV]
  unfold ieeeSum Misrounded
  split
  · next hnan =>
      refine iff_of_true rfl fun hmis => ?_
      cases hnan with
      | inl hnan => exact hmis.1 hnan
      | inr hboth => exact hmis.2.1 hboth.1
  · next hnan =>
      split
      · next hpos => exact iff_of_true rfl fun hmis => hmis.2.1 hpos
      · next hpos =>
          split
          · next hneg => exact iff_of_true rfl fun hmis => hmis.2.2.1 hneg
          · next hneg =>
              unfold valueOf
              by_cases hzero : sumUnits s = 0
              · rw [if_pos hzero, if_pos hzero]
                refine iff_of_true ?_ fun hmis => hmis.2.2.2.1 hzero
                simp [flagsOfAll]
              · rw [if_neg hzero, if_neg hzero]
                by_cases hdvd : radix ^ 66 ∣ sumUnits s
                · rw [if_pos hdvd]
                  refine iff_of_false ?_ fun hmis =>
                    hmis ⟨fun hc => hnan (Or.inl hc), hpos, hneg, hzero, hdvd⟩
                  exact scaled_ne_nearest hV hzero hdvd
                · rw [if_neg hdvd]
                  exact iff_of_true rfl fun hmis => hdvd hmis.2.2.2.2

end ExactSum

/-! ## Bounds -/

theorem radix_pow_eq : radix ^ 66 = 2 ^ 14 * 2 ^ 2098 := by
  rw [radix_eq, ← pow_mul, ← pow_add]

theorem carryRange_eq : carryRange = 2 ^ 45 * 2 ^ 2098 := by
  unfold carryRange
  rw [radix_pow_eq, ← mul_assoc, ← pow_add]

theorem abs_unitsOf_lt (x : F64) : |unitsOf x| < 2 ^ 2098 := by
  cases x with
  | nan => rw [show unitsOf .nan = 0 from rfl, abs_zero]; positivity
  | inf s => rw [show unitsOf (.inf s) = 0 from rfl, abs_zero]; positivity
  | finite s u h =>
      have hlt := (representable_iff.mp h).1
      have habs : |unitsOf (.finite s u h)| = u := by
        rw [show unitsOf (.finite s u h) = signed s u from rfl]
        cases s <;> simp [signed]
      rw [habs]
      exact_mod_cast hlt

/-- Fewer than `2 ^ 45` terms stay within the carry digit's range. -/
theorem abs_sumUnits_le (s : Multiset F64) : |sumUnits s| ≤ s.card * 2 ^ 2098 := by
  induction s using Multiset.induction_on with
  | empty => simp
  | cons x s ih =>
      have hx := (abs_unitsOf_lt x).le
      rw [sumUnits_cons, Multiset.card_cons]
      push_cast
      calc |unitsOf x + sumUnits s| ≤ |unitsOf x| + |sumUnits s| := abs_add_le _ _
        _ ≤ 2 ^ 2098 + s.card * 2 ^ 2098 := add_le_add hx ih
        _ = (s.card + 1) * 2 ^ 2098 := by ring

theorem card_mul_lt {s : Multiset F64} (h : s.card < 2 ^ 45) :
    (s.card : Int) * 2 ^ 2098 + 2 ^ 2098 ≤ carryRange := by
  rw [carryRange_eq]
  calc (s.card : Int) * 2 ^ 2098 + 2 ^ 2098 = (s.card + 1) * 2 ^ 2098 := by ring
    _ ≤ 2 ^ 45 * 2 ^ 2098 := mul_le_mul_of_nonneg_right (by omega) (by positivity)

theorem abs_sumUnits_lt {s : Multiset F64} (h : s.card < 2 ^ 45) : |sumUnits s| < carryRange := by
  have hpos : (0 : Int) < 2 ^ 2098 := by positivity
  have hle := abs_sumUnits_le s
  have hcard := card_mul_lt h
  omega

theorem abs_sumUnits_le_digitRange {s : Multiset F64} (h : s.card ≤ 2 ^ 61) :
    |sumUnits s| ≤ digitRange := by
  have hcard : (s.card : Int) ≤ 2 ^ 61 := by omega
  calc |sumUnits s| ≤ s.card * 2 ^ 2098 := abs_sumUnits_le s
    _ ≤ 2 ^ 61 * 2 ^ 2098 := mul_le_mul_of_nonneg_right hcard (by positivity)
    _ = digitRange := by
      unfold digitRange
      rw [radix_pow_eq, ← mul_assoc]
      norm_num only

/-! ## Flags -/

@[simp] theorem flagsOfAll_zero : flagsOfAll 0 = .none := by
  simp [flagsOfAll, SumFlags.none]

theorem flagsOfAll_add (s t : Multiset F64) :
    flagsOfAll (s + t) = (flagsOfAll s).or (flagsOfAll t) := by
  unfold flagsOfAll SumFlags.or
  rw [Multiset.countP_add]
  simp only [Multiset.mem_add, Bool.decide_or, Nat.add_pos_iff_pos_or_pos]

theorem flagsOfAll_cons (x : F64) (s : Multiset F64) :
    flagsOfAll (x ::ₘ s) = (flagsOfAll s).or (flagsOf x) := by
  have hone : flagsOfAll {x} = flagsOf x := by
    unfold flagsOfAll flagsOf
    simp only [Multiset.mem_singleton, eq_comm (b := x)]
    rw [← Multiset.cons_zero, Multiset.countP_cons, Multiset.countP_zero]
    by_cases hx : x = negZero <;> simp [hx]
  rw [← Multiset.singleton_add, add_comm, flagsOfAll_add, hone]

end Improv.Engine
