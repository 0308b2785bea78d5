import Improv.Lib.Decimal
import Improv.Lib.ListLemmas
import Improv.Lib.Scientific
/-!
# Shortest digits

A finite magnitude in the fewest significant digits that read back as it, those
nearest to it where there are several.  Seventeen digits are always enough.  The
digits are written in positional notation or with an exponent.
-/

namespace Improv.Lib.Shortest

open F64 Scientific Decimal

/-! ## Digits -/

/-- The double nearest to `d` times a power of ten. -/
def decimal (neg : Bool) (d : Nat) (q : Int) : F64 :=
  if 0 ≤ q then .ofRatio neg (d * 10 ^ q.toNat) 1 else .ofRatio neg d (10 ^ (-q).toNat)

/-- `num / den` times a power of ten, rounded down and up, the nearer one first. -/
def nearest (num den : Nat) (k : Int) : List Nat :=
  let n := num * 10 ^ k.toNat
  let s := den * 10 ^ (-k).toNat
  if s ≤ 2 * (n % s) then [n / s + 1, n / s] else [n / s, n / s + 1]

/-- The `p + 1` digits that read as a magnitude, and the exponent of the first. -/
def digitsAt (p units : Nat) : Option (Nat × Int) :=
  let e := exponent10 units one
  let found := (nearest units one (p - e)).find? fun d =>
    decimal false d (e - p) = ofUnits false units
  found.map fun d => if d = 10 ^ (p + 1) then (10 ^ p, e + 1) else (d, e)

/-- The fewest digits that read as a magnitude, and the exponent of the first. -/
def shortest (units : Nat) : Option (Nat × Int) :=
  (List.range 17).findSome? fun p => digitsAt p units

/-! ## Seventeen digits -/

theorem evenQuotient_eq_of_near {n s q : Nat} (hlow : 2 * (q * s) < 2 * n + s)
    (hhigh : 2 * n < 2 * (q * s) + s) : evenQuotient n s = q := by
  by_cases hle : q * s ≤ n
  · have hsplit : n = s * q + (n - q * s) := by
      rw [Nat.mul_comm s q]
      omega
    rw [evenQuotient_of_split (by omega) hsplit, if_neg (by omega)]
  · have hpos : q ≠ 0 := fun h => hle (by rw [h, Nat.zero_mul]; exact Nat.zero_le n)
    obtain ⟨k, rfl⟩ : ∃ k, q = k + 1 := ⟨q - 1, by omega⟩
    rw [Nat.add_mul, Nat.one_mul] at hle hlow hhigh
    have hsplit : n = s * k + (n - k * s) := by
      rw [Nat.mul_comm s k]
      omega
    rw [evenQuotient_of_split (by omega) hsplit, if_pos (by omega)]

theorem roundUnits_eq (num den : Nat) : roundUnits num den =
    evenQuotient num (den * 2 ^ ((num / den).log2 - 52)) * 2 ^ ((num / den).log2 - 52) := by
  unfold roundUnits evenQuotient
  simp only [Bool.or_eq_true, decide_eq_true_eq, Bool.and_eq_true, beq_iff_eq]

/-- A quotient that is nearer to a number of 53 significant bits than its part in
`2 ^ 54` rounds to it. -/
theorem roundUnits_eq_of_near {u num den : Nat} (hu : Significand u) (hden : 0 < den)
    (hlow : 2 ^ 54 * (u * den) < 2 ^ 54 * num + u * den)
    (hhigh : 2 ^ 54 * num < 2 ^ 54 * (u * den) + u * den) : roundUnits num den = u := by
  by_cases hsmall : u < 2 ^ 53
  · have hbound : u * den < 2 ^ 53 * den := Nat.mul_lt_mul_of_pos_right hsmall hden
    have hquot : num / den < 2 ^ 53 := by
      rw [Nat.div_lt_iff_lt_mul hden]
      have hstep : u * den + den ≤ 2 ^ 53 * den := by
        calc u * den + den = (u + 1) * den := by ring
          _ ≤ 2 ^ 53 * den := Nat.mul_le_mul_right _ hsmall
      omega
    have hscale : (num / den).log2 - 52 = 0 := by
      have hlog := @log2_lt_of_lt (num / den) 52 hquot
      omega
    rw [roundUnits_eq, hscale, pow_zero, Nat.mul_one, Nat.mul_one]
    exact evenQuotient_eq_of_near (by omega) (by omega)
  · have hpos : u ≠ 0 := by omega
    have hlog : 53 ≤ u.log2 := le_log2_of_le (by omega)
    obtain ⟨k, hk⟩ : ∃ k, u.log2 = k + 53 := ⟨u.log2 - 53, by omega⟩
    obtain ⟨m, hm⟩ : ∃ m, u = m * 2 ^ (k + 1) := by
      obtain ⟨m, hm⟩ := hu.dvd
      rw [hk, show k + 53 - 52 = k + 1 by omega] at hm
      exact ⟨m, by rw [hm, Nat.mul_comm]⟩
    have hlogLow : 2 ^ (k + 53) ≤ u := by
      rw [← hk]
      exact Nat.log2_self_le hpos
    have hlogHigh : u < 2 ^ (k + 54) := by
      have h := @Nat.lt_log2_self u
      rwa [hk] at h
    have htwo : 0 < 2 ^ k := Nat.two_pow_pos k
    -- Everything is a multiple of `T`, half a unit in the last place.
    obtain ⟨T, hT⟩ : ∃ T, T = 2 ^ k * den := ⟨_, rfl⟩
    obtain ⟨M, hM⟩ : ∃ M, M = m * T := ⟨_, rfl⟩
    have hTpos : 0 < T := by
      rw [hT]
      exact Nat.mul_pos htwo hden
    have hpow : ∀ j, 2 ^ (k + j) * den = 2 ^ j * T := fun j => by
      rw [hT, pow_add]
      ring
    have huden : u * den = 2 * M := by
      rw [hM, hT, hm, pow_succ]
      ring
    have hmlow : 2 ^ 52 ≤ m := by
      rw [hm, show k + 53 = 52 + (k + 1) by omega, pow_add 2 52 (k + 1)] at hlogLow
      exact Nat.le_of_mul_le_mul_right hlogLow (Nat.two_pow_pos (k + 1))
    have hmhigh : m < 2 ^ 53 := by
      rw [hm, show k + 54 = 53 + (k + 1) by omega, pow_add 2 53 (k + 1)] at hlogHigh
      exact Nat.lt_of_mul_lt_mul_right hlogHigh
    have hMlow : 2 ^ 52 * T ≤ M := by
      rw [hM]
      exact Nat.mul_le_mul_right T hmlow
    have hMhigh : M + T ≤ 2 ^ 53 * T := by
      calc M + T = (m + 1) * T := by rw [hM]; ring
        _ ≤ 2 ^ 53 * T := Nat.mul_le_mul_right T hmhigh
    rw [huden] at hlow hhigh
    by_cases hcase : 2 ^ 53 * T ≤ num
    · have hquotLow : 2 ^ (k + 53) ≤ num / den := by
        rw [Nat.le_div_iff_mul_le hden, hpow]
        exact hcase
      have hquotHigh : num / den < 2 ^ (k + 53 + 1) := by
        rw [Nat.div_lt_iff_lt_mul hden, hpow 54]
        omega
      have hscale : (num / den).log2 - 52 = k + 1 := by
        rw [log2_eq hquotLow hquotHigh]
        omega
      have hstep : den * 2 ^ (k + 1) = 2 * T := by
        rw [Nat.mul_comm, hpow 1, pow_one]
      have hmul : m * (2 * T) = 2 * M := by
        rw [hM]
        ring
      have hround : evenQuotient num (2 * T) = m :=
        evenQuotient_eq_of_near (by rw [hmul]; omega) (by rw [hmul]; omega)
      rw [roundUnits_eq, hscale, hstep, hround, hm]
    · -- Just below a power of two the last place is half as large.
      have hMeq : M = 2 ^ 52 * T := by
        have hmeq : m = 2 ^ 52 := by
          by_contra hne
          have hnext : 2 ^ 52 * T + T ≤ M := by
            calc 2 ^ 52 * T + T = (2 ^ 52 + 1) * T := by ring
              _ ≤ m * T := Nat.mul_le_mul_right T (by omega)
              _ = M := hM.symm
          omega
        rw [hM, hmeq]
      have hquotLow : 2 ^ (k + 52) ≤ num / den := by
        rw [Nat.le_div_iff_mul_le hden, hpow]
        omega
      have hquotHigh : num / den < 2 ^ (k + 52 + 1) := by
        rw [Nat.div_lt_iff_lt_mul hden, hpow 53]
        omega
      have hscale : (num / den).log2 - 52 = k := by
        rw [log2_eq hquotLow hquotHigh]
        omega
      have hstep : den * 2 ^ k = T := by
        rw [hT, Nat.mul_comm]
      have hu : u = 2 ^ 53 * 2 ^ k := by
        apply Nat.eq_of_mul_eq_mul_right hden
        rw [huden, hMeq, Nat.mul_assoc, ← hT]
        ring
      have hround : evenQuotient num T = 2 ^ 53 := evenQuotient_eq_of_near (by omega) (by omega)
      rw [roundUnits_eq, hscale, hstep, hround, ← hu]

theorem decimal_eq (neg : Bool) (d : Nat) (q : Int) :
    decimal neg d q = .ofUnits neg (roundUnits (d * 10 ^ q.toNat * one) (10 ^ (-q).toNat)) := by
  unfold decimal
  by_cases hq : 0 ≤ q
  · rw [if_pos hq, show (-q).toNat = 0 by omega, pow_zero, ofRatio]
  · rw [if_neg hq, show q.toNat = 0 by omega, pow_zero, Nat.mul_one, ofRatio]

theorem roundUnits_ten (d den : Nat) (q : Int) :
    roundUnits (d * 10 * 10 ^ q.toNat * den) (10 ^ (-q).toNat) =
      roundUnits (d * 10 ^ (q + 1).toNat * den) (10 ^ (-(q + 1)).toNat) := by
  by_cases hq : 0 ≤ q
  · rw [show (-q).toNat = 0 by omega, show (-(q + 1)).toNat = 0 by omega,
      show (q + 1).toNat = q.toNat + 1 by omega, pow_succ]
    congr 1
    ring
  · have hnum : d * 10 * 10 ^ q.toNat * den = d * 10 ^ (q + 1).toNat * den * 10 := by
      rw [show q.toNat = 0 by omega, show (q + 1).toNat = 0 by omega]
      ring
    have hden : 10 ^ (-q).toNat = 10 ^ (-(q + 1)).toNat * 10 := by
      rw [show (-q).toNat = (-(q + 1)).toNat + 1 by omega, pow_succ]
    rw [hnum, hden, roundUnits_mul_right (by norm_num)]

/-- A digit less at the end is an exponent more. -/
theorem decimal_ten (neg : Bool) (d : Nat) (q : Int) :
    decimal neg (d * 10) q = decimal neg d (q + 1) := by
  rw [decimal_eq, decimal_eq, roundUnits_ten]

theorem one_pos : 0 < one := Nat.two_pow_pos 1074

/-- The digits of a quotient before they are rounded. -/
theorem quotient_bounds {num den : Nat} (p : Nat) (hnum : 0 < num) (hden : 0 < den) {k : Int}
    (hk : k = p - exponent10 num den) :
    10 ^ p ≤ num * 10 ^ k.toNat / (den * 10 ^ (-k).toNat) ∧
      num * 10 ^ k.toNat / (den * 10 ^ (-k).toNat) < 10 ^ (p + 1) := by
  obtain ⟨hlow, hhigh⟩ := exponent10_spec hnum hden
  rw [show exponent10 num den = p - k by omega] at hlow hhigh
  have hs : 0 < den * 10 ^ (-k).toNat := Nat.mul_pos hden (by positivity)
  have hsq : (0 : ℚ) < (den * 10 ^ (-k).toNat : Nat) := by exact_mod_cast hs
  have hquot := scaled_quotient num den k
  have hten : (0 : ℚ) < 10 ^ k := by positivity
  constructor
  · rw [Nat.le_div_iff_mul_le hs]
    have hle : ((10 ^ p : Nat) : ℚ) ≤ num / den * 10 ^ k := by
      calc ((10 ^ p : Nat) : ℚ) = 10 ^ ((p : Int) - k) * 10 ^ k := by
            rw [← zpow_add₀ (by norm_num), sub_add_cancel, zpow_natCast]
            push_cast
            rfl
        _ ≤ num / den * 10 ^ k := mul_le_mul_of_nonneg_right hlow hten.le
    rw [← hquot, le_div_iff₀ hsq] at hle
    exact_mod_cast hle
  · rw [Nat.div_lt_iff_lt_mul hs]
    have hlt : (num / den : ℚ) * 10 ^ k < ((10 ^ (p + 1) : Nat) : ℚ) := by
      calc (num / den : ℚ) * 10 ^ k < 10 ^ ((p : Int) - k + 1) * 10 ^ k :=
            mul_lt_mul_of_pos_right hhigh hten
        _ = ((10 ^ (p + 1) : Nat) : ℚ) := by
          rw [← zpow_add₀ (by norm_num), show (p : Int) - k + 1 + k = ((p + 1 : Nat) : Int) by
            push_cast; ring, zpow_natCast]
          push_cast
          rfl
    rw [← hquot, div_lt_iff₀ hsq] at hlt
    exact_mod_cast hlt

theorem mem_nearest {num den d : Nat} {k : Int} (h : d ∈ nearest num den k) :
    d = num * 10 ^ k.toNat / (den * 10 ^ (-k).toNat) ∨
      d = num * 10 ^ k.toNat / (den * 10 ^ (-k).toNat) + 1 := by
  unfold nearest at h
  simp only at h
  split at h
  · rcases List.mem_cons.mp h with h | h
    · exact .inr h
    · exact .inl (List.mem_singleton.mp h)
  · rcases List.mem_cons.mp h with h | h
    · exact .inl h
    · exact .inr (List.mem_singleton.mp h)

theorem scaled_mem_nearest (num den : Nat) (k : Int) : scaled num den k ∈ nearest num den k := by
  unfold scaled evenQuotient nearest
  simp only
  split
  · split
    · exact List.mem_cons_self
    · exact List.mem_cons_of_mem _ (List.mem_singleton_self _)
  · split
    · exact List.mem_cons_of_mem _ (List.mem_singleton_self _)
    · exact List.mem_cons_self

/-- Seventeen digits, correctly rounded, are nearer to the magnitude than its part
in `2 ^ 54`. -/
theorem scaled_gap {num den : Nat} (hnum : 0 < num) (hden : 0 < den) {k : Int}
    (hk : k = 16 - exponent10 num den) :
    |(num : ℚ) - scaled num den k * den / 10 ^ k| < num / 2 ^ 54 := by
  obtain ⟨hlow, -⟩ := exponent10_spec hnum hden
  rw [show exponent10 num den = 16 - k by omega] at hlow
  have hs : 0 < den * 10 ^ (-k).toNat := Nat.mul_pos hden (by positivity)
  have herror := evenQuotient_error (n := num * 10 ^ k.toNat) hs
  rw [scaled_quotient] at herror
  change |(num / den * 10 ^ k : ℚ) - scaled num den k| ≤ _ at herror
  generalize scaled num den k = d at herror ⊢
  have hnumq : (0 : ℚ) < num := by exact_mod_cast hnum
  have hdenq : (0 : ℚ) < den := by exact_mod_cast hden
  have hten : (0 : ℚ) < 10 ^ k := by positivity
  have hfactor : (num : ℚ) - d * den / 10 ^ k = (num / den * 10 ^ k - d) * (den / 10 ^ k) := by
    field_simp
  have hpart : (den : ℚ) / 10 ^ k ≤ num / 10 ^ 16 := by
    rw [le_div_iff₀ hdenq, zpow_sub₀ (by norm_num)] at hlow
    rw [le_div_iff₀ (by norm_num)]
    calc (den : ℚ) / 10 ^ k * 10 ^ 16 = 10 ^ (16 : Int) / 10 ^ k * den := by
          rw [div_mul_eq_mul_div, div_mul_eq_mul_div, mul_comm]
          norm_cast
      _ ≤ num := hlow
  have hpos : (0 : ℚ) < den / 10 ^ k := div_pos hdenq hten
  rw [hfactor, abs_mul, abs_of_pos hpos]
  calc |(num / den * 10 ^ k - d : ℚ)| * (den / 10 ^ k) ≤ 1 / 2 * (num / 10 ^ 16) :=
        mul_le_mul herror hpart hpos.le (by norm_num)
    _ = num / (2 * 10 ^ 16) := by ring
    _ < num / 2 ^ 54 := div_lt_div_of_pos_left hnumq (by norm_num) (by norm_num)

/-- A decimal that near to a number of 53 significant bits rounds to it. -/
theorem roundUnits_decimal {u d den : Nat} (hu : Significand u) {k : Int}
    (h : |(u : ℚ) - d * den / 10 ^ k| < u / 2 ^ 54) :
    roundUnits (d * 10 ^ (-k).toNat * den) (10 ^ (- -k).toNat) = u := by
  have hpos : 0 < 10 ^ (- -k).toNat := by positivity
  have hposq : (0 : ℚ) < ((10 ^ (- -k).toNat : Nat) : ℚ) := by exact_mod_cast hpos
  have hquot : ((d * 10 ^ (-k).toNat * den : Nat) : ℚ) / (10 ^ (- -k).toNat : Nat) =
      d * den / 10 ^ k := by
    have h := scaled_quotient (d * den) 1 (-k)
    rw [one_mul, Nat.cast_one, div_one, zpow_neg, ← div_eq_mul_inv] at h
    rw [show d * 10 ^ (-k).toNat * den = d * den * 10 ^ (-k).toNat by ring, h, Nat.cast_mul]
  rw [← hquot, abs_lt] at h
  generalize d * 10 ^ (-k).toNat * den = n at h ⊢
  generalize 10 ^ (- -k).toNat = s at hpos hposq h ⊢
  have hlow : (2 : ℚ) ^ 54 * u < 2 ^ 54 * (n / s) + u := by
    have hgap := h.2
    rw [lt_div_iff₀ (by norm_num)] at hgap
    linarith
  have hhigh : (2 : ℚ) ^ 54 * (n / s) < 2 ^ 54 * u + u := by
    have hgap : (n : ℚ) / s - u < u / 2 ^ 54 := by linarith [h.1]
    rw [lt_div_iff₀ (by norm_num)] at hgap
    linarith
  have hcancel : (n : ℚ) / s * s = n := div_mul_cancel₀ _ hposq.ne'
  apply roundUnits_eq_of_near hu hpos
  · have hlt := mul_lt_mul_of_pos_right hlow hposq
    rw [add_mul, mul_assoc, mul_assoc, hcancel] at hlt
    exact_mod_cast hlt
  · have hlt := mul_lt_mul_of_pos_right hhigh hposq
    rw [add_mul, mul_assoc, mul_assoc, hcancel] at hlt
    exact_mod_cast hlt

/-- Seventeen digits, correctly rounded, read as the magnitude. -/
theorem decimal_scaled {units : Nat} (hunits : 0 < units) (hrep : representable units = true)
    {k : Int} (hk : k = 16 - exponent10 units one) :
    decimal false (scaled units one k) (-k) = ofUnits false units := by
  rw [decimal_eq, roundUnits_decimal (representable_iff.mp hrep).2 (scaled_gap hunits one_pos hk)]

/-- The digits of some length, and that they read as the magnitude. -/
structure Reads (units p d : Nat) (e : Int) : Prop where
  low : 10 ^ p ≤ d
  high : d < 10 ^ (p + 1)
  reads : decimal false d (e - p) = ofUnits false units

theorem digitsAt_reads {p units d : Nat} {e : Int} (hunits : 0 < units)
    (h : digitsAt p units = some (d, e)) : Reads units p d e := by
  obtain ⟨hlow, hhigh⟩ := quotient_bounds p hunits one_pos rfl
  unfold digitsAt at h
  rw [Option.map_eq_some_iff] at h
  obtain ⟨d', hfind, heq⟩ := h
  have hmem := mem_nearest (List.mem_of_find?_eq_some hfind)
  have hread := List.find?_some hfind
  rw [decide_eq_true_eq] at hread
  generalize exponent10 units one = first at hlow hhigh hmem hread heq
  generalize units * 10 ^ ((p : Int) - first).toNat / (one * 10 ^ (-((p : Int) - first)).toNat) =
    q at hlow hhigh hmem
  by_cases hcarry : d' = 10 ^ (p + 1)
  · rw [if_pos hcarry] at heq
    cases heq
    refine ⟨Nat.le_refl _, Nat.pow_lt_pow_right (by norm_num) (Nat.lt_succ_self p), ?_⟩
    rw [show first + 1 - (p : Int) = first - p + 1 by ring, ← decimal_ten, ← pow_succ, ← hcarry]
    exact hread
  · rw [if_neg hcarry] at heq
    cases heq
    exact ⟨by omega, by omega, hread⟩

/-- The shortest digits of a magnitude are there, and read as it. -/
theorem shortest_reads {units : Nat} (hunits : 0 < units) (hrep : representable units = true) :
    ∃ p d e, shortest units = some (d, e) ∧ Reads units p d e := by
  have hseventeen : (digitsAt 16 units).isSome = true := by
    have hread := decimal_scaled hunits hrep rfl
    have hplace : ∀ e : Int, -(16 - e) = e - (16 : Nat) := fun e => by omega
    rw [hplace] at hread
    unfold digitsAt
    rw [Option.isSome_map, List.find?_isSome]
    exact ⟨_, scaled_mem_nearest units one _, decide_eq_true hread⟩
  have hsome : (shortest units).isSome = true := by
    unfold shortest
    rw [List.findSome?_isSome_iff]
    exact ⟨16, by decide, hseventeen⟩
  obtain ⟨⟨d, e⟩, hshortest⟩ := Option.isSome_iff_exists.mp hsome
  obtain ⟨p, -, hp⟩ := List.exists_of_findSome?_eq_some hshortest
  exact ⟨p, d, e, hshortest, digitsAt_reads hunits hp⟩

/-! ## Texts -/

/-- The shortest digits of a magnitude, and the exponent of the first. -/
def digitsOf (units : Nat) : Nat × Int :=
  if units = 0 then (0, 0) else (shortest units).getD (0, 0)

/-- Digits written out in full. -/
def positional (ds : List Char) (e : Int) : List Char :=
  if e < 0 then '0' :: '.' :: (List.replicate (-e - 1).toNat '0' ++ ds)
  else if (ds.length : Int) ≤ e + 1 then ds ++ List.replicate (e + 1 - ds.length).toNat '0'
  else ds.take (e + 1).toNat ++ '.' :: ds.drop (e + 1).toNat

def exponentText (e : Int) : List Char :=
  'e' :: ((if decide (e < 0) then ['-'] else []) ++ Nat.toDigits 10 e.natAbs)

/-- Digits, a point after the first, with an exponent. -/
def withExponent (ds : List Char) (e : Int) : List Char :=
  ds.take 1 ++ ((if ds.drop 1 = [] then [] else '.' :: ds.drop 1) ++ exponentText e)

/-- A double by its shortest digits in some layout. -/
def formatted (layout : List Char → Int → List Char) : F64 → List Char
  | .nan => "NaN".toList
  | .inf s => (if s then ['-'] else []) ++ "inf".toList
  | .finite s u _ =>
    (if s then ['-'] else []) ++ layout (Nat.toDigits 10 (digitsOf u).1) (digitsOf u).2

/-- A double as `{}` writes it. -/
def display (n : F64) : List Char := formatted positional n

/-- A double as `{:e}` writes it. -/
def lowerExp (n : F64) : List Char := formatted withExponent n

/-- A text of digits, maybe a point and digits, maybe an exponent. -/
structure Written (t int frac : List Char) (exp : Option Int) : Prop where
  text : t = int ++ ((if frac = [] then [] else '.' :: frac) ++ (exp.map exponentText).getD [])
  int_ne : int ≠ []
  int_digits : ∀ c ∈ int, isDigit c = true
  frac_digits : ∀ c ∈ frac, isDigit c = true

theorem exponent_exponentText (e : Int) : exponent (exponentText e) = some e := by
  obtain ⟨d, ds, hds⟩ := List.exists_cons_of_ne_nil (@Nat.toDigits_ne_nil e.natAbs 10)
  have hdigits : ∀ c ∈ d :: ds, isDigit c = true := by
    rw [← hds]
    exact fun c hc => isDigit_of_mem_toDigits hc
  have hnumber : ofDigits (d :: ds) = e.natAbs := by
    rw [← hds, ofDigits_toDigits]
  have hsign := @sign_digit (decide (e < 0)) d (hdigits d List.mem_cons_self) ds
  have hall : (d :: ds).all isDigit = true := List.all_eq_true.mpr hdigits
  have hvalue : (if decide (e < 0) = true then -(e.natAbs : Int) else e.natAbs) = e := by
    by_cases hneg : e < 0
    · rw [if_pos (decide_eq_true hneg)]
      omega
    · rw [if_neg (by rw [decide_eq_false hneg]; exact Bool.false_ne_true)]
      omega
  have hne : decide (d :: ds ≠ []) = true := decide_eq_true (List.cons_ne_nil d ds)
  unfold exponent exponentText
  rw [hds]
  simp only [hsign, hall, hnumber, hne, hvalue, decide_true, Bool.true_or, Bool.and_self, if_true]

/-- A written text reads as its digits times a power of ten. -/
theorem Written.reads {t int frac : List Char} {exp : Option Int} (h : Written t int frac exp) :
    parseF64 (.ofList t) =
      some (decimal false (ofDigits (int ++ frac)) (exp.getD 0 - frac.length)) := by
  obtain ⟨tail, htail⟩ : ∃ tail, tail = (exp.map exponentText).getD [] := ⟨_, rfl⟩
  have hexp : exponent tail = some (exp.getD 0) := by
    rw [htail]
    cases exp with
    | none => rfl
    | some e => exact exponent_exponentText e
  have hstop : ∀ c ∈ tail.head?, isDigit c = false ∧ c ≠ '.' := by
    rw [htail]
    cases exp with
    | none => exact fun c hc => by cases hc
    | some e =>
        intro c hc
        cases hc
        exact ⟨by decide, by decide⟩
  obtain ⟨d, ds, hint⟩ := List.exists_cons_of_ne_nil h.int_ne
  have hd : isDigit d = true := h.int_digits d (by rw [hint]; exact List.mem_cons_self)
  have hread : parseDigits false (int ++ ((if frac = [] then [] else '.' :: frac) ++ tail)) =
      some (decimal false (ofDigits (int ++ frac)) (exp.getD 0 - frac.length)) := by
    by_cases hfrac : frac = []
    · have htake := (span_append h.int_digits fun c hc => (hstop c hc).1).1
      unfold parseDigits
      rw [if_pos hfrac, List.nil_append]
      simp only [htake, List.drop_left]
      split
      · exact absurd rfl (hstop '.' rfl).2
      · simp only [hexp, hfrac, h.int_ne, decide_false, Bool.false_and, Bool.false_eq_true,
          if_false]
        rfl
    · have htake := (@span_append _ isDigit int ('.' :: (frac ++ tail)) h.int_digits fun c hc => by
        cases hc
        decide).1
      obtain ⟨hfracTake, hfracDrop⟩ :=
        span_append h.frac_digits fun c hc => (hstop c hc).1
      unfold parseDigits
      rw [if_neg hfrac, List.cons_append]
      simp only [htake, List.drop_left, hfracTake, hfracDrop, hexp, h.int_ne, decide_false,
        Bool.false_and, Bool.false_eq_true, if_false]
      rfl
  rw [h.text, ← htail, ← hread, hint, List.cons_append]
  exact @parseF64_digit false d hd _

theorem length_toDigits {p d : Nat} (hlow : 10 ^ p ≤ d) (hhigh : d < 10 ^ (p + 1)) :
    (Nat.toDigits 10 d).length = p + 1 := by
  have hle := (Nat.length_toDigits_le_iff (by norm_num) (Nat.succ_pos p)).mpr hhigh
  have hpos := List.length_pos_iff.mpr (@Nat.toDigits_ne_nil d 10)
  by_contra hne
  by_cases hp : p = 0
  · omega
  · have hlt := (Nat.length_toDigits_le_iff (by norm_num) (Nat.pos_of_ne_zero hp)).mp
      (show (Nat.toDigits 10 d).length ≤ p by omega)
    omega

theorem ofDigits_replicate_zero (k : Nat) : ofDigits (List.replicate k '0') = 0 := by
  induction k with
  | zero => rfl
  | succ k ih =>
      rw [List.replicate_succ, ← List.singleton_append, ofDigits_append, ih,
        show ofDigits ['0'] = 0 by rfl, Nat.zero_mul]

theorem isDigit_of_mem_replicate {k : Nat} {c : Char} (h : c ∈ List.replicate k '0') :
    isDigit c = true := by
  rw [List.eq_of_mem_replicate h]
  decide

theorem isDigit_of_mem_zero : ∀ c ∈ ['0'], isDigit c = true :=
  fun _ hc => @isDigit_of_mem_replicate 1 _ hc

/-- Digits written out in full. -/
theorem positional_written {p d : Nat} (hlow : 10 ^ p ≤ d) (hhigh : d < 10 ^ (p + 1)) (e : Int) :
    ∃ int frac, Written (positional (Nat.toDigits 10 d) e) int frac none ∧
      decimal false (ofDigits (int ++ frac)) (0 - frac.length) = decimal false d (e - p) := by
  have hlen := length_toDigits hlow hhigh
  have hnumber := ofDigits_toDigits d
  have hdigits : ∀ c ∈ Nat.toDigits 10 d, isDigit c = true :=
    fun c hc => isDigit_of_mem_toDigits hc
  generalize Nat.toDigits 10 d = ds at hlen hnumber hdigits
  unfold positional
  by_cases hneg : e < 0
  · rw [if_pos hneg]
    have hfrac : ∀ c ∈ List.replicate (-e - 1).toNat '0' ++ ds, isDigit c = true := by
      intro c hc
      rcases List.mem_append.mp hc with hc | hc
      · exact isDigit_of_mem_replicate hc
      · exact hdigits c hc
    have hne : List.replicate (-e - 1).toNat '0' ++ ds ≠ [] := by
      intro h
      rw [(List.append_eq_nil_iff.mp h).2] at hlen
      cases hlen
    refine ⟨['0'], List.replicate (-e - 1).toNat '0' ++ ds,
      ⟨by rw [if_neg hne]; simp, by simp, isDigit_of_mem_zero, hfrac⟩, ?_⟩
    have hsame : ofDigits (['0'] ++ (List.replicate (-e - 1).toNat '0' ++ ds)) = d := by
      rw [ofDigits_append, ofDigits_append, ofDigits_replicate_zero, hnumber]
      show 0 * _ + (0 * _ + d) = d
      omega
    rw [hsame, List.length_append, List.length_replicate, hlen]
    congr 1
    omega
  · rw [if_neg hneg]
    by_cases hwhole : (ds.length : Int) ≤ e + 1
    · rw [if_pos hwhole]
      obtain ⟨z, hz⟩ : ∃ z, z = (e + 1 - ds.length).toNat := ⟨_, rfl⟩
      have hint : ∀ c ∈ ds ++ List.replicate z '0', isDigit c = true := by
        intro c hc
        rcases List.mem_append.mp hc with hc | hc
        · exact hdigits c hc
        · exact isDigit_of_mem_replicate hc
      have hne : ds ++ List.replicate z '0' ≠ [] := by
        intro h
        rw [(List.append_eq_nil_iff.mp h).1] at hlen
        cases hlen
      rw [← hz]
      refine ⟨ds ++ List.replicate z '0', [], ⟨by simp, hne, hint, fun c hc => by cases hc⟩, ?_⟩
      have hplaces : e - (p : Int) = z := by omega
      rw [List.append_nil, ofDigits_append, ofDigits_replicate_zero, hnumber,
        List.length_replicate, Nat.add_zero, decimal_eq, decimal_eq, hplaces,
        List.length_nil, Nat.cast_zero, sub_zero, Int.toNat_zero, pow_zero, Nat.mul_one,
        Int.toNat_natCast, neg_zero, Int.toNat_zero, show (-(z : Int)).toNat = 0 by omega]
    · rw [if_neg hwhole]
      have hne : ds.drop (e + 1).toNat ≠ [] := by
        intro h
        have hle := List.drop_eq_nil_iff.mp h
        omega
      refine ⟨ds.take (e + 1).toNat, ds.drop (e + 1).toNat,
        ⟨by rw [if_neg hne]; simp, ?_, fun c hc => hdigits c (List.mem_of_mem_take hc),
          fun c hc => hdigits c (List.mem_of_mem_drop hc)⟩, ?_⟩
      · intro h
        rcases List.take_eq_nil_iff.mp h with h | h
        · omega
        · rw [h] at hlen
          cases hlen
      · rw [List.take_append_drop, hnumber, List.length_drop, hlen]
        congr 1
        omega

/-- Digits written with an exponent. -/
theorem withExponent_written {p d : Nat} (hlow : 10 ^ p ≤ d) (hhigh : d < 10 ^ (p + 1)) (e : Int) :
    ∃ int frac, Written (withExponent (Nat.toDigits 10 d) e) int frac (some e) ∧
      decimal false (ofDigits (int ++ frac)) (e - frac.length) = decimal false d (e - p) := by
  have hlen := length_toDigits hlow hhigh
  have hnumber := ofDigits_toDigits d
  have hdigits : ∀ c ∈ Nat.toDigits 10 d, isDigit c = true :=
    fun c hc => isDigit_of_mem_toDigits hc
  generalize Nat.toDigits 10 d = ds at hlen hnumber hdigits
  refine ⟨ds.take 1, ds.drop 1, ⟨rfl, ?_, fun c hc => hdigits c (List.mem_of_mem_take hc),
    fun c hc => hdigits c (List.mem_of_mem_drop hc)⟩, ?_⟩
  · intro h
    rcases List.take_eq_nil_iff.mp h with h | h
    · cases h
    · rw [h] at hlen
      cases hlen
  · rw [List.take_append_drop, hnumber, List.length_drop, hlen]
    congr 1

/-- A positive magnitude's digits read as it. -/
theorem digitsOf_reads {units : Nat} (hunits : 0 < units) (hrep : representable units = true) :
    ∃ p, Reads units p (digitsOf units).1 (digitsOf units).2 := by
  obtain ⟨p, d, e, hshortest, hreads⟩ := shortest_reads hunits hrep
  have hdigits : digitsOf units = (d, e) := by
    unfold digitsOf
    rw [if_neg (Nat.pos_iff_ne_zero.mp hunits), hshortest, Option.getD_some]
  rw [hdigits]
  exact ⟨p, hreads⟩

theorem ofUnits_of_representable {units : Nat} (hrep : representable units = true) :
    ofUnits false units = .finite false units hrep := dif_pos hrep

/-- What `{}` writes of a magnitude reads as it, and has no exponent. -/
theorem display_written {units : Nat} (hrep : representable units = true) :
    ∃ int frac, Written (display (.finite false units hrep)) int frac none ∧
      parseF64 (.ofList (display (.finite false units hrep))) =
        some (.finite false units hrep) := by
  by_cases hzero : units = 0
  · subst hzero
    have hread : parseF64 "0" = some zero := by decide +kernel
    exact ⟨['0'], [], ⟨rfl, List.cons_ne_nil _ _, isDigit_of_mem_zero, fun c hc => by cases hc⟩,
      hread⟩
  · obtain ⟨p, hreads⟩ := digitsOf_reads (Nat.pos_of_ne_zero hzero) hrep
    obtain ⟨int, frac, hwritten, hvalue⟩ :=
      positional_written hreads.low hreads.high (digitsOf units).2
    refine ⟨int, frac, hwritten, ?_⟩
    have hread := hwritten.reads
    rw [Option.getD_none, hvalue, hreads.reads, ofUnits_of_representable hrep] at hread
    exact hread

/-- What `{:e}` writes of a positive magnitude reads as it, and has an exponent. -/
theorem lowerExp_written {units : Nat} (hunits : 0 < units) (hrep : representable units = true) :
    ∃ int frac e, Written (lowerExp (.finite false units hrep)) int frac (some e) ∧
      parseF64 (.ofList (lowerExp (.finite false units hrep))) =
        some (.finite false units hrep) := by
  obtain ⟨p, hreads⟩ := digitsOf_reads hunits hrep
  obtain ⟨int, frac, hwritten, hvalue⟩ :=
    withExponent_written hreads.low hreads.high (digitsOf units).2
  refine ⟨int, frac, _, hwritten, ?_⟩
  have hread := hwritten.reads
  rw [Option.getD_some, hvalue, hreads.reads, ofUnits_of_representable hrep] at hread
  exact hread

end Improv.Lib.Shortest
