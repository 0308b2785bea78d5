import Improv.Engine.ExactDigits
import Improv.Lib.Rounding
/-!
# Terms of an exact sum

What one step adds to an accumulator: a term adds its units, read from its
bits, and its flags; a partial sum adds the integer its digits denote and its
flags.  The compact form of an accumulator is determined by the integer and
the flags alone.
-/

namespace Improv.Engine

open Lib Lib.SignedDigits Lib.F64

/-- Negative zero. -/
def negZero : F64 := F64.zero.neg

/-- A term's whole number of units; none of an infinity or a NaN. -/
def unitsOf : F64 → Int
  | .finite s u _ => signed s u
  | _ => 0

/-- What a term leaves in the flags. -/
def flagsOf (x : F64) : SumFlags :=
  ⟨x ≠ negZero, x = .inf false, x = .inf true, x = .nan⟩

/-! ## Bits -/

/-- The units that the exponent and fraction of a finite double's bits denote,
as a 53-bit number and a shift. -/
def mantissa (e frac : Nat) : Nat × Nat :=
  if e = 0 then (frac, 0) else (frac + 2 ^ 52, e - 1)

theorem bitFields_of_toNat {x : F64} {neg : Bool} {e frac : Nat} (he : e < 2 ^ 11)
    (hfrac : frac < 2 ^ 52)
    (h : x.toBits.toNat = (if neg then 2 ^ 63 else 0) + e * 2 ^ 52 + frac) :
    bitFields x = (neg, e, frac) := by
  unfold bitFields
  dsimp only
  rw [h]
  cases neg with
  | true =>
      rw [if_pos rfl, Prod.mk.injEq, Prod.mk.injEq, beq_iff_eq]
      omega
  | false =>
      rw [if_neg (by decide), Prod.mk.injEq, Prod.mk.injEq, beq_eq_false_iff_ne]
      omega

theorem log2_le_of_representable {u : Nat} (h : representable u = true) : u.log2 ≤ 2097 := by
  have hlt := (representable_iff.mp h).1
  rw [show 2098 = 2097 + 1 from rfl] at hlt
  exact log2_lt_of_lt hlt

theorem div_place_lt (u : Nat) : u / 2 ^ (u.log2 - 52) < 2 ^ 53 := by
  rw [Nat.div_lt_iff_lt_mul (Nat.two_pow_pos _), ← pow_add]
  calc u < 2 ^ (u.log2 + 1) := Nat.lt_log2_self
    _ ≤ 2 ^ (53 + (u.log2 - 52)) := Nat.pow_le_pow_right (by omega) (by omega)

theorem toNat_toBits_finite {s : Bool} {u : Nat} {h : representable u = true} :
    (F64.finite s u h).toBits.toNat =
      (if s then 2 ^ 63 else 0) + (u.log2 - 52) * 2 ^ 52 + u / 2 ^ (u.log2 - 52) := by
  have hlog := log2_le_of_representable h
  have hdiv := div_place_lt u
  unfold F64.toBits
  dsimp only
  rw [UInt64.toNat_ofNat', Nat.mod_eq_of_lt]
  cases s with
  | true =>
      rw [if_pos rfl]
      omega
  | false =>
      rw [if_neg (by decide)]
      omega

/-- A finite double's bits denote its units. -/
theorem bitFields_finite {s : Bool} {u : Nat} {h : representable u = true} :
    ∃ e frac, bitFields (.finite s u h) = (s, e, frac) ∧ e < 0x7ff ∧ (mantissa e frac).1 < 2 ^ 53 ∧
      (mantissa e frac).2 ≤ 2045 ∧ (mantissa e frac).1 * 2 ^ (mantissa e frac).2 = u := by
  have hlog := log2_le_of_representable h
  have hdiv := div_place_lt u
  have hbits := @toNat_toBits_finite s u h
  have hexact := Nat.div_mul_cancel ((representable_iff.mp h).2.dvd)
  by_cases hsmall : u < 2 ^ 52
  · have hlog' : u.log2 - 52 = 0 := by
      have hle := @log2_lt_of_lt u 51 hsmall
      omega
    rw [hlog', pow_zero, Nat.div_one, zero_mul] at hbits
    refine ⟨0, u, bitFields_of_toNat (by norm_num) hsmall (by rw [hbits, zero_mul]),
      by norm_num, ?_⟩
    unfold mantissa
    rw [if_pos rfl]
    refine ⟨by omega, by norm_num, by rw [pow_zero, mul_one]⟩
  · have hlog' : 52 ≤ u.log2 := le_log2_of_le (not_lt.mp hsmall)
    have hlow : 2 ^ 52 ≤ u / 2 ^ (u.log2 - 52) := by
      rw [Nat.le_div_iff_mul_le (Nat.two_pow_pos _), ← pow_add,
        show 52 + (u.log2 - 52) = u.log2 by omega]
      exact Nat.log2_self_le (by omega)
    refine ⟨u.log2 - 52 + 1, u / 2 ^ (u.log2 - 52) - 2 ^ 52,
      bitFields_of_toNat (by omega) (by omega) ?_, by omega, ?_⟩
    · rw [hbits]
      omega
    · unfold mantissa
      rw [if_neg (by omega)]
      dsimp only
      rw [show u / 2 ^ (u.log2 - 52) - 2 ^ 52 + 2 ^ 52 = u / 2 ^ (u.log2 - 52) by omega,
        Nat.add_sub_cancel]
      exact ⟨hdiv, by omega, hexact⟩

theorem bitFields_inf (s : Bool) : bitFields (.inf s) = (s, 0x7ff, 0) := by
  cases s <;> decide

theorem bitFields_nan : bitFields .nan = (false, 0x7ff, 2 ^ 51) := by
  decide

/-- A double is what its bits are. -/
theorem ofBits_toBits (x : F64) : F64.ofBits x.toBits = x := by
  cases x with
  | nan => decide +kernel
  | inf s => cases s <;> decide +kernel
  | finite s u hrep =>
      obtain ⟨e, frac, hfields, he, _, _, hunits⟩ := @bitFields_finite s u hrep
      have hbits := (F64.finite s u hrep).toBits.toNat_lt
      have hunits' : F64.ofUnits s u = .finite s u hrep := by
        unfold F64.ofUnits
        rw [dif_pos hrep]
      refine Eq.trans ?_ hunits'
      unfold bitFields at hfields
      unfold F64.ofBits
      generalize (F64.finite s u hrep).toBits.toNat = n at hfields hbits ⊢
      simp only [Prod.mk.injEq] at hfields ⊢
      obtain ⟨hs, hexp, hfrac⟩ := hfields
      have hsign : decide (2 ^ 63 ≤ n) = s := by
        rw [← hs, Bool.eq_iff_iff, decide_eq_true_eq, beq_iff_eq]
        omega
      rw [hexp, hfrac, hsign, if_neg (by omega)]
      unfold mantissa at hunits
      by_cases hzero : e = 0
      · rw [if_pos hzero] at hunits ⊢
        rw [← hunits, pow_zero, mul_one]
      · rw [if_neg hzero] at hunits ⊢
        rw [← hunits, Nat.add_comm (2 ^ 52)]

theorem finite_eq_negZero_iff {s : Bool} {u : Nat} {h : representable u = true} :
    F64.finite s u h = negZero ↔ s = true ∧ u = 0 := by
  constructor
  · intro heq
    injection heq with hs hu
    exact ⟨hs, hu⟩
  · rintro ⟨rfl, rfl⟩
    rfl

theorem isNegZero_eq (x : F64) : isNegZero x = decide (x = negZero) := by
  cases x with
  | nan => decide +kernel
  | inf s => cases s <;> decide +kernel
  | finite s u hrep =>
      have hbits := @toNat_toBits_finite s u hrep
      have hdiv := div_place_lt u
      have hzero : (F64.ofUnits true 0).toBits.toNat = 2 ^ 63 := by decide +kernel
      have hexact := Nat.div_mul_cancel ((representable_iff.mp hrep).2.dvd)
      unfold isNegZero
      rw [Bool.eq_iff_iff, beq_iff_eq, decide_eq_true_eq, finite_eq_negZero_iff,
        ← UInt64.toNat_inj, hzero, hbits]
      constructor
      · intro heq
        cases s with
        | true =>
            rw [if_pos rfl] at heq
            generalize u / 2 ^ (u.log2 - 52) = q at heq hexact
            rw [show q = 0 by omega, zero_mul] at hexact
            exact ⟨rfl, hexact.symm⟩
        | false =>
            rw [if_neg (by decide)] at heq
            have hlog := log2_le_of_representable hrep
            generalize u / 2 ^ (u.log2 - 52) = q at heq hdiv
            omega
      · rintro ⟨rfl, rfl⟩
        rfl

/-! ## One step -/

namespace ExactSum

theorem abs_digit_le (n : Nat) : |((n % 2 ^ 32 : Nat) : Int)| ≤ 2 ^ 32 := by
  rw [abs_le]
  have hlt := Nat.mod_lt n (show 2 ^ 32 > 0 by norm_num)
  constructor <;> omega

/-- The three digits that a shifted significand is added as. -/
theorem ofDigits_split {v : Nat} (hv : v < 2 ^ 96) (neg : Bool) :
    ofDigits radix ([v % 2 ^ 32, v / 2 ^ 32 % 2 ^ 32, v / 2 ^ 64 % 2 ^ 32].map
      fun (w : Nat) => if neg then -(w : Int) else w) = signed neg v := by
  have hsplit : v =
      v % 2 ^ 32 + 2 ^ 32 * (v / 2 ^ 32 % 2 ^ 32) + 2 ^ 64 * (v / 2 ^ 64 % 2 ^ 32) := by
    omega
  rw [radix_eq]
  unfold signed
  cases neg with
  | true =>
      simp only [List.map_cons, List.map_nil, ofDigits_cons, ofDigits_nil, if_true]
      omega
  | false =>
      simp only [List.map_cons, List.map_nil, ofDigits_cons, ofDigits_nil, Bool.false_eq_true,
        if_false]
      omega

theorem Denotes.withFlags {a : ExactSum} {V : Int} {n : Nat} (h : a.Denotes V n) (f : SumFlags) :
    ({ a with flags := f }).Denotes V n :=
  ⟨h.length, h.value, h.small, h.zero, h.lo_le, h.hi_le, h.terms_lt⟩

theorem exists_finite_digits {s : Bool} {u : Nat} {hu : representable u = true} :
    ∃ e frac, bitFields (.finite s u hu) = (s, e, frac) ∧ e ≠ 0x7ff ∧
      ∃ m k, mantissa e frac = (m, k) ∧ (m = 0 ↔ u = 0) ∧ k / 32 + 3 ≤ DIGITS ∧
        radix ^ (k / 32) * signed s (m * 2 ^ (k % 32)) = signed s u ∧
          m * 2 ^ (k % 32) < 2 ^ 96 := by
  obtain ⟨e, frac, hbits, he, hm, hk, hval⟩ := @bitFields_finite s u hu
  refine ⟨e, frac, hbits, by omega, (mantissa e frac).1, (mantissa e frac).2, rfl, ?_, ?_, ?_, ?_⟩
  · rw [← hval, mul_eq_zero]
    have hpos := Nat.two_pow_pos (mantissa e frac).2
    omega
  · unfold DIGITS
    omega
  · generalize (mantissa e frac).1 = m at hval hm
    generalize (mantissa e frac).2 = k at hval hk
    have hpow : radix ^ (k / 32) * (2 : Int) ^ (k % 32) = 2 ^ k := by
      rw [radix_eq, ← pow_mul, ← pow_add, Nat.div_add_mod]
    have hprod : radix ^ (k / 32) * ((m * 2 ^ (k % 32) : Nat) : Int) = (u : Nat) := by
      rw [← hval]
      push_cast
      rw [← hpow]
      ring
    unfold signed
    split
    · rw [mul_neg, hprod]
    · exact hprod
  · have hlt := Nat.pow_lt_pow_right (show 1 < 2 by norm_num)
      (Nat.mod_lt (mantissa e frac).2 (show 32 > 0 by norm_num))
    calc (mantissa e frac).1 * 2 ^ ((mantissa e frac).2 % 32)
        ≤ 2 ^ 53 * 2 ^ 32 := Nat.mul_le_mul hm.le hlt.le
      _ < 2 ^ 96 := by norm_num

/-- A term adds its units and its flags. -/
theorem add_spec {a : ExactSum} {V : Int} (h : a.Denotes V CARRY_EVERY) (hV : |V| ≤ digitRange)
    {x : F64} (hV' : |V + unitsOf x| ≤ digitRange) :
    ∃ a', a.add x = some a' ∧ a'.Denotes (V + unitsOf x) CARRY_EVERY ∧
      a'.flags = a.flags.or (flagsOf x) := by
  have hnotNegZero : (if isNegZero x then a else
      { a with flags := { a.flags with notNegZero := true } }) =
      { a with flags := a.flags.or ⟨x ≠ negZero, false, false, false⟩ } := by
    rw [isNegZero_eq]
    by_cases hx : x = negZero <;> simp [hx, SumFlags.or]
  unfold add
  rw [hnotNegZero]
  cases x with
  | nan =>
      rw [bitFields_nan]
      refine ⟨_, rfl, ?_, ?_⟩
      · rw [show unitsOf .nan = 0 from rfl, add_zero]
        exact h.withFlags _
      · simp [SumFlags.or, flagsOf, negZero, F64.zero, F64.neg]
  | inf s =>
      rw [bitFields_inf]
      refine ⟨_, rfl, ?_, ?_⟩
      · rw [show unitsOf (.inf s) = 0 from rfl, add_zero]
        exact h.withFlags _
      · cases s <;> simp [SumFlags.or, flagsOf, negZero, F64.zero, F64.neg]
  | finite s u hu =>
      obtain ⟨e, frac, hbits, he, m, k, hmk, hzero, hk, hval, hlt⟩ := @exists_finite_digits s u hu
      have hflags : flagsOf (.finite s u hu) =
          ⟨(F64.finite s u hu) ≠ negZero, false, false, false⟩ := by
        simp [flagsOf]
      unfold mantissa at hmk
      rw [hbits, hflags]
      dsimp only
      rw [if_neg he, hmk]
      dsimp only
      by_cases hm : m = 0
      · rw [if_pos hm]
        refine ⟨_, rfl, ?_, rfl⟩
        have hunits : unitsOf (.finite s u hu) = 0 := by
          rw [unitsOf, hzero.mp hm]
          cases s <;> rfl
        rw [hunits, add_zero]
        exact h.withFlags _
      · rw [if_neg hm]
        have hsplit := ofDigits_split hlt s
        have hsum : V + unitsOf (.finite s u hu) =
            V + radix ^ (k / 32) * ofDigits radix ([m * 2 ^ (k % 32) % 2 ^ 32,
              m * 2 ^ (k % 32) / 2 ^ 32 % 2 ^ 32, m * 2 ^ (k % 32) / 2 ^ 64 % 2 ^ 32].map
              fun (w : Nat) => if s then -(w : Int) else w) := by
          rw [hsplit, hval, unitsOf]
        rw [hsum] at hV' ⊢
        refine addDigits_touch (h.withFlags (a.flags.or
          ⟨(F64.finite s u hu) ≠ negZero, false, false, false⟩)) hV hk (fun w hw => ?_) hV'
        rw [List.mem_map] at hw
        obtain ⟨n, hn, rfl⟩ := hw
        have hmod : ∃ v, n = v % 2 ^ 32 := by
          simp only [List.mem_cons, List.not_mem_nil, or_false] at hn
          obtain rfl | rfl | rfl := hn <;> exact ⟨_, rfl⟩
        obtain ⟨v, rfl⟩ := hmod
        split
        · rw [abs_neg]
          exact abs_digit_le v
        · exact abs_digit_le v

/-- A partial sum adds the integer its digits denote, and its flags. -/
theorem addExact_spec {a : ExactSum} {V : Int} (h : a.Denotes V CARRY_EVERY)
    (hV : |V| ≤ digitRange) {x : Exact} (hlen : x.d ≠ [] → x.lo + x.d.length ≤ DIGITS)
    (hx : ∀ w ∈ x.d, Balanced (2 ^ 31) w)
    (hV' : |V + radix ^ x.lo * ofDigits radix x.d| ≤ digitRange) :
    ∃ a', a.addExact x = some a' ∧
      a'.Denotes (V + radix ^ x.lo * ofDigits radix x.d) CARRY_EVERY ∧
      a'.flags = a.flags.or x.flags := by
  unfold addExact
  dsimp only
  by_cases hnil : x.d = []
  · rw [if_pos hnil]
    refine ⟨_, rfl, ?_, rfl⟩
    rw [hnil, ofDigits_nil, mul_zero, add_zero]
    exact h.withFlags _
  · rw [if_neg hnil]
    exact addDigits_touch (h.withFlags (a.flags.or x.flags)) hV (hlen hnil)
      (fun w hw => (abs_le_of_balanced (hx w hw)).trans (by norm_num)) hV'

/-! ## The compact form -/

/-- The compact form of a balanced expansion, its carry digit forced into 32
bits. -/
def compact (d : List Int) (flags : SumFlags) : Exact :=
  ⟨(trim 0 (d.map clampDigit)).1, (trim 0 (d.map clampDigit)).2, flags⟩

theorem clampDigit_eq_zero_iff (x : Int) : clampDigit x = 0 ↔ x = 0 := by
  unfold clampDigit
  omega

theorem balanced_clampDigit (x : Int) : Balanced (2 ^ 31) (clampDigit x) := by
  unfold clampDigit
  constructor <;> omega

theorem clampDigit_of_balanced {x : Int} (h : Balanced (2 ^ 31) x) : clampDigit x = x := by
  obtain ⟨hlow, hhigh⟩ := h
  unfold clampDigit
  omega

/-- Reading the accumulator gives the compact form of the balanced expansion
of what it denotes. -/
theorem exact_spec {a : ExactSum} {V : Int} (h : a.Denotes V CARRY_EVERY)
    (hV : |V| ≤ digitRange) :
    ∃ d a', Expansion d V ∧ a.exact = some (compact d a.flags, a') ∧
      a'.Denotes V CARRY_EVERY ∧ a'.flags = a.flags := by
  obtain ⟨a', hcarry, hexp, hden, hle, hflags⟩ := carry_spec (h.mono (Nat.le_succ _)) hV
  refine ⟨a'.d, a', hexp, ?_, hden, hflags⟩
  have hlen := hexp.length
  have hhi := hden.hi_le
  have hlow : a'.d.take a'.lo = List.replicate a'.lo 0 := by
    have hzeros := List.eq_replicate_of_mem fun x hx => hden.take_lo_zero hx
    rwa [List.length_take, min_eq_left (by omega)] at hzeros
  have hhigh : a'.d.drop a'.hi = List.replicate (DIGITS - a'.hi) 0 := by
    rw [← hlen, ← List.length_drop]
    apply List.eq_replicate_of_mem
    intro x hx
    obtain ⟨i, hi, hget⟩ := List.getElem_of_mem hx
    rw [List.getElem_drop] at hget
    rw [List.length_drop] at hi
    exact hden.zero (a'.hi + i) x
      (by rw [← hget]; exact List.getElem?_eq_getElem (by omega)) (Or.inr (Nat.le_add_right _ _))
  have hsplit : a'.d = List.replicate a'.lo 0 ++ (a'.d.take a'.hi).drop a'.lo ++
      List.replicate (DIGITS - a'.hi) 0 := by
    rw [← hhigh, ← hlow]
    conv_lhs => rw [← List.take_append_drop a'.hi a'.d]
    congr 1
    conv_lhs => rw [← List.take_append_drop a'.lo (a'.d.take a'.hi)]
    rw [List.take_take, min_eq_left hle]
  have htrim := trim_pad a'.lo (DIGITS - a'.hi) ((a'.d.take a'.hi).drop a'.lo)
  rw [← hsplit] at htrim
  unfold exact compact
  rw [hcarry, Option.bind_eq_bind, Option.bind_some, trim_map clampDigit_eq_zero_iff, htrim, hflags]

end ExactSum

end Improv.Engine
