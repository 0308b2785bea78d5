import Improv.Engine.ExactTerms
/-!
# The one rounding

The value of a compact exact sum is the double nearest to the integer its
digits denote, ties to even, infinite past the largest double: the top three
digits, a sticky bit for what lies below them, one conversion and an exact
scaling.  The scaling has no bits for a power of two past 1023, so a compact
sum whose only digit is the last one is the exception.
-/

namespace Improv.Engine

open Lib Lib.SignedDigits Lib.F64

/-! ## Scaling by a power of two -/

theorem representable_mul_pow {m k j : Nat} (hm : m ≤ 2 ^ k) (hj : k + j < 2098)
    (hsig : Significand m) : representable (m * 2 ^ j) = true := by
  rw [representable_iff]
  refine ⟨?_, hsig.mul_pow j⟩
  calc m * 2 ^ j ≤ 2 ^ k * 2 ^ j := Nat.mul_le_mul_right _ hm
    _ = 2 ^ (k + j) := (pow_add 2 k j).symm
    _ < 2 ^ 2098 := Nat.pow_lt_pow_right (by norm_num) hj

theorem representable_pow {j : Nat} (hj : j < 2098) : representable (2 ^ j) = true := by
  have h := @representable_mul_pow 1 0 j le_rfl (by omega) (significand_of_lt (by norm_num))
  rwa [one_mul] at h

theorem ofUnits_of_representable {s : Bool} {u : Nat} (h : representable u = true) :
    F64.ofUnits s u = .finite s u h := by
  unfold F64.ofUnits
  rw [dif_pos h]

/-- Bits with no sign and no fraction are a power of two. -/
theorem pow2_eq {k : Nat} (hlow : 52 ≤ k) (hhigh : k < 2098) :
    pow2 ((k : Int) - 1074) = .finite false (2 ^ k) (representable_pow hhigh) := by
  have hexp : ((k : Int) - 1074 + 1023).toNat = k - 51 := by omega
  have hbits : (UInt64.ofNat ((k - 51) * 2 ^ 52)).toNat = (k - 51) * 2 ^ 52 := by
    rw [UInt64.toNat_ofNat', Nat.mod_eq_of_lt (by omega)]
  unfold pow2 F64.ofBits
  rw [hexp, hbits]
  have hsign : decide (2 ^ 63 ≤ (k - 51) * 2 ^ 52) = false := by
    rw [decide_eq_false_iff_not]
    omega
  have hexponent : (k - 51) * 2 ^ 52 / 2 ^ 52 % 2 ^ 11 = k - 51 := by omega
  have hfraction : (k - 51) * 2 ^ 52 % 2 ^ 52 = 0 := by omega
  simp only [hsign, hexponent, hfraction]
  rw [if_neg (by omega), if_neg (by omega), Nat.add_zero, ← pow_add,
    show 52 + (k - 51 - 1) = k by omega]
  exact ofUnits_of_representable _

theorem roundUnits_zero : roundUnits 0 1 = 0 :=
  roundUnits_of_significand (significand_of_lt (by norm_num))

/-- A product by a power of two that is a whole number of units of 53
significant bits is exact. -/
theorem mul_pow2 {u v k : Nat} (hu : representable u = true) (hlow : 52 ≤ k) (hhigh : k < 2098)
    (hv : u * 2 ^ k = v * F64.one) (hsig : Significand v) :
    (F64.finite false u hu).mul (pow2 ((k : Int) - 1074)) = F64.ofUnits false v := by
  rw [pow2_eq hlow hhigh]
  unfold F64.mul
  dsimp only
  rw [hv, @roundUnits_mul_den v F64.one (Nat.two_pow_pos 1074), roundUnits_of_significand hsig]
  rfl

/-- A 64-bit integer as a double. -/
theorem ofNat_eq {n : Nat} (hn : n < 2 ^ 64) :
    ∃ h, F64.ofNat n = .finite false (roundUnits n 1 * 2 ^ 1074) h := by
  have hle : roundUnits n 1 ≤ 2 ^ 64 := roundUnits_le (significand_pow 64) hn.le
  refine ⟨representable_mul_pow hle (by norm_num) (significand_roundUnits n), ?_⟩
  unfold F64.ofNat F64.ofRatio F64.one
  rw [roundUnits_mul_pow]
  exact ofUnits_of_representable _

/-- A rounded 64-bit integer scaled to `t` places, in one product or, below the
least normal power of two, in two. -/
theorem scale_eq {n t : Nat} (hn : n < 2 ^ 64) (ht : t < 2098) :
    (if (t : Int) - 1074 < -1022 then
      ((F64.ofNat n).mul (pow2 (-1022))).mul (pow2 ((t : Int) - 1074 + 1022))
    else (F64.ofNat n).mul (pow2 ((t : Int) - 1074))) =
      F64.ofUnits false (roundUnits n 1 * 2 ^ t) := by
  have hle : roundUnits n 1 ≤ 2 ^ 64 := roundUnits_le (significand_pow 64) hn.le
  have hsig := significand_roundUnits n
  obtain ⟨hrep, hx⟩ := ofNat_eq hn
  rw [hx]
  generalize hr : roundUnits n 1 = r at hle hsig hrep
  split
  · next hlt =>
      have hfirst := @mul_pow2 (r * 2 ^ 1074) (r * 2 ^ 52) 52 hrep le_rfl (by norm_num)
        (mul_right_comm _ _ _) (hsig.mul_pow 52)
      have hmid : representable (r * 2 ^ 52) = true :=
        representable_mul_pow hle (by norm_num) hsig
      have hplaces : 52 + (t + 1022) = t + 1074 := by omega
      have hsecond := @mul_pow2 (r * 2 ^ 52) (r * 2 ^ t) (t + 1022) hmid (by omega) (by omega)
        (by unfold F64.one; rw [mul_assoc, mul_assoc, ← pow_add, ← pow_add, hplaces])
        (hsig.mul_pow t)
      rw [show (-1022 : Int) = ((52 : Nat) : Int) - 1074 by norm_num, hfirst,
        ofUnits_of_representable hmid]
      rw [show ((t : Int) - 1074 + 1022) = ((t + 1022 : Nat) : Int) - 1074 by push_cast; ring]
      exact hsecond
  · next hge => exact mul_pow2 hrep (by omega) ht (mul_right_comm _ _ _) (hsig.mul_pow t)

/-! ## The top digits -/

/-- The magnitude's top three digits, and what lies below them. -/
theorem split_digits {E : List Int} (hE : ∀ x ∈ E, |x| ≤ 2 ^ 31) {top : Int}
    (hlast : E.getLast? = some top) (htop : 1 ≤ top) :
    let base := E.length - 3
    let w := (E.drop base).foldr (fun x w => w * 2 ^ 32 + x) 0
    let r := ((E.take base).reverse.find? (· ≠ 0)).getD 0
    ∃ W ρ : Nat, ((w - if r < 0 then 1 else 0) % 2 ^ 128).toNat = W ∧ 0 < W ∧
      (base ≠ 0 → 2 ^ 62 ≤ W) ∧ W < 2 ^ (32 * (E.length - base)) ∧ ρ < 2 ^ (32 * base) ∧
      (ρ = 0 ↔ r = 0) ∧
      ofDigits radix E = W * 2 ^ (32 * base) + ρ := by
  intro base w r
  have hw : w = ofDigits radix (E.drop base) := by
    rw [radix_eq]
    exact ofDigits_foldr _ _
  have hsign := sign_ofDigits (by norm_num : (1 : Int) ≤ 2 ^ 31)
    fun x hx => hE x (List.mem_of_mem_take (i := base) hx)
  have hlow := abs_lt.mp (abs_ofDigits_lt (by norm_num : (1 : Int) ≤ 2 ^ 31)
    fun x hx => hE x (List.mem_of_mem_take (i := base) hx))
  have hbase : (E.take base).length = base := by
    rw [List.length_take]
    omega
  have hR : (2 * 2 ^ 31 : Int) = radix := rfl
  rw [hR, hbase] at hlow
  rw [hR] at hsign
  have hpow : radix ^ base = 2 ^ (32 * base) := by rw [radix_eq, ← pow_mul]
  rw [hpow] at hlow
  have hvalue : ofDigits radix E = ofDigits radix (E.take base) + 2 ^ (32 * base) * w := by
    conv_lhs => rw [← List.take_append_drop base E]
    rw [ofDigits_append, hbase, hpow, hw]
  -- the top three digits are at least one, and large when there are three
  have hne : E ≠ [] := by
    intro hnil
    rw [hnil] at hlast
    exact absurd hlast (by simp)
  have hlen : 0 < E.length := List.length_pos_of_ne_nil hne
  have hhigh : E.drop base = (E.drop base).dropLast ++ [top] := by
    refine (List.dropLast_append_getLast? top ?_).symm
    rw [List.getLast?_drop, if_neg (by omega)]
    exact hlast
  have hrest : ∀ x ∈ (E.drop base).dropLast, |x| ≤ 2 ^ 31 := fun x hx =>
    hE x (List.mem_of_mem_drop (List.dropLast_subset _ hx))
  have hcount : (E.drop base).dropLast.length = E.length - base - 1 := by
    rw [List.length_dropLast, List.length_drop]
  have hwval : w = ofDigits radix (E.drop base).dropLast +
      radix ^ (E.length - base - 1) * top := by
    rw [hw]
    conv_lhs => rw [hhigh]
    rw [ofDigits_append, hcount, ofDigits_cons, ofDigits_nil, mul_zero, add_zero]
  have hwpos : 1 ≤ w := by
    have hlt := abs_lt.mp (abs_ofDigits_lt (by norm_num : (1 : Int) ≤ 2 ^ 31) hrest)
    rw [hR, hcount] at hlt
    have hone : (1 : Int) ≤ radix ^ (E.length - base - 1) := one_le_pow₀ (by norm_num [radix])
    nlinarith
  have hwlt : w < 2 ^ (32 * (E.length - base)) := by
    have hlt := abs_lt.mp (abs_ofDigits_lt (by norm_num : (1 : Int) ≤ 2 ^ 31)
      fun x hx => hE x (List.mem_of_mem_drop (i := base) hx))
    rw [hR, ← hw, List.length_drop, radix_eq, ← pow_mul] at hlt
    exact hlt.2
  have hw96 : w < 2 ^ 96 := by
    calc w < 2 ^ (32 * (E.length - base)) := hwlt
      _ ≤ 2 ^ 96 := pow_le_pow_right₀ (by norm_num) (by omega)
  have hwbig : base ≠ 0 → 2 ^ 62 + 1 ≤ w := by
    intro hb
    have htwo : E.length - base - 1 = 2 := by omega
    have hbound := abs_ofDigits_mul_le (R := radix) (by norm_num [radix]) hrest
    rw [hcount, htwo, radix_eq] at hbound
    rw [hwval, htwo, radix_eq]
    have hle := neg_le_of_abs_le (le_refl |ofDigits (2 ^ 32) (E.drop base).dropLast|)
    omega
  have hnone : base = 0 → r = 0 := by
    intro hb
    show ((E.take base).reverse.find? (· ≠ 0)).getD 0 = 0
    rw [hb, List.take_zero]
    rfl
  have hpos : (1 : Int) ≤ 2 ^ (32 * base) := one_le_pow₀ (by norm_num)
  obtain ⟨hneg, hzero⟩ := hsign
  change (r < 0 ↔ _) at hneg
  change (r = 0 ↔ _) at hzero
  rw [hvalue]
  by_cases hr : r < 0
  · have hlowneg := hneg.mp hr
    have hb : base ≠ 0 := fun hb => by
      have := hnone hb
      omega
    have hbig := hwbig hb
    refine ⟨(w - 1).toNat, (ofDigits radix (E.take base) + 2 ^ (32 * base)).toNat, ?_, by omega,
      fun _ => by omega, ?_, ?_, ?_, ?_⟩
    · rw [if_pos hr]
      omega
    · zify
      rw [Int.toNat_of_nonneg (by omega)]
      omega
    · zify
      rw [Int.toNat_of_nonneg (by omega)]
      omega
    · constructor
      · intro hc
        omega
      · intro hc
        omega
    · rw [Int.toNat_of_nonneg (by omega), Int.toNat_of_nonneg (by omega)]
      ring
  · have hlownonneg : 0 ≤ ofDigits radix (E.take base) := by
      by_contra hlt
      exact hr (hneg.mpr (by omega))
    refine ⟨w.toNat, (ofDigits radix (E.take base)).toNat, ?_, by omega,
      fun hb => by have := hwbig hb; omega, ?_, ?_, ?_, ?_⟩
    · rw [if_neg hr]
      omega
    · zify
      rw [Int.toNat_of_nonneg (by omega)]
      exact hwlt
    · zify
      rw [Int.toNat_of_nonneg hlownonneg]
      exact hlow.2
    · rw [hzero]
      omega
    · rw [Int.toNat_of_nonneg (by omega), Int.toNat_of_nonneg hlownonneg]
      ring

theorem bitLength_spec {W : Nat} (hW : 0 < W) :
    2 ^ (bitLength W - 1) ≤ W ∧ W < 2 ^ bitLength W := by
  unfold bitLength
  rw [if_neg (by omega), Nat.add_sub_cancel]
  exact ⟨Nat.log2_self_le (by omega), Nat.lt_log2_self⟩

/-- The top 64 bits with the rest in a sticky bit round as the whole
magnitude. -/
theorem round_top {W ρ base lo : Nat} (hW : 0 < W) (hbig : base ≠ 0 → 2 ^ 62 ≤ W)
    (hρ : ρ < 2 ^ (32 * base)) :
    let shift := bitLength W - 64
    let x := W / 2 ^ shift % 2 ^ 64 ||| if W % 2 ^ shift ≠ 0 ∨ ρ ≠ 0 then 1 else 0
    x < 2 ^ 64 ∧ roundUnits ((W * 2 ^ (32 * base) + ρ) * 2 ^ (32 * lo)) 1 =
      roundUnits x 1 * 2 ^ (shift + 32 * (lo + base)) := by
  intro shift x
  obtain ⟨hlow, hhigh⟩ := bitLength_spec hW
  have hq : W / 2 ^ shift < 2 ^ 64 := by
    rw [Nat.div_lt_iff_lt_mul (Nat.two_pow_pos _), ← pow_add]
    calc W < 2 ^ bitLength W := hhigh
      _ ≤ 2 ^ (64 + shift) := Nat.pow_le_pow_right (by norm_num) (by omega)
  have hmod : W / 2 ^ shift % 2 ^ 64 = W / 2 ^ shift := Nat.mod_eq_of_lt hq
  refine ⟨Nat.or_lt_two_pow (by omega) (by split <;> norm_num), ?_⟩
  have hsplit := Nat.div_add_mod' W (2 ^ shift)
  have hrest : W % 2 ^ shift * 2 ^ (32 * base) + ρ < 2 ^ (shift + 32 * base) := by
    have hlt := Nat.mod_lt W (Nat.two_pow_pos shift)
    calc W % 2 ^ shift * 2 ^ (32 * base) + ρ
        < W % 2 ^ shift * 2 ^ (32 * base) + 2 ^ (32 * base) := by omega
      _ = (W % 2 ^ shift + 1) * 2 ^ (32 * base) := by ring
      _ ≤ 2 ^ shift * 2 ^ (32 * base) := Nat.mul_le_mul_right _ hlt
      _ = 2 ^ (shift + 32 * base) := (pow_add _ _ _).symm
  have hsum : W * 2 ^ (32 * base) + ρ = W / 2 ^ shift * 2 ^ (shift + 32 * base) +
      (W % 2 ^ shift * 2 ^ (32 * base) + ρ) := by
    conv_lhs => rw [← hsplit]
    rw [pow_add]
    ring
  have hzero : (W % 2 ^ shift * 2 ^ (32 * base) + ρ = 0) ↔
      ¬(W % 2 ^ shift ≠ 0 ∨ ρ ≠ 0) := by
    have hpos := Nat.two_pow_pos (32 * base)
    rw [Nat.add_eq_zero_iff, mul_eq_zero]
    omega
  have hplaces : shift + 32 * (lo + base) = (shift + 32 * base) + 32 * lo := by ring
  rw [roundUnits_mul_pow, hsum, hplaces, pow_add _ _ (32 * lo), ← mul_assoc]
  congr 1
  by_cases hmany : 2 ^ 54 ≤ W / 2 ^ shift
  · rw [roundUnits_sticky hmany hrest]
    show _ = roundUnits (_ ||| _) 1 * _
    rw [hmod]
    simp only [hzero, ite_not]
  · -- few bits: nothing was shifted out and no digit lies below the top three
    have hnone : shift = 0 := by
      by_contra hs
      have hge : 2 ^ 63 ≤ W / 2 ^ shift := by
        rw [Nat.le_div_iff_mul_le (Nat.two_pow_pos _), ← pow_add]
        calc 2 ^ (63 + shift) ≤ 2 ^ (bitLength W - 1) :=
              Nat.pow_le_pow_right (by norm_num) (by omega)
          _ ≤ W := hlow
      omega
    have hb : base = 0 := by
      by_contra hb
      have hge := hbig hb
      rw [hnone, pow_zero, Nat.div_one] at hmany
      omega
    have hexact : W % 2 ^ shift * 2 ^ (32 * base) + ρ = 0 := by
      rw [hb] at hρ
      rw [hnone, pow_zero, Nat.mod_one]
      omega
    rw [hexact, add_zero, roundUnits_mul_pow]
    show _ = roundUnits (_ ||| _) 1 * _
    rw [hmod, if_neg (hzero.mp hexact), Nat.or_zero]

/-! ## The value -/

/-- The double nearest to a whole number of units, ties to even; infinite past
the largest. -/
def nearest (V : Int) : F64 := F64.ofUnits (V < 0) (roundUnits V.natAbs 1)

theorem neg_ofUnits (s : Bool) (u : Nat) : (F64.ofUnits s u).neg = F64.ofUnits (!s) u := by
  unfold F64.ofUnits
  split <;> rfl

namespace Exact

/-- Only finite terms were added. -/
def Finite (f : SumFlags) : Prop := f.nan = false ∧ f.posInf = false ∧ f.negInf = false

theorem value_of_last {e : Exact} (hf : Finite e.flags) {top : Int}
    (hlast : e.d.getLast? = some top) : e.value = rounded e.lo e.d top := by
  obtain ⟨hnan, hpos, hneg⟩ := hf
  unfold value
  simp only [hnan, hpos, hneg, hlast, Bool.or_self, Bool.and_self, Bool.false_eq_true, if_false]

theorem value_of_nil {e : Exact} (hf : Finite e.flags) (hnil : e.d = []) :
    e.value = if e.flags.notNegZero then F64.zero else negZero := by
  obtain ⟨hnan, hpos, hneg⟩ := hf
  unfold value negZero
  simp only [hnan, hpos, hneg, hnil, Bool.or_self, Bool.and_self, Bool.false_eq_true, if_false,
    List.getLast?_nil]

/-- Digits that do not start at the last place round to the nearest double. -/
theorem rounded_eq_nearest {lo : Nat} {d : List Int} {top : Int} (hlast : d.getLast? = some top)
    (htop : top ≠ 0) (hd : ∀ x ∈ d, |x| ≤ 2 ^ 31) (hlen : lo + d.length ≤ DIGITS) (hlo : lo ≠ 66) :
    rounded lo d top = nearest (radix ^ lo * ofDigits radix d) := by
  obtain ⟨sign, hsign⟩ : ∃ sign : Int, sign = if top < 0 then -1 else 1 := ⟨_, rfl⟩
  have habs : |sign| = 1 := by
    rw [hsign]
    split <;> norm_num
  obtain ⟨E, hE⟩ : ∃ E, E = d.map (sign * ·) := ⟨_, rfl⟩
  have hElen : E.length = d.length := by rw [hE, List.length_map]
  have hEle : ∀ x ∈ E, |x| ≤ 2 ^ 31 := by
    intro x hx
    rw [hE, List.mem_map] at hx
    obtain ⟨y, hy, rfl⟩ := hx
    rw [abs_mul, habs, one_mul]
    exact hd y hy
  have hElast : E.getLast? = some (sign * top) := by
    rw [hE, List.getLast?_map, hlast]
    rfl
  have hEtop : 1 ≤ sign * top := by
    rw [hsign]
    split <;> omega
  have hEval : ofDigits radix E = sign * ofDigits radix d := by
    rw [hE]
    exact ofDigits_map_mul _ _ _
  obtain ⟨W, ρ, hW, hWpos, hbig, hWlt, hρ, hρr, hval⟩ := split_digits hEle hElast hEtop
  obtain ⟨hx, hround⟩ := @round_top W ρ (E.length - 3) lo hWpos hbig hρ
  have hshift : bitLength W - 64 + 32 * (lo + (E.length - 3)) < 2098 := by
    have hbits := (bitLength_spec hWpos).1
    have hle : bitLength W - 1 < 32 * (E.length - (E.length - 3)) := by
      by_contra hge
      have hpow : 2 ^ (32 * (E.length - (E.length - 3))) ≤ 2 ^ (bitLength W - 1) :=
        Nat.pow_le_pow_right (by norm_num) (by omega)
      omega
    unfold DIGITS at hlen
    omega
  have hscale := scale_eq hx hshift
  rw [← hround] at hscale
  have hEpos : 0 < sign * ofDigits radix d := by
    rw [← hEval, hval]
    positivity
  have hmag : |ofDigits radix d| = sign * ofDigits radix d := by
    rw [← abs_of_pos hEpos, abs_mul, habs, one_mul]
  have hN : ((W * 2 ^ (32 * (E.length - 3)) + ρ) * 2 ^ (32 * lo) : Nat) =
      (radix ^ lo * ofDigits radix d).natAbs := by
    zify
    rw [← hval, radix_eq, ← pow_mul, abs_mul,
      abs_of_pos (by positivity : (0 : Int) < 2 ^ (32 * lo)),
      ← radix_eq, hEval, hmag, mul_comm]
  have hr : ((E.take (E.length - 3)).reverse.find? (· ≠ 0)).getD 0 ≠ 0 ↔ ρ ≠ 0 := not_congr hρr.symm
  unfold rounded
  dsimp only
  rw [← hsign, ← hE, hW]
  simp only [hr]
  rw [hscale, hN]
  unfold nearest
  have hpow : (0 : Int) < radix ^ lo := pow_pos (by norm_num [radix]) lo
  by_cases hneg : top < 0
  · rw [if_pos hneg] at hsign
    rw [hsign] at hEpos
    have hD : radix ^ lo * ofDigits radix d < 0 := mul_neg_of_pos_of_neg hpow (by omega)
    rw [if_pos (by omega), neg_ofUnits, decide_eq_true hD]
    rfl
  · rw [if_neg hneg] at hsign
    rw [hsign] at hEpos
    have hD : 0 < radix ^ lo * ofDigits radix d := mul_pos hpow (by omega)
    rw [if_neg (by omega), decide_eq_false (by omega)]

/-- Sixty-six places up the exponent runs into the sign bit. -/
theorem representable_past : representable (2 ^ 64) = true := representable_pow (by norm_num)

theorem pow2_past : pow2 1038 = .finite true (2 ^ 64) representable_past := by
  decide +kernel

theorem ofNat_mul_past {n : Nat} (hn : n ≤ 2 ^ 31) :
    (F64.ofNat n).mul (pow2 1038) = F64.ofUnits true (n * 2 ^ 64) := by
  have hsig : Significand n := significand_of_lt (by omega)
  obtain ⟨hrep, hx⟩ := @ofNat_eq n (by omega)
  rw [hx, pow2_past]
  unfold F64.mul
  dsimp only
  rw [roundUnits_of_significand hsig, mul_right_comm,
    show n * 2 ^ 64 * 2 ^ 1074 = n * 2 ^ 64 * F64.one from rfl,
    @roundUnits_mul_den (n * 2 ^ 64) F64.one (Nat.two_pow_pos 1074),
    roundUnits_of_significand (hsig.mul_pow 64)]
  rfl

/-- A single digit at the last place is not rounded but scaled down, with the
other sign. -/
theorem rounded_last {k : Int} (hk : k ≠ 0) (hle : |k| ≤ 2 ^ 31) :
    rounded 66 [k] k = F64.ofUnits (0 < k) (k.natAbs * 2 ^ 64) := by
  obtain ⟨sign, hsign⟩ : ∃ sign : Int, sign = if k < 0 then -1 else 1 := ⟨_, rfl⟩
  have hnat : k.natAbs ≤ 2 ^ 31 := by
    rw [Int.abs_eq_natAbs] at hle
    omega
  have hmag : sign * k = k.natAbs := by
    rw [hsign]
    split <;> omega
  have hW : (((k.natAbs : Int) - if (0 : Int) < 0 then 1 else 0) % 2 ^ 128).toNat = k.natAbs := by
    rw [if_neg (by omega)]
    omega
  have hshift : bitLength k.natAbs - 64 = 0 := by
    have hlow := (@bitLength_spec k.natAbs (by omega)).1
    by_contra hne
    have hpow : 2 ^ 63 ≤ 2 ^ (bitLength k.natAbs - 1) :=
      Nat.pow_le_pow_right (by norm_num) (by omega)
    omega
  unfold rounded
  simp only [← hsign, List.map_cons, List.map_nil, List.length_singleton, Nat.reduceSub,
    List.drop_zero, List.take_zero, List.foldr_cons, List.foldr_nil, zero_mul, zero_add, hmag,
    List.reverse_nil, List.find?_nil, Option.getD_none, hW, hshift, pow_zero, Nat.div_one,
    Nat.mod_one, ne_eq, not_true_eq_false, or_self, if_false, Nat.or_zero, add_zero]
  rw [Nat.mod_eq_of_lt (by omega), show ((32 * 66 : Nat) : Int) - 1074 = 1038 by norm_num,
    if_neg (show ¬(1038 : Int) < -1022 by norm_num), ofNat_mul_past hnat]
  by_cases hneg : k < 0
  · rw [if_pos hneg] at hsign
    rw [if_pos (by omega), neg_ofUnits, decide_eq_false (by omega)]
    rfl
  · rw [if_neg hneg] at hsign
    rw [if_neg (by omega), decide_eq_true (by omega)]

end Exact

end Improv.Engine
