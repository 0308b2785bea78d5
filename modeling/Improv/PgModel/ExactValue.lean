import Improv.Engine.ExactTotals
import Improv.PgModel.ExactLimbs
/-!
# The accumulator's value

The value of an exact sum is the double nearest to the units it holds, ties to
even, infinite past the largest: the magnitude's top 64 bits with the rest in a
sticky bit, one conversion and an exact scaling.
-/

namespace Improv.PgModel.Exact

open Improv.Lib Improv.Lib.F64 Improv.Engine

/-! ## Sign and magnitude -/

/-- The limbs of the negated number, modulo what they hold. -/
theorem negate_spec (carry : Bool) (limbs : List UInt64) :
    (negate carry limbs).length = limbs.length ∧
      (ofLimbs (negate carry limbs) : Int) ≡ carry.toNat - 1 - ofLimbs limbs
        [ZMOD 2 ^ (64 * limbs.length)] := by
  induction limbs generalizing carry with
  | nil => exact ⟨rfl, Int.modEq_one⟩
  | cons l ls ih =>
      have hadd := toNat_overflowingAdd (~~~l) (if carry then 1 else 0)
      rw [toNat_carry, UInt64.toNat_not, show UInt64.size = 2 ^ 64 from rfl] at hadd
      have hl := l.toNat_lt
      have hpow : (2 : Int) ^ (64 * (l :: ls).length) = 2 ^ 64 * 2 ^ (64 * ls.length) := by
        rw [List.length_cons, Nat.mul_succ, pow_add, mul_comm]
      unfold negate
      dsimp only
      generalize overflowingAdd (~~~l) (if carry then 1 else 0) = out at hadd ⊢
      obtain ⟨hlen, hrest⟩ := ih out.2
      refine ⟨by rw [List.length_cons, hlen, List.length_cons], ?_⟩
      have hmul := hrest.mul_left' (c := 2 ^ 64)
      rw [← hpow] at hmul
      have hsum := hmul.add_left (out.1.toNat : Int)
      rw [ofLimbs_cons, ofLimbs_cons]
      push_cast at hsum ⊢
      refine hsum.trans ?_
      apply congrArg (· % _)
      have hcast : (out.1.toNat : Int) + 2 ^ 64 * out.2.toNat =
          2 ^ 64 - 1 - l.toNat + carry.toNat := by omega
      linarith

/-- The top bit tells the half the number is in. -/
theorem top_bit_iff {limbs : List UInt64} {n : Nat} (hlen : limbs.length = n + 1) :
    2 ^ 63 ≤ (limbs.getLastD 0).toNat ↔ 2 ^ (64 * n + 63) ≤ ofLimbs limbs := by
  obtain ⟨low, top, rfl⟩ : ∃ low top, limbs = low ++ [top] := by
    have hne : limbs ≠ [] := by
      intro hnil
      rw [hnil] at hlen
      cases hlen
    exact ⟨limbs.dropLast, limbs.getLast hne, (List.dropLast_append_getLast hne).symm⟩
  have hlow : low.length = n := by simpa using hlen
  have hlt := ofLimbs_lt low
  rw [hlow] at hlt
  rw [List.getLastD_eq_getLast?, List.getLast?_append_of_ne_nil _ (by simp), ofLimbs_append, hlow,
    pow_add]
  simp only [List.getLast?_singleton, Option.getD_some, ofLimbs_cons, ofLimbs_nil, Nat.mul_zero,
    Nat.add_zero]
  constructor
  · intro h
    calc 2 ^ (64 * n) * 2 ^ 63 ≤ 2 ^ (64 * n) * top.toNat := Nat.mul_le_mul_left _ h
      _ ≤ _ := Nat.le_add_left _ _
  · intro h
    by_contra hnot
    have hle : top.toNat + 1 ≤ 2 ^ 63 := by omega
    have := calc 2 ^ (64 * n) * (top.toNat + 1) ≤ 2 ^ (64 * n) * 2 ^ 63 :=
          Nat.mul_le_mul_left _ hle
      _ ≤ _ := h
    rw [Nat.mul_succ] at this
    omega

/-- The units an accumulator can hold apart. -/
def room : Nat := 2 ^ (64 * LIMBS - 1)

theorem pow_eq_two_mul_room : 2 ^ (64 * LIMBS) = 2 * room := by
  unfold room LIMBS
  rw [← pow_succ']

theorem Denotes.ofLimbs_eq {a : Exact} {V : Int} (h : a.Denotes V) (hV : |V| < room) :
    (ofLimbs a.limbs : Int) = if V < 0 then 2 * room + V else V := by
  have hlt := ofLimbs_lt a.limbs
  have hvalue := h.value
  have hpow : (2 : Int) ^ (64 * LIMBS) = 2 * room := by
    exact_mod_cast pow_eq_two_mul_room
  rw [h.length, pow_eq_two_mul_room] at hlt
  rw [hpow] at hvalue
  obtain ⟨hlow, hhigh⟩ := abs_lt.mp hV
  unfold Int.ModEq at hvalue
  rw [Int.emod_eq_of_lt (by omega) (by omega)] at hvalue
  split
  · next hneg =>
      rw [hvalue, ← Int.add_mul_emod_self_left V _ 1, mul_one, Int.emod_eq_of_lt] <;> omega
  · next hpos => rw [hvalue, Int.emod_eq_of_lt (by omega) (by omega)]

/-- The top bit is the sign. -/
theorem Denotes.neg_eq {a : Exact} {V : Int} (h : a.Denotes V) (hV : |V| < room) :
    decide (2 ^ 63 ≤ (a.limbs.getLastD 0).toNat) = decide (V < 0) := by
  have heq := h.ofLimbs_eq hV
  have htop : 2 ^ 63 ≤ (a.limbs.getLastD 0).toNat ↔ room ≤ ofLimbs a.limbs :=
    top_bit_iff (n := 35) h.length
  obtain ⟨hlow, hhigh⟩ := abs_lt.mp hV
  rw [Bool.eq_iff_iff, decide_eq_true_iff, decide_eq_true_iff, htop]
  split at heq <;> omega

/-- The magnitude the value is rounded from. -/
theorem Denotes.magnitude {a : Exact} {V : Int} (h : a.Denotes V) (hV : |V| < room) :
    ofLimbs (if V < 0 then negate true a.limbs else a.limbs) = V.natAbs := by
  have heq := h.ofLimbs_eq hV
  obtain ⟨hlow, hhigh⟩ := abs_lt.mp hV
  split
  · next hneg =>
      rw [if_pos hneg] at heq
      obtain ⟨hlen, hmod⟩ := negate_spec true a.limbs
      have hlt := ofLimbs_lt (negate true a.limbs)
      have hpow : (2 : Int) ^ (64 * LIMBS) = 2 * room := by
        exact_mod_cast pow_eq_two_mul_room
      rw [hlen, h.length, pow_eq_two_mul_room] at hlt
      rw [h.length, hpow] at hmod
      unfold Int.ModEq at hmod
      rw [Int.emod_eq_of_lt (by omega) (by omega), Bool.toNat_true, heq,
        ← Int.add_mul_emod_self_left _ _ 1, Int.emod_eq_of_lt (by push_cast; omega)
          (by push_cast; omega)] at hmod
      push_cast at hmod
      omega
  · next hpos =>
      rw [if_neg hpos] at heq
      omega

/-! ## The rounding -/

theorem ofInt_sign (neg : Bool) : ∃ h, F64.ofInt (if neg then -1 else 1) =
    .finite neg (2 ^ 1074) h := by
  have hone : roundUnits (1 * F64.one) 1 = 2 ^ 1074 := by
    rw [one_mul]
    exact roundUnits_of_significand (significand_pow 1074)
  refine ⟨representable_pow (by norm_num), ?_⟩
  unfold F64.ofInt F64.ofRatio
  cases neg with
  | false =>
      simp only [Bool.false_eq_true, if_false, Int.natAbs_one, hone]
      rw [ofUnits_of_representable (representable_pow (by norm_num)), decide_eq_false (by norm_num)]
  | true =>
      simp only [if_true, Int.natAbs_neg, Int.natAbs_one, hone]
      rw [ofUnits_of_representable (representable_pow (by norm_num)), decide_eq_true (by norm_num)]

/-- A sign times a rounded magnitude. -/
theorem sign_mul (neg : Bool) {w : Nat} (hw : Significand w) :
    (F64.ofInt (if neg then -1 else 1)).mul (F64.ofUnits false w) = F64.ofUnits neg w := by
  obtain ⟨hone, hsign⟩ := ofInt_sign neg
  rw [hsign]
  by_cases hrep : representable w = true
  · rw [ofUnits_of_representable hrep]
    unfold F64.mul
    dsimp only
    have hround : roundUnits (2 ^ 1074 * w) F64.one = w := by
      have hden := @roundUnits_mul_den w F64.one (Nat.two_pow_pos 1074)
      rw [roundUnits_of_significand hw] at hden
      rw [mul_comm]
      exact hden
    rw [hround, Bool.bne_false]
  · unfold F64.ofUnits
    rw [dif_neg hrep, dif_neg hrep]
    unfold F64.mul
    dsimp only
    rw [if_neg (by positivity), Bool.false_bne]

/-- Few bits: the magnitude is converted, and its unit is the least double. -/
theorem value_small (neg : Bool) {mag : Nat} (hmag : mag < 2 ^ 64) :
    ((F64.ofInt (if neg then -1 else 1)).mul (.ofNat mag)).mul (.ofBits 1) =
      F64.ofUnits neg (roundUnits mag 1) := by
  have hle : roundUnits mag 1 ≤ 2 ^ 64 := roundUnits_le (significand_pow 64) hmag.le
  have hsig := significand_roundUnits mag
  obtain ⟨hrep, hnat⟩ := ofNat_eq hmag
  have hunit : F64.ofBits 1 = .finite false 1 (representable_pow (by norm_num : 0 < 2098)) := by
    decide +kernel
  rw [hnat, ← ofUnits_of_representable hrep, sign_mul neg (hsig.mul_pow 1074),
    ofUnits_of_representable hrep, hunit]
  unfold F64.mul
  dsimp only
  have hden := @roundUnits_mul_den (roundUnits mag 1) F64.one (Nat.two_pow_pos 1074)
  rw [roundUnits_of_significand hsig] at hden
  rw [Bool.bne_false, mul_one]
  exact congrArg (F64.ofUnits neg) hden

/-- Many bits: the top 64 with a sticky bit are converted and scaled. -/
theorem value_large (neg : Bool) {mag : Nat} (hlen : 64 < mag.log2 + 1) :
    let low := mag.log2 + 1 - 64
    let top := mag / 2 ^ low
    (F64.ofInt (if neg then -1 else 1)).mul
      (pow2Scale (.ofNat (if mag % 2 ^ low ≠ 0 then top ||| 1 else top)) ((low : Int) - 1074)) =
      F64.ofUnits neg (roundUnits mag 1) := by
  intro low top
  have hpos : mag ≠ 0 := by
    intro hzero
    rw [hzero, Nat.log2_zero] at hlen
    omega
  have hbig : 2 ^ (63 + low) ≤ mag := by
    calc 2 ^ (63 + low) = 2 ^ mag.log2 := by congr 1; omega
      _ ≤ mag := Nat.log2_self_le hpos
  have hlt : mag < 2 ^ (64 + low) := by
    calc mag < 2 ^ (mag.log2 + 1) := Nat.lt_log2_self
      _ = 2 ^ (64 + low) := by congr 1; omega
  have hge : 2 ^ 63 ≤ top := by
    rw [Nat.le_div_iff_mul_le (Nat.two_pow_pos _), ← pow_add]
    exact hbig
  have htop : top < 2 ^ 64 := by
    rw [Nat.div_lt_iff_lt_mul (Nat.two_pow_pos _), ← pow_add]
    exact hlt
  obtain ⟨n, hn⟩ : ∃ n, n = if mag % 2 ^ low ≠ 0 then top ||| 1 else top := ⟨_, rfl⟩
  have hn64 : n < 2 ^ 64 := by
    rw [hn]
    split
    · exact Nat.or_lt_two_pow htop (by norm_num)
    · exact htop
  have hround : roundUnits mag 1 = roundUnits n 1 * 2 ^ low := by
    have hsticky := @roundUnits_sticky top low (mag % 2 ^ low) (by omega)
      (Nat.mod_lt _ (Nat.two_pow_pos _))
    rw [Nat.div_add_mod'] at hsticky
    rw [hsticky, hn]
    congr 2
    by_cases hzero : mag % 2 ^ low = 0
    · rw [if_pos hzero, if_neg (by simpa using hzero), Nat.or_zero]
    · rw [if_neg hzero, if_pos hzero]
  rw [← hn]
  by_cases hhuge : 2098 ≤ low
  · have hinf : pow2Scale (.ofNat n) ((low : Int) - 1074) = .inf false := by
      unfold pow2Scale
      rw [if_pos (by omega)]
    have hle := le_roundUnits (significand_pow 2098)
      ((Nat.pow_le_pow_right (by norm_num) (by omega)).trans hbig)
    have hinf' : F64.ofUnits false (roundUnits mag 1) = .inf false := by
      unfold F64.ofUnits
      rw [dif_neg fun hrep => absurd (representable_iff.mp hrep).1 (not_lt.mpr hle)]
    rw [hinf, ← hinf', sign_mul neg (significand_roundUnits mag)]
  · have hscale := scale_eq hn64 (not_le.mp hhuge)
    have hpow : pow2Scale (.ofNat n) ((low : Int) - 1074) =
        F64.ofUnits false (roundUnits n 1 * 2 ^ low) := by
      rw [← hscale]
      unfold pow2Scale
      rw [if_neg (by omega)]
      rfl
    rw [hpow, hround, sign_mul neg ((significand_roundUnits n).mul_pow low)]

/-- The sum, rounded once to the nearest float. -/
theorem Denotes.value_eq {a : Exact} {V : Int} (h : a.Denotes V) (hV : |V| < room) :
    a.value = nearest V := by
  have hneg := h.neg_eq hV
  have hmag : ofLimbs (if decide (V < 0) = true then negate true a.limbs else a.limbs) =
      V.natAbs := by
    simpa only [decide_eq_true_eq] using h.magnitude hV
  unfold Improv.PgModel.Exact.value nearest
  simp only [hneg, hmag]
  generalize hsign : decide (V < 0) = neg
  split
  · next hzero =>
      have hV0 : V = 0 := by omega
      rw [hV0, decide_eq_false (lt_irrefl 0)] at hsign
      rw [hV0, Int.natAbs_zero, roundUnits_zero, ← hsign]
      exact (ofUnits_of_representable representable_zero).symm
  · split
    · next hlen =>
        exact value_small neg (by
          have hlt := @Nat.lt_log2_self V.natAbs
          exact hlt.trans_le (Nat.pow_le_pow_right (by norm_num) hlen))
    · next hlen => exact value_large neg (not_le.mp hlen)

end Improv.PgModel.Exact
