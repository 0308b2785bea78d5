import Mathlib.Data.Int.ModEq
import Improv.Engine.ExactTerms
import Improv.PgModel.Fold
/-!
# The exact accumulator

The limbs of an exact sum hold a whole number of units modulo `2 ^ 2304`, in
two's complement.  Adding a finite float any number of times adds its units that
many times, so removing what was added gives the same limbs back: the limbs are
determined by the units they hold.
-/

namespace Improv.PgModel.Exact

open Improv.Lib Improv.Engine

/-! ## Limbs as a number -/

@[simp] theorem ofLimbs_nil : ofLimbs [] = 0 := rfl

@[simp] theorem ofLimbs_cons (l : UInt64) (ls : List UInt64) :
    ofLimbs (l :: ls) = l.toNat + 2 ^ 64 * ofLimbs ls := rfl

theorem ofLimbs_append (ls ks : List UInt64) :
    ofLimbs (ls ++ ks) = ofLimbs ls + 2 ^ (64 * ls.length) * ofLimbs ks := by
  induction ls with
  | nil => simp
  | cons l ls ih =>
      rw [List.cons_append, ofLimbs_cons, ofLimbs_cons, ih, List.length_cons, Nat.mul_succ,
        pow_add]
      ring

theorem ofLimbs_lt (ls : List UInt64) : ofLimbs ls < 2 ^ (64 * ls.length) := by
  induction ls with
  | nil => simp
  | cons l ls ih =>
      have hl := l.toNat_lt
      rw [ofLimbs_cons, List.length_cons, Nat.mul_succ, pow_add]
      omega

theorem ofLimbs_replicate (n : Nat) : ofLimbs (List.replicate n 0) = 0 := by
  induction n with
  | zero => rfl
  | succ n ih =>
      rw [List.replicate_succ, ofLimbs_cons, ih]
      rfl

/-- Limbs of one length are their number. -/
theorem ofLimbs_injective {ls ks : List UInt64} (hlen : ls.length = ks.length)
    (h : ofLimbs ls = ofLimbs ks) : ls = ks := by
  induction ls generalizing ks with
  | nil =>
      symm
      exact List.eq_nil_of_length_eq_zero hlen.symm
  | cons l ls ih =>
      cases ks with
      | nil => simp at hlen
      | cons k ks =>
          rw [ofLimbs_cons, ofLimbs_cons] at h
          have hl := l.toNat_lt
          have hk := k.toNat_lt
          have hhead : l.toNat = k.toNat := by omega
          have htail : ofLimbs ls = ofLimbs ks := by omega
          rw [UInt64.toNat_inj.mp hhead, ih (by simpa using hlen) htail]

/-! ## Adding words -/

/-- The sign of what is added. -/
def signOf (neg : Bool) : Int := if neg then -1 else 1

theorem toNat_overflowingAdd (a b : UInt64) :
    (overflowingAdd a b).1.toNat + 2 ^ 64 * (overflowingAdd a b).2.toNat =
      a.toNat + b.toNat := by
  have ha := a.toNat_lt
  have hb := b.toNat_lt
  unfold overflowingAdd
  dsimp only
  rw [UInt64.toNat_add]
  by_cases hover : 2 ^ 64 ≤ a.toNat + b.toNat
  · rw [decide_eq_true hover, Bool.toNat_true]
    omega
  · rw [decide_eq_false hover, Bool.toNat_false]
    omega

theorem toNat_overflowingSub (a b : UInt64) :
    ((overflowingSub a b).1.toNat : Int) - 2 ^ 64 * (overflowingSub a b).2.toNat =
      a.toNat - b.toNat := by
  have ha := a.toNat_lt
  have hb := b.toNat_lt
  unfold overflowingSub
  dsimp only
  rw [UInt64.toNat_sub]
  by_cases hunder : a.toNat < b.toNat
  · rw [decide_eq_true hunder, Bool.toNat_true]
    omega
  · rw [decide_eq_false hunder, Bool.toNat_false]
    omega

theorem toNat_carry (carry : Bool) : (if carry then (1 : UInt64) else 0).toNat = carry.toNat := by
  cases carry <;> rfl

/-- A limb, with a word and a carry added or taken away, and the carry out. -/
theorem limbStep_spec (neg : Bool) (limb w : UInt64) (carry : Bool) :
    (limb.toNat : Int) + signOf neg * (w.toNat + carry.toNat) =
      (limbStep neg limb w carry).1.toNat +
        signOf neg * (2 ^ 64 * (limbStep neg limb w carry).2.toNat) := by
  cases neg with
  | false =>
      have hfirst := toNat_overflowingAdd limb w
      have hsecond := toNat_overflowingAdd (overflowingAdd limb w).1 (if carry then 1 else 0)
      have hlimb := (overflowingAdd (overflowingAdd limb w).1 (if carry then 1 else 0)).1.toNat_lt
      have hl := limb.toNat_lt
      have hw := w.toNat_lt
      rw [toNat_carry] at hsecond
      unfold limbStep signOf
      simp only [Bool.false_eq_true, if_false]
      generalize overflowingAdd limb w = first at *
      generalize overflowingAdd first.1 (if carry then 1 else 0) = second at *
      obtain ⟨s, c1⟩ := first
      obtain ⟨s', c2⟩ := second
      cases c1 <;> cases c2 <;> cases carry <;> simp_all <;> omega
  | true =>
      have hfirst := toNat_overflowingSub limb w
      have hsecond := toNat_overflowingSub (overflowingSub limb w).1 (if carry then 1 else 0)
      have hlimb := (overflowingSub (overflowingSub limb w).1 (if carry then 1 else 0)).1.toNat_lt
      have hl := limb.toNat_lt
      have hw := w.toNat_lt
      rw [toNat_carry] at hsecond
      unfold limbStep signOf
      simp only [if_true]
      generalize overflowingSub limb w = first at *
      generalize overflowingSub first.1 (if carry then 1 else 0) = second at *
      obtain ⟨s, c1⟩ := first
      obtain ⟨s', c2⟩ := second
      cases c1 <;> cases c2 <;> cases carry <;> simp_all <;> omega

theorem length_addWords (neg : Bool) (j : Nat) (words : List UInt64) (carry : Bool)
    (limbs : List UInt64) : (addWords neg j words carry limbs).length = limbs.length := by
  induction limbs generalizing j words carry with
  | nil => rfl
  | cons limb limbs ih =>
      unfold addWords
      dsimp only
      split
      · split
        · rfl
        · rw [List.length_cons, ih, List.length_cons]
      · rw [List.length_cons, ih, List.length_cons]

theorem ofLimbs_headD_tail (words : List UInt64) :
    ofLimbs words = (words.headD 0).toNat + 2 ^ 64 * ofLimbs words.tail := by
  cases words with
  | nil => rfl
  | cons w ws => rfl

/-- At most three words, added to or taken from the limbs, modulo what the limbs
hold. -/
theorem addWords_spec (neg : Bool) {j : Nat} {words : List UInt64} (hj : words.length ≤ 3 - j)
    (carry : Bool) (limbs : List UInt64) :
    (ofLimbs (addWords neg j words carry limbs) : Int) ≡
      ofLimbs limbs + signOf neg * (ofLimbs words + carry.toNat)
      [ZMOD 2 ^ (64 * limbs.length)] := by
  induction limbs generalizing j words carry with
  | nil => exact Int.modEq_one
  | cons limb limbs ih =>
      have htail : words.tail.length ≤ 3 - (j + 1) := by
        rw [List.length_tail]
        omega
      have hpow : (2 : Int) ^ (64 * (limb :: limbs).length) = 2 ^ 64 * 2 ^ (64 * limbs.length) := by
        rw [List.length_cons, Nat.mul_succ, pow_add, mul_comm]
      have hwords := ofLimbs_headD_tail words
      unfold addWords
      dsimp only
      split
      · next hzero =>
          obtain ⟨hw, hcarry⟩ := hzero
          rw [hw] at hwords
          rw [hcarry]
          split
          · next hlast =>
              -- Past the third word there is nothing left to add.
              have hnil : words.tail = [] :=
                List.eq_nil_of_length_eq_zero (by rw [List.length_tail]; omega)
              have hnone : ofLimbs words = 0 := by
                rw [hwords, hnil]
                rfl
              rw [hnone]
              simp
          · have hrest := (ih htail false).mul_left' (c := 2 ^ 64)
            rw [← hpow] at hrest
            have hsum := hrest.add_left (limb.toNat : Int)
            rw [ofLimbs_cons, ofLimbs_cons, hwords]
            push_cast at hsum ⊢
            refine hsum.trans ?_
            apply congrArg (· % _)
            simp
            ring
      · have hstep := limbStep_spec neg limb (words.headD 0) carry
        generalize limbStep neg limb (words.headD 0) carry = out at hstep ⊢
        have hrest := (ih htail out.2).mul_left' (c := 2 ^ 64)
        rw [← hpow] at hrest
        have hsum := hrest.add_left (out.1.toNat : Int)
        rw [ofLimbs_cons, ofLimbs_cons, hwords]
        push_cast at hsum ⊢
        refine hsum.trans ?_
        apply congrArg (· % _)
        calc (out.1.toNat : Int) + 2 ^ 64 *
              (ofLimbs limbs + signOf neg * (ofLimbs words.tail + out.2.toNat))
            = (out.1.toNat + signOf neg * (2 ^ 64 * out.2.toNat)) +
                2 ^ 64 * (ofLimbs limbs + signOf neg * ofLimbs words.tail) := by ring
          _ = (limb.toNat + signOf neg * ((words.headD 0).toNat + carry.toNat)) +
                2 ^ 64 * (ofLimbs limbs + signOf neg * ofLimbs words.tail) := by rw [hstep]
          _ = _ := by ring

/-! ## What an accumulator holds -/

/-- The accumulator holds `V` units, modulo what its limbs can tell apart. -/
structure Denotes (a : Exact) (V : Int) : Prop where
  length : a.limbs.length = LIMBS
  value : (ofLimbs a.limbs : Int) ≡ V [ZMOD 2 ^ (64 * LIMBS)]

theorem denotes_default : default.Denotes 0 where
  length := List.length_replicate
  value := by
    unfold default
    rw [ofLimbs_replicate]
    rfl

/-- The units held determine the limbs. -/
theorem Denotes.unique {a b : Exact} {V : Int} (ha : a.Denotes V) (hb : b.Denotes V) : a = b := by
  have heq : (ofLimbs a.limbs : Int) ≡ ofLimbs b.limbs [ZMOD 2 ^ (64 * LIMBS)] :=
    ha.value.trans hb.value.symm
  have hlta := ofLimbs_lt a.limbs
  have hltb := ofLimbs_lt b.limbs
  rw [ha.length] at hlta
  rw [hb.length] at hltb
  have hnat : ofLimbs a.limbs = ofLimbs b.limbs := by
    have h : ofLimbs a.limbs ≡ ofLimbs b.limbs [MOD 2 ^ (64 * LIMBS)] := by
      rw [← Int.natCast_modEq_iff]
      push_cast
      exact heq
    exact h.eq_of_lt_of_lt hlta hltb
  have hlimbs := ofLimbs_injective (ha.length.trans hb.length.symm) hnat
  cases a
  cases b
  exact congrArg Exact.mk hlimbs

/-- The words of a number of at most three. -/
theorem ofLimbs_words {n : Nat} (h : n < 2 ^ 192) :
    ofLimbs [.ofNat n, .ofNat (n / 2 ^ 64), .ofNat (n / 2 ^ 128)] = n := by
  simp only [ofLimbs_cons, ofLimbs_nil, UInt64.toNat_ofNat']
  omega

/-- A number added at a shift, modulo what the limbs hold. -/
theorem addShifted_spec {a : Exact} (hlen : a.limbs.length = LIMBS) (neg : Bool) {v shift : Nat}
    (hv : v < 2 ^ 128) (hshift : shift ≤ 2045) :
    let shifted := v * 2 ^ (shift % 64)
    let words : List UInt64 :=
      [.ofNat shifted, .ofNat (shifted / 2 ^ 64), .ofNat (shifted / 2 ^ 128)]
    let limbs := a.limbs.take (shift / 64) ++
      addWords neg 0 words false (a.limbs.drop (shift / 64))
    limbs.length = LIMBS ∧ (ofLimbs limbs : Int) ≡
      ofLimbs a.limbs + signOf neg * (v * 2 ^ shift) [ZMOD 2 ^ (64 * LIMBS)] := by
  intro shifted words limbs
  have hfirst : shift / 64 ≤ LIMBS := by
    unfold LIMBS
    omega
  have htake : (a.limbs.take (shift / 64)).length = shift / 64 := by
    rw [List.length_take, hlen, Nat.min_eq_left hfirst]
  have hdrop : (a.limbs.drop (shift / 64)).length = LIMBS - shift / 64 := by
    rw [List.length_drop, hlen]
  have hsmall : shifted < 2 ^ 192 := by
    have hoff : 2 ^ (shift % 64) < 2 ^ 64 :=
      Nat.pow_lt_pow_right (by norm_num) (Nat.mod_lt _ (by norm_num))
    calc v * 2 ^ (shift % 64) < 2 ^ 128 * 2 ^ 64 := Nat.mul_lt_mul'' hv hoff
      _ = 2 ^ 192 := by norm_num
  have hwords : ofLimbs words = shifted := ofLimbs_words hsmall
  constructor
  · rw [List.length_append, htake, length_addWords, hdrop]
    omega
  · have hsplit : a.limbs.take (shift / 64) ++ a.limbs.drop (shift / 64) = a.limbs :=
      List.take_append_drop _ _
    have hlen : words.length ≤ 3 - 0 := le_rfl
    have hadd := (addWords_spec neg hlen false
      (a.limbs.drop (shift / 64))).mul_left' (c := 2 ^ (64 * (shift / 64)))
    have hpow : (2 : Int) ^ (64 * (shift / 64)) * 2 ^ (64 * (a.limbs.drop (shift / 64)).length) =
        2 ^ (64 * LIMBS) := by
      rw [hdrop, ← pow_add, ← Nat.mul_add, Nat.add_sub_cancel' hfirst]
    have hplace : (2 : Int) ^ (64 * (shift / 64)) * (v * 2 ^ (shift % 64)) = v * 2 ^ shift := by
      calc (2 : Int) ^ (64 * (shift / 64)) * (v * 2 ^ (shift % 64))
          = v * 2 ^ (64 * (shift / 64) + shift % 64) := by
            rw [pow_add]
            ring
        _ = v * 2 ^ shift := by rw [Nat.div_add_mod]
    rw [hpow, hwords] at hadd
    have hsum := hadd.add_left (ofLimbs (a.limbs.take (shift / 64)) : Int)
    rw [ofLimbs_append, htake]
    conv_rhs => rw [← hsplit, ofLimbs_append, htake]
    push_cast at hsum ⊢
    refine hsum.trans ?_
    apply congrArg (· % _)
    rw [← hplace]
    simp only [shifted, Bool.toNat_false]
    push_cast
    ring

theorem signOf_mul (s : Bool) (k : Int) (u : Nat) :
    signOf (s != decide (k < 0)) * ((k.natAbs : Int) * u) = F64.signed s u * k := by
  have habs : (k.natAbs : Int) = if k < 0 then -k else k := by
    split <;> omega
  unfold signOf F64.signed
  rw [habs]
  by_cases hk : k < 0
  · cases s <;> simp [hk] <;> ring
  · cases s <;> simp [hk] <;> ring

/-- The words `add` adds, where they start and their sign, of a float's bits. -/
theorem limbs_add (a : Exact) {x : F64} (k : Int) {neg : Bool} {e frac m shift : Nat}
    (hbits : bitFields x = (neg, e, frac)) (hm : mantissa e frac = (m, shift)) :
    (a.add x k).limbs = a.limbs.take (shift / 64) ++ addWords (neg != decide (k < 0)) 0
      [.ofNat (m * k.natAbs * 2 ^ (shift % 64)),
        .ofNat (m * k.natAbs * 2 ^ (shift % 64) / 2 ^ 64),
        .ofNat (m * k.natAbs * 2 ^ (shift % 64) / 2 ^ 128)]
      false (a.limbs.drop (shift / 64)) := by
  unfold bitFields at hbits
  simp only [Prod.mk.injEq] at hbits
  obtain ⟨hsign, hexp, hfrac⟩ := hbits
  have hneg : decide (2 ^ 63 ≤ x.toBits.toNat) = neg := by
    have hlt := x.toBits.toNat_lt
    generalize x.toBits.toNat = bits at hsign hlt ⊢
    rw [← hsign, Bool.eq_iff_iff, decide_eq_true_iff, beq_iff_eq]
    omega
  unfold mantissa at hm
  unfold Exact.add
  simp only [hexp, hfrac, hneg, hm]

/-- A finite float added `k` times adds its units `k` times. -/
theorem Denotes.add {a : Exact} {V : Int} (h : a.Denotes V) {x : F64} (hx : x.isFinite = true)
    {k : Int} (hk : k.natAbs ≤ 2 ^ 63) : (a.add x k).Denotes (V + unitsOf x * k) := by
  cases x with
  | nan => cases hx
  | inf s => cases hx
  | finite s u hu =>
      obtain ⟨e, frac, hbits, -, hm, hshift, hval⟩ := @bitFields_finite s u hu
      obtain ⟨m, shift, hmantissa⟩ : ∃ m shift, mantissa e frac = (m, shift) := ⟨_, _, rfl⟩
      rw [hmantissa] at hm hshift hval
      have hv : m * k.natAbs < 2 ^ 128 := by
        calc m * k.natAbs ≤ 2 ^ 53 * 2 ^ 63 := Nat.mul_le_mul hm.le hk
          _ < 2 ^ 128 := by norm_num
      obtain ⟨hlen, hvalue⟩ := addShifted_spec h.length (s != decide (k < 0)) hv hshift
      have hlimbs := limbs_add a k hbits hmantissa
      refine ⟨hlimbs ▸ hlen, ?_⟩
      rw [hlimbs]
      refine (hvalue.trans (h.value.add_right _)).trans ?_
      have hunits : unitsOf (.finite s u hu) = F64.signed s u := rfl
      have hsigned := signOf_mul s k (m * 2 ^ shift)
      rw [hunits, ← hval, ← hsigned]
      apply congrArg (· % _)
      push_cast
      ring

end Improv.PgModel.Exact
