import Mathlib.Algebra.BigOperators.Group.List.Basic
import Improv.PgModel.ExactValue
/-!
# The exact accumulator word by word

The accumulator as its 64-bit words are computed: the product's two words
shifted over three limbs, and the rounded value read from the limbs, their top
bits in one word and the rest in a sticky bit.  Word by word it adds and rounds
what it does as a whole number.
-/

namespace Improv.PgModel.Exact

open Improv.Lib Improv.Lib.F64 Improv.Engine

/-! ## Shifted words -/

/-- A product of two words, shifted by less than a word over three. -/
def shiftedWords (lo hi : UInt64) (off : Nat) : List UInt64 :=
  if off = 0 then [lo, hi, 0]
  else
    [lo <<< .ofNat off, hi <<< .ofNat off ||| lo >>> .ofNat (64 - off), hi >>> .ofNat (64 - off)]

theorem toNat_shiftRight {w : UInt64} {k : Nat} (hk : k < 64) :
    (w >>> .ofNat k).toNat = w.toNat / 2 ^ k := by
  rw [UInt64.toNat_shiftRight, UInt64.toNat_ofNat', Nat.shiftRight_eq_div_pow,
    Nat.mod_eq_of_lt (show k < 2 ^ 64 by omega), Nat.mod_eq_of_lt hk]

theorem toNat_shiftLeft {w : UInt64} {k : Nat} (hk : k < 64) :
    (w <<< .ofNat k).toNat = 2 ^ k * (w.toNat % 2 ^ (64 - k)) := by
  have hpow : 2 ^ 64 = 2 ^ k * 2 ^ (64 - k) := by
    rw [← pow_add, Nat.add_sub_cancel' hk.le]
  rw [UInt64.toNat_shiftLeft, UInt64.toNat_ofNat', Nat.shiftLeft_eq,
    Nat.mod_eq_of_lt (show k < 2 ^ 64 by omega), Nat.mod_eq_of_lt hk, mul_comm, hpow,
    Nat.mul_mod_mul_left]

/-- The high bits of one word joined to the low bits of the next. -/
theorem toNat_joined {lo hi : UInt64} {k : Nat} (hk : k < 64) (hpos : 0 < k) :
    (hi <<< .ofNat k ||| lo >>> .ofNat (64 - k)).toNat =
      2 ^ k * (hi.toNat % 2 ^ (64 - k)) + lo.toNat / 2 ^ (64 - k) := by
  have hlow : lo.toNat / 2 ^ (64 - k) < 2 ^ k := by
    rw [Nat.div_lt_iff_lt_mul (Nat.two_pow_pos _), ← pow_add, Nat.add_sub_cancel' hk.le]
    exact lo.toNat_lt
  rw [UInt64.toNat_or, toNat_shiftLeft hk, toNat_shiftRight (by omega),
    Nat.two_pow_add_eq_or_of_lt hlow]

theorem ofLimbs_shiftedWords (lo hi : UInt64) {off : Nat} (hoff : off < 64) :
    ofLimbs (shiftedWords lo hi off) = (lo.toNat + 2 ^ 64 * hi.toNat) * 2 ^ off := by
  unfold shiftedWords
  by_cases hzero : off = 0
  · rw [if_pos hzero, hzero]
    simp
  · have hpow : 2 ^ 64 = 2 ^ off * 2 ^ (64 - off) := by
      rw [← pow_add, Nat.add_sub_cancel' hoff.le]
    have hsplit : ∀ n : Nat,
        2 ^ off * (n % 2 ^ (64 - off)) + 2 ^ 64 * (n / 2 ^ (64 - off)) = n * 2 ^ off := by
      intro n
      calc 2 ^ off * (n % 2 ^ (64 - off)) + 2 ^ 64 * (n / 2 ^ (64 - off))
          = 2 ^ off * (n % 2 ^ (64 - off) + 2 ^ (64 - off) * (n / 2 ^ (64 - off))) := by
            rw [hpow]
            ring
        _ = n * 2 ^ off := by rw [Nat.mod_add_div, mul_comm]
    have hlo := hsplit lo.toNat
    have hhi := hsplit hi.toNat
    rw [if_neg hzero]
    simp only [ofLimbs_cons, ofLimbs_nil, toNat_shiftLeft hoff,
      toNat_joined hoff (Nat.pos_of_ne_zero hzero), toNat_shiftRight (show 64 - off < 64 by omega)]
    calc _ = (2 ^ off * (lo.toNat % 2 ^ (64 - off)) + 2 ^ 64 * (lo.toNat / 2 ^ (64 - off))) +
          2 ^ 64 * (2 ^ off * (hi.toNat % 2 ^ (64 - off)) +
            2 ^ 64 * (hi.toNat / 2 ^ (64 - off))) := by ring
      _ = _ := by
        rw [hlo, hhi]
        ring

/-- The words shifted one by one are those of the shifted product. -/
theorem shiftedWords_eq {v off : Nat} (hv : v < 2 ^ 128) (hoff : off < 64) :
    shiftedWords (.ofNat v) (.ofNat (v / 2 ^ 64)) off =
      [.ofNat (v * 2 ^ off), .ofNat (v * 2 ^ off / 2 ^ 64), .ofNat (v * 2 ^ off / 2 ^ 128)] := by
  have hsmall : v * 2 ^ off < 2 ^ 192 := by
    have hpow : 2 ^ off < 2 ^ 64 := Nat.pow_lt_pow_right (by norm_num) hoff
    calc v * 2 ^ off < 2 ^ 128 * 2 ^ 64 := Nat.mul_lt_mul'' hv hpow
      _ = 2 ^ 192 := by norm_num
  have hlen : (shiftedWords (.ofNat v) (.ofNat (v / 2 ^ 64)) off).length = 3 := by
    unfold shiftedWords
    split <;> rfl
  apply ofLimbs_injective hlen
  rw [ofLimbs_words hsmall, ofLimbs_shiftedWords _ _ hoff, UInt64.toNat_ofNat',
    UInt64.toNat_ofNat']
  congr 1
  omega

/-- `add`, its product's words shifted one by one. -/
def addLimbs (a : Exact) (x : F64) (k : Int) : Exact :=
  let bits := x.toBits.toNat
  let e := bits / 2 ^ 52 % 2 ^ 11
  let frac := bits % 2 ^ 52
  let (m, shift) := if e = 0 then (frac, 0) else (frac + 2 ^ 52, e - 1)
  let v := m * k.natAbs
  let first := shift / 64
  let words := shiftedWords (.ofNat v) (.ofNat (v / 2 ^ 64)) (shift % 64)
  let neg := (2 ^ 63 ≤ bits) != (k < 0)
  ⟨a.limbs.take first ++ addWords neg 0 words false (a.limbs.drop first)⟩

theorem addLimbs_eq (a : Exact) (x : F64) {k : Int} (hk : k.natAbs ≤ 2 ^ 63) :
    a.addLimbs x k = a.add x k := by
  have hfrac := Nat.mod_lt x.toBits.toNat (Nat.two_pow_pos 52)
  have hmod : ∀ shift : Nat, shift % 64 < 64 := fun shift => Nat.mod_lt shift (by norm_num)
  unfold addLimbs add
  dsimp only
  by_cases he : x.toBits.toNat / 2 ^ 52 % 2 ^ 11 = 0
  · have hv : x.toBits.toNat % 2 ^ 52 * k.natAbs < 2 ^ 128 := by
      calc x.toBits.toNat % 2 ^ 52 * k.natAbs ≤ 2 ^ 52 * 2 ^ 63 := Nat.mul_le_mul hfrac.le hk
        _ < 2 ^ 128 := by norm_num
    simp only [he, if_true]
    rw [shiftedWords_eq hv (hmod 0)]
  · have hv : (x.toBits.toNat % 2 ^ 52 + 2 ^ 52) * k.natAbs < 2 ^ 128 := by
      calc (x.toBits.toNat % 2 ^ 52 + 2 ^ 52) * k.natAbs
          ≤ 2 ^ 53 * 2 ^ 63 := Nat.mul_le_mul (by omega) hk
        _ < 2 ^ 128 := by norm_num
    simp only [he, if_false]
    rw [shiftedWords_eq hv (hmod _)]

/-! ## The rounded value -/

/-- The place of the last limb that is not zero. -/
def topLimb : List UInt64 → Option Nat
  | [] => none
  | l :: ls =>
    match topLimb ls with
    | some i => some (i + 1)
    | none => if l = 0 then none else some 0

def leadingZeros (w : UInt64) : Nat := if w = 0 then 64 else 63 - w.toNat.log2

/-- The 64 bits of some limbs from `bit` on, when `top` is the last that counts. -/
def window (mag : List UInt64) (top bit : Nat) : UInt64 :=
  let i := bit / 64
  let o := bit % 64
  let w := mag.getD i 0 >>> .ofNat o
  if o = 0 ∨ top < i + 1 then w else w ||| mag.getD (i + 1) 0 <<< .ofNat (64 - o)

/-- Whether a bit below `low` is set. -/
def stickyBit (mag : List UInt64) (low : Nat) : Bool :=
  (mag.take (low / 64)).any (· ≠ 0) ||
    mag.getD (low / 64) 0 &&& ((1 : UInt64) <<< .ofNat (low % 64) - 1) ≠ 0

/-- `value`, read limb by limb. -/
def valueLimbs (a : Exact) : F64 :=
  let neg := a.limbs.getD (LIMBS - 1) 0 >>> 63 == 1
  let mag := if neg then negate true a.limbs else a.limbs
  let sign : F64 := .ofInt (if neg then -1 else 1)
  match topLimb mag with
  | none => .zero
  | some top =>
    let len := 64 * top + 64 - leadingZeros (mag.getD top 0)
    if len ≤ 64 then (sign.mul (.ofNat (mag.getD 0 0).toNat)).mul (.ofBits 1)
    else
      let low := len - 64
      let x : F64 := .ofNat (window mag top low ||| if stickyBit mag low then 1 else 0).toNat
      sign.mul (pow2Scale x ((low : Int) - 1074))

theorem topLimb_eq_none {ls : List UInt64} (h : topLimb ls = none) : ofLimbs ls = 0 := by
  induction ls with
  | nil => rfl
  | cons l ls ih =>
      unfold topLimb at h
      split at h
      · cases h
      · next hnone =>
          split at h
          · next hzero =>
              rw [ofLimbs_cons, ih hnone, hzero]
              rfl
          · cases h

/-- The last limb that is not zero ends the number. -/
theorem topLimb_eq_some {ls : List UInt64} {i : Nat} (h : topLimb ls = some i) :
    ls.getD i 0 ≠ 0 ∧
      ofLimbs ls = ofLimbs (ls.take i) + 2 ^ (64 * i) * (ls.getD i 0).toNat ∧
      (ls.take i).length = i := by
  induction ls generalizing i with
  | nil => cases h
  | cons l ls ih =>
      unfold topLimb at h
      split at h
      · next j htop =>
          cases h
          obtain ⟨hne, hsum, hlen⟩ := ih htop
          refine ⟨hne, ?_, congrArg (· + 1) hlen⟩
          rw [List.take_succ_cons, ofLimbs_cons, ofLimbs_cons, List.getD_cons_succ, hsum,
            Nat.mul_succ, pow_add]
          ring
      · next hnone =>
          split at h
          · cases h
          · next hl =>
              cases h
              refine ⟨hl, ?_, rfl⟩
              rw [ofLimbs_cons, topLimb_eq_none hnone]
              simp

theorem toNat_ne_zero {w : UInt64} (h : w ≠ 0) : w.toNat ≠ 0 := fun hzero =>
  h (UInt64.toNat_inj.mp hzero)

/-- The bit length of the number, from its last limb. -/
theorem length_eq {ls : List UInt64} {i : Nat} (h : topLimb ls = some i) :
    64 * i + 64 - leadingZeros (ls.getD i 0) = (ofLimbs ls).log2 + 1 := by
  obtain ⟨hne, hsum, hlen⟩ := topLimb_eq_some h
  have hlow := ofLimbs_lt (ls.take i)
  rw [hlen] at hlow
  have hlog : (ls.getD i 0).toNat.log2 < 64 :=
    (Nat.log2_lt (toNat_ne_zero hne)).mpr (ls.getD i 0).toNat_lt
  rw [hsum, Nat.add_comm (ofLimbs _), mul_comm (2 ^ _), log2_mul_add (toNat_ne_zero hne) hlow]
  unfold leadingZeros
  rw [if_neg hne]
  omega

theorem ofLimbs_split (ls : List UInt64) {i : Nat} (hi : i ≤ ls.length) :
    ofLimbs ls = ofLimbs (ls.take i) + 2 ^ (64 * i) * ofLimbs (ls.drop i) := by
  conv_lhs => rw [← List.take_append_drop i ls, ofLimbs_append, List.length_take,
    Nat.min_eq_left hi]

theorem ofLimbs_drop (ls : List UInt64) (i : Nat) :
    ofLimbs (ls.drop i) = (ls.getD i 0).toNat + 2 ^ 64 * ofLimbs (ls.drop (i + 1)) := by
  rw [ofLimbs_headD_tail, List.tail_drop, List.headD_eq_head?_getD, List.head?_drop,
    List.getD_eq_getElem?_getD]

/-- The number from a limb on. -/
theorem ofLimbs_drop_eq (ls : List UInt64) {i : Nat} (hi : i ≤ ls.length) :
    ofLimbs (ls.drop i) = ofLimbs ls / 2 ^ (64 * i) := by
  have hlow := ofLimbs_lt (ls.take i)
  rw [List.length_take, Nat.min_eq_left hi] at hlow
  rw [ofLimbs_split ls hi, Nat.add_mul_div_left _ _ (Nat.two_pow_pos _),
    Nat.div_eq_of_lt hlow, Nat.zero_add]

theorem any_ne_zero_iff {ls : List UInt64} : ls.any (· ≠ 0) = true ↔ ofLimbs ls ≠ 0 := by
  induction ls with
  | nil => simp
  | cons l ls ih =>
      have hword : l ≠ 0 ↔ l.toNat ≠ 0 := ⟨toNat_ne_zero, fun h heq => h (by rw [heq]; rfl)⟩
      rw [List.any_cons, Bool.or_eq_true, ih, decide_eq_true_iff, hword, ofLimbs_cons]
      omega

/-- The bits of a word below one of them. -/
theorem mask_ne_zero_iff {w : UInt64} {o : Nat} (ho : o < 64) :
    w &&& ((1 : UInt64) <<< .ofNat o - 1) ≠ 0 ↔ w.toNat % 2 ^ o ≠ 0 := by
  have hpow : 2 ^ o < 2 ^ 64 := Nat.pow_lt_pow_right (by norm_num) ho
  have hpos := Nat.two_pow_pos o
  have hone : ((1 : UInt64) <<< .ofNat o).toNat = 2 ^ o := by
    rw [toNat_shiftLeft ho, show (1 : UInt64).toNat = 1 from rfl,
      Nat.mod_eq_of_lt (Nat.one_lt_two_pow (by omega)), mul_one]
  have hmask : ((1 : UInt64) <<< .ofNat o - 1).toNat = 2 ^ o - 1 := by
    rw [UInt64.toNat_sub, hone, show (1 : UInt64).toNat = 1 from rfl]
    omega
  have hand : (w &&& ((1 : UInt64) <<< .ofNat o - 1)).toNat = w.toNat % 2 ^ o := by
    rw [UInt64.toNat_and, hmask, Nat.and_two_pow_sub_one_eq_mod]
  constructor
  · intro hne
    rw [← hand]
    exact toNat_ne_zero hne
  · intro hne heq
    rw [heq] at hand
    exact hne hand.symm

section Window

variable {mag : List UInt64} {top : Nat} (htop : topLimb mag = some top)
include htop

theorem top_lt : top < mag.length := by
  obtain ⟨hne, -, -⟩ := topLimb_eq_some htop
  by_contra hge
  rw [List.getD_eq_getElem?_getD, List.getElem?_eq_none (Nat.le_of_not_lt hge)] at hne
  exact hne rfl

/-- Past the last limb that counts there is nothing. -/
theorem ofLimbs_past_top : ofLimbs (mag.drop (top + 1)) = 0 := by
  obtain ⟨-, hsum, -⟩ := topLimb_eq_some htop
  have hsplit := ofLimbs_split mag (top_lt htop).le
  rw [ofLimbs_drop, Nat.mul_add] at hsplit
  have hzero : 2 ^ (64 * top) * (2 ^ 64 * ofLimbs (mag.drop (top + 1))) = 0 := by omega
  have hpow := Nat.two_pow_pos (64 * top)
  have hword := Nat.two_pow_pos 64
  simpa [Nat.mul_eq_zero] using hzero

/-- The window of 64 bits is the number's top ones. -/
theorem window_eq {low : Nat} (hlow : low ≤ 64 * top) (hlt : ofLimbs mag < 2 ^ (64 + low)) :
    (window mag top low).toNat = ofLimbs mag / 2 ^ low := by
  obtain ⟨i, o, hi, ho, hsplit, ho64⟩ : ∃ i o, low / 64 = i ∧ low % 64 = o ∧ low = 64 * i + o ∧
      o < 64 := ⟨_, _, rfl, rfl, (Nat.div_add_mod low 64).symm, Nat.mod_lt _ (by norm_num)⟩
  have hitop : i ≤ top := by omega
  have hlen : i ≤ mag.length := hitop.trans (top_lt htop).le
  have hfrom := ofLimbs_drop_eq mag hlen
  have hnumber : ofLimbs mag / 2 ^ low = ofLimbs (mag.drop i) / 2 ^ o := by
    rw [hfrom, Nat.div_div_eq_div_mul, ← pow_add, ← hsplit]
  have hlimb := ofLimbs_drop mag i
  have hrest : ofLimbs (mag.drop (i + 1)) < 2 ^ o := by
    have hbound : ofLimbs (mag.drop i) < 2 ^ (64 + o) := by
      rw [hfrom, Nat.div_lt_iff_lt_mul (Nat.two_pow_pos _), ← pow_add,
        show 64 + o + 64 * i = 64 + low by omega]
      exact hlt
    rw [pow_add] at hbound
    have hmul : 2 ^ 64 * ofLimbs (mag.drop (i + 1)) < 2 ^ 64 * 2 ^ o := by omega
    exact Nat.lt_of_mul_lt_mul_left hmul
  have hnext : ofLimbs (mag.drop (i + 1)) = (mag.getD (i + 1) 0).toNat := by
    have hdrop := ofLimbs_drop mag (i + 1)
    have hpow : 2 ^ o < 2 ^ 64 := Nat.pow_lt_pow_right (by norm_num) ho64
    omega
  rw [hnumber, hlimb]
  unfold window
  simp only [hi, ho]
  split
  · next hlast =>
      have hzero : ofLimbs (mag.drop (i + 1)) = 0 := by
        cases hlast with
        | inl hzero =>
            rw [hzero, pow_zero] at hrest
            omega
        | inr hpast =>
            rw [show i = top by omega]
            exact ofLimbs_past_top htop
      rw [toNat_shiftRight ho64, hzero, Nat.mul_zero, Nat.add_zero]
  · next hmore =>
      have hpos : 0 < o := by omega
      have hpow : 2 ^ 64 = 2 ^ o * 2 ^ (64 - o) := by
        rw [← pow_add, Nat.add_sub_cancel' ho64.le]
      have hjoined := @toNat_joined (mag.getD i 0) (mag.getD (i + 1) 0) (64 - o) (by omega)
        (by omega)
      rw [show 64 - (64 - o) = o by omega] at hjoined
      rw [UInt64.or_comm, hjoined, ← hnext, Nat.mod_eq_of_lt hrest, hpow, mul_assoc,
        Nat.add_mul_div_left _ _ (Nat.two_pow_pos o), Nat.add_comm]

/-- The sticky bit tells whether anything is below the window. -/
theorem stickyBit_iff {low : Nat} (hlow : low ≤ 64 * top) :
    stickyBit mag low = true ↔ ofLimbs mag % 2 ^ low ≠ 0 := by
  obtain ⟨i, o, hi, ho, hsplit, ho64⟩ : ∃ i o, low / 64 = i ∧ low % 64 = o ∧ low = 64 * i + o ∧
      o < 64 := ⟨_, _, rfl, rfl, (Nat.div_add_mod low 64).symm, Nat.mod_lt _ (by norm_num)⟩
  have hlen : i ≤ mag.length := le_trans (by omega) (top_lt htop).le
  have htake := ofLimbs_lt (mag.take i)
  rw [List.length_take, Nat.min_eq_left hlen] at htake
  have hrest : ofLimbs (mag.drop i) % 2 ^ o = (mag.getD i 0).toNat % 2 ^ o := by
    have hpow : 2 ^ 64 = 2 ^ o * 2 ^ (64 - o) := by
      rw [← pow_add, Nat.add_sub_cancel' ho64.le]
    rw [ofLimbs_drop, hpow, mul_assoc, Nat.add_mul_mod_self_left]
  have hmod : ofLimbs mag % 2 ^ low =
      ofLimbs (mag.take i) + 2 ^ (64 * i) * ((mag.getD i 0).toNat % 2 ^ o) := by
    rw [ofLimbs_split mag hlen, hsplit, pow_add, Nat.mod_mul, Nat.add_mul_mod_self_left,
      Nat.mod_eq_of_lt htake, Nat.add_mul_div_left _ _ (Nat.two_pow_pos _),
      Nat.div_eq_of_lt htake, Nat.zero_add, hrest]
  have hpow := Nat.two_pow_pos (64 * i)
  unfold stickyBit
  rw [hi, ho, hmod, Bool.or_eq_true, any_ne_zero_iff, decide_eq_true_iff, mask_ne_zero_iff ho64]
  constructor
  · intro hor hzero
    obtain ⟨hfirst, hsecond⟩ := Nat.add_eq_zero_iff.mp hzero
    cases hor with
    | inl h => exact h hfirst
    | inr h => exact h ((Nat.mul_eq_zero.mp hsecond).resolve_left hpow.ne')
  · intro hne
    by_contra hnone
    obtain ⟨hfirst, hsecond⟩ := not_or.mp hnone
    rw [not_not.mp hfirst, not_not.mp hsecond] at hne
    exact hne rfl

end Window

theorem top_bit_eq (w : UInt64) : (w >>> 63 == 1) = decide (2 ^ 63 ≤ w.toNat) := by
  have hw := w.toNat_lt
  have hshift : (w >>> 63).toNat = w.toNat / 2 ^ 63 := toNat_shiftRight (show 63 < 64 by norm_num)
  rw [Bool.eq_iff_iff, beq_iff_eq, decide_eq_true_iff, ← UInt64.toNat_inj, hshift,
    show (1 : UInt64).toNat = 1 from rfl]
  omega

/-- The value read limb by limb is that of the number. -/
theorem valueLimbs_eq {a : Exact} (hlen : a.limbs.length = LIMBS) : a.valueLimbs = a.value := by
  have hlast : a.limbs.getD (LIMBS - 1) 0 = a.limbs.getLastD 0 := by
    rw [List.getD_eq_getElem?_getD, ← hlen, ← List.getLast?_eq_getElem?,
      List.getLastD_eq_getLast?]
  unfold valueLimbs value
  simp only [hlast, top_bit_eq]
  generalize (if decide (2 ^ 63 ≤ (a.limbs.getLastD 0).toNat) = true then negate true a.limbs
    else a.limbs) = mag
  cases htop : topLimb mag with
  | none =>
      dsimp only
      rw [if_pos (topLimb_eq_none htop)]
  | some top =>
      obtain ⟨hne, hsum, -⟩ := topLimb_eq_some htop
      have hpos : ofLimbs mag ≠ 0 := by
        have hpow := Nat.two_pow_pos (64 * top)
        have hlimb := Nat.mul_pos hpow (Nat.pos_of_ne_zero (toNat_ne_zero hne))
        omega
      dsimp only
      rw [if_neg hpos, length_eq htop]
      split
      · next hsmall =>
          have hlt : ofLimbs mag < 2 ^ 64 :=
            Nat.lt_log2_self.trans_le (Nat.pow_le_pow_right (by norm_num) hsmall)
          have hfirst := ofLimbs_drop mag 0
          rw [List.drop_zero] at hfirst
          have heq : (mag.getD 0 0).toNat = ofLimbs mag := by omega
          rw [heq]
      · next hlarge =>
          have hbits := length_eq htop
          have hlow : (ofLimbs mag).log2 + 1 - 64 ≤ 64 * top := by omega
          have hlt : ofLimbs mag < 2 ^ (64 + ((ofLimbs mag).log2 + 1 - 64)) := by
            rw [Nat.add_sub_cancel' (by omega)]
            exact Nat.lt_log2_self
          have hwindow := window_eq htop hlow hlt
          have hsticky := stickyBit_iff htop hlow
          congr 4
          rw [UInt64.toNat_or, hwindow]
          by_cases hrest : ofLimbs mag % 2 ^ ((ofLimbs mag).log2 + 1 - 64) ≠ 0
          · rw [if_pos (hsticky.mpr hrest), if_pos hrest]
            rfl
          · rw [if_neg (mt hsticky.mp hrest), if_neg hrest]
            exact Nat.or_zero _

/-! ## Every sequence of additions -/

/-- What `k` times each of some numbers come to, in units. -/
def total (ops : List (F64 × Int)) : Int := (ops.map fun op => unitsOf op.1 * op.2).sum

/-- Each of some numbers added to the empty accumulator. -/
def addAll (ops : List (F64 × Int)) : Exact :=
  ops.foldl (fun a op => a.addLimbs op.1 op.2) .default

/-- What the limbs denote in two's complement. -/
def twosComplement (a : Exact) : Int :=
  if 2 ^ 63 ≤ (a.limbs.getLastD 0).toNat then ofLimbs a.limbs - 2 ^ (64 * LIMBS)
  else ofLimbs a.limbs

/-- The counts a number can be added. -/
def IsCount (k : Int) : Prop := -2 ^ 63 ≤ k ∧ k < 2 ^ 63

theorem IsCount.natAbs_le {k : Int} (h : IsCount k) : k.natAbs ≤ 2 ^ 63 := by
  obtain ⟨hlow, hhigh⟩ := h
  omega

theorem Denotes.addLimbs {a : Exact} {V : Int} (h : a.Denotes V) {x : F64}
    (hx : x.isFinite = true) {k : Int} (hk : IsCount k) :
    (a.addLimbs x k).Denotes (V + unitsOf x * k) := by
  rw [addLimbs_eq a x hk.natAbs_le]
  exact h.add hx hk.natAbs_le

theorem denotes_foldl {ops : List (F64 × Int)}
    (hops : ∀ op ∈ ops, op.1.isFinite = true ∧ IsCount op.2) {a : Exact} {V : Int}
    (h : a.Denotes V) :
    (ops.foldl (fun a op => a.addLimbs op.1 op.2) a).Denotes (V + total ops) := by
  induction ops generalizing a V with
  | nil => simpa [total] using h
  | cons op ops ih =>
      obtain ⟨hx, hk⟩ := hops op List.mem_cons_self
      have hrest := ih (fun o ho => hops o (List.mem_cons_of_mem op ho)) (h.addLimbs hx hk)
      have hsum : V + unitsOf op.1 * op.2 + total ops = V + total (op :: ops) := by
        unfold total
        rw [List.map_cons, List.sum_cons, add_assoc]
      rw [hsum] at hrest
      exact hrest

theorem denotes_addAll {ops : List (F64 × Int)}
    (hops : ∀ op ∈ ops, op.1.isFinite = true ∧ IsCount op.2) :
    (addAll ops).Denotes (total ops) := by
  have h := denotes_foldl hops denotes_default
  rwa [zero_add] at h

theorem Denotes.twosComplement_eq {a : Exact} {V : Int} (h : a.Denotes V) (hV : |V| < room) :
    a.twosComplement = V := by
  have heq := h.ofLimbs_eq hV
  have hneg := h.neg_eq hV
  have hpow : (2 : Int) ^ (64 * LIMBS) = 2 * room := by exact_mod_cast pow_eq_two_mul_room
  unfold twosComplement
  rw [hpow]
  by_cases hlow : V < 0
  · rw [decide_eq_true hlow, decide_eq_true_iff] at hneg
    rw [if_pos hneg, heq, if_pos hlow]
    ring
  · rw [decide_eq_false hlow, decide_eq_false_iff_not] at hneg
    rw [if_neg hneg, heq, if_neg hlow]

/-- The double a whole number of units rounds to: the nearest with 53 bits, ties
to even, infinite where that is out of range and exact where it is subnormal. -/
structure Rounded (V : Int) (x : F64) : Prop where
  nearest : ∃ r, NearestEven V.natAbs r ∧
    (r < 2 ^ 2098 → ∃ h, x = .finite (decide (V < 0)) r h) ∧
    (2 ^ 2098 ≤ r → x = .inf (decide (V < 0)))
  subnormal : V.natAbs < 2 ^ 53 → ∃ h, x = .finite (decide (V < 0)) V.natAbs h

theorem rounded_nearest (V : Int) : Rounded V (nearest V) where
  nearest := by
    refine ⟨roundUnits V.natAbs 1, nearestEven_roundUnits _, fun hlt => ?_, fun hge => ?_⟩
    · have hrep := representable_iff.mpr ⟨hlt, significand_roundUnits V.natAbs⟩
      exact ⟨hrep, ofUnits_of_representable hrep⟩
    · unfold Engine.nearest F64.ofUnits
      rw [dif_neg fun hrep => absurd (representable_iff.mp hrep).1 (not_lt.mpr hge)]
  subnormal := by
    intro hlt
    have hsig := significand_of_lt hlt
    have hpow : 2 ^ 53 ≤ 2 ^ 2098 := Nat.pow_le_pow_right (by norm_num) (by norm_num)
    have hrep := representable_iff.mpr ⟨hlt.trans_le hpow, hsig⟩
    refine ⟨hrep, ?_⟩
    unfold Engine.nearest
    rw [roundUnits_of_significand hsig]
    exact ofUnits_of_representable hrep

/-- However some numbers are added, the limbs denote their sum, what is taken
away again leaves no trace, and the value is the sum rounded once. -/
theorem exact_sum (ops : List (F64 × Int))
    (hops : ∀ op ∈ ops, op.1.isFinite = true ∧ IsCount op.2) (hroom : |total ops| < 2 ^ 2303) :
    (addAll ops).limbs.length = 36 ∧
      (addAll ops).twosComplement = total ops ∧
      (∀ ops', ops'.Perm ops → addAll ops' = addAll ops) ∧
      (∀ (x : F64) (k : Int), x.isFinite = true → IsCount k → IsCount (-k) →
        ((addAll ops).addLimbs x k).addLimbs x (-k) = addAll ops) ∧
      Rounded (total ops) (addAll ops).valueLimbs := by
  have h := denotes_addAll hops
  have hV : |total ops| < room := by
    unfold room LIMBS
    exact_mod_cast hroom
  refine ⟨h.length, h.twosComplement_eq hV, fun ops' hperm => ?_, fun x k hx hk hneg => ?_, ?_⟩
  · have htotal : total ops' = total ops := (hperm.map _).sum_eq
    have hops' := denotes_addAll fun op hop => hops op (hperm.mem_iff.mp hop)
    rw [htotal] at hops'
    exact hops'.unique h
  · have hback := (h.addLimbs hx hk).addLimbs hx hneg
    rw [mul_neg, add_neg_cancel_right] at hback
    exact hback.unique h
  · rw [valueLimbs_eq h.length, h.value_eq hV]
    exact rounded_nearest _

/-- One, three times, and then one taken away. -/
theorem exact_sum_two :
    (addAll [(.ofInt 1, 3), (.ofInt 1, -1)]).twosComplement = 2 * 2 ^ 1074 := by
  have hone : ∃ h, F64.ofInt 1 = .finite false (2 ^ 1074) h := ofInt_sign false
  obtain ⟨hfits, hone⟩ := hone
  have hunits : unitsOf (.ofInt 1) = 2 ^ 1074 := by
    rw [hone]
    exact Nat.cast_pow 2 1074
  have hsum : total [(.ofInt 1, 3), (.ofInt 1, -1)] = 2 * 2 ^ 1074 := by
    rw [← hunits]
    unfold total
    rw [List.map_cons, List.map_singleton, List.sum_cons, List.sum_singleton]
    ring
  rw [(exact_sum [(.ofInt 1, 3), (.ofInt 1, -1)] ?_ ?_).2.1, hsum]
  · intro op hop
    have hcases : op = (.ofInt 1, 3) ∨ op = (.ofInt 1, -1) := by simpa using hop
    obtain rfl | rfl := hcases
    · exact ⟨by rw [hone]; rfl, by norm_num, by norm_num⟩
    · exact ⟨by rw [hone]; rfl, by norm_num, by norm_num⟩
  · rw [hsum, abs_of_nonneg (by positivity)]
    calc (2 : Int) * 2 ^ 1074 = 2 ^ (1074 + 1) := (pow_succ' 2 1074).symm
      _ < 2 ^ 2303 := pow_lt_pow_right₀ (by norm_num) (by norm_num)

end Improv.PgModel.Exact
