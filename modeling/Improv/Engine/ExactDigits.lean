import Improv.Engine.ExactSum
import Mathlib.Data.List.TakeDrop
/-!
# The accumulator's digits

What the digits of an exact sum denote through additions and carry passes: an
accumulator below the carry digit's range keeps every digit within 54 bits
between two carry passes, no addition leaves 64 bits, and a carry pass leaves
the balanced expansion of the same integer.
-/

namespace Improv.Engine

open Lib Lib.SignedDigits

/-- What a digit weighs against the one below it. -/
def radix : Int := 2 * 2 ^ 31

theorem radix_eq : radix = 2 ^ 32 := by
  norm_num [radix]

theorem i64_eq {x : Int} (hlow : -2 ^ 63 ≤ x) (hhigh : x < 2 ^ 63) : i64 x = some x := by
  unfold i64
  rw [if_pos ⟨hlow, hhigh⟩]

/-- The most that digits of up to 67 places denote with a carry digit within
32 bits. -/
def carryRange : Int := 2 ^ 31 * radix ^ 66

/-- What an accumulator may denote with its carry digit far within 64 bits. -/
def digitRange : Int := 2 ^ 47 * radix ^ 66

theorem carryRange_le : carryRange ≤ digitRange := by
  unfold carryRange digitRange
  exact mul_le_mul_of_nonneg_right (by norm_num) (pow_nonneg (by norm_num [radix]) 66)

theorem length_eq_of_getElem? {l : List Int} {i : Nat} {x : Int} (h : l[i]? = some x) :
    i < l.length := (List.getElem?_eq_some_iff.mp h).1

/-! ## Adding to digits -/

theorem addDigits_spec {d ws : List Int} {i : Nat} (hlen : i + ws.length ≤ d.length)
    (hfit : ∀ k x, i ≤ k → k < i + ws.length → d[k]? = some x → ∀ w ∈ ws,
      -2 ^ 63 ≤ x + w ∧ x + w < 2 ^ 63) :
    ∃ d', ExactSum.addDigits d i ws = some d' ∧ d'.length = d.length ∧
      ofDigits radix d' = ofDigits radix d + radix ^ i * ofDigits radix ws ∧
      ∀ k y, d'[k]? = some y → ∃ x, d[k]? = some x ∧
        (y = x ∨ (i ≤ k ∧ k < i + ws.length ∧ ∃ w ∈ ws, y = x + w)) := by
  induction ws generalizing d i with
  | nil =>
      refine ⟨d, rfl, rfl, by simp, fun k y hy => ⟨y, hy, Or.inl rfl⟩⟩
  | cons w ws ih =>
      rw [List.length_cons] at hlen hfit
      have hget : d[i]? = some d[i] := List.getElem?_eq_getElem (by omega)
      have hw := hfit i d[i] le_rfl (by omega) hget w List.mem_cons_self
      have hset : ExactSum.addDigit d i w = some (d.set i (d[i] + w)) := by
        unfold ExactSum.addDigit
        rw [hget, Option.bind_eq_bind, Option.bind_some, i64_eq hw.1 hw.2, Option.bind_some]
      have hother : ∀ k x, k ≠ i → (d.set i (d[i] + w))[k]? = some x → d[k]? = some x := by
        intro k x hne hx
        rwa [List.getElem?_set_ne (Ne.symm hne)] at hx
      obtain ⟨d', hadd, hlen', hval, hdigits⟩ := @ih (d.set i (d[i] + w)) (i + 1)
        (by rw [List.length_set]; omega) fun k x hlow hhigh hx v hv =>
          hfit k x (by omega) (by omega) (hother k x (by omega) hx) v (List.mem_cons_of_mem _ hv)
      refine ⟨d', ?_, ?_, ?_, ?_⟩
      · unfold ExactSum.addDigits
        rw [hset]
        exact hadd
      · rw [hlen', List.length_set]
      · rw [hval, ofDigits_set radix w hget, ofDigits_cons, pow_succ]
        ring
      · intro k y hy
        obtain ⟨x, hx, hcase⟩ := hdigits k y hy
        by_cases hk : k = i
        · subst hk
          have hxi : x = d[k] + w := by
            rw [List.getElem?_set_self (by omega)] at hx
            exact (Option.some.inj hx).symm
          refine ⟨d[k], hget, Or.inr ⟨le_rfl, by rw [List.length_cons]; omega, w,
            List.mem_cons_self, ?_⟩⟩
          cases hcase with
          | inl hsame => rw [hsame, hxi]
          | inr hlater => omega
        · refine ⟨x, hother k x hk hx, ?_⟩
          cases hcase with
          | inl hsame => exact Or.inl hsame
          | inr hlater =>
              obtain ⟨hlow, hhigh, v, hv, hyv⟩ := hlater
              exact Or.inr ⟨by omega, by rw [List.length_cons]; omega, v,
                List.mem_cons_of_mem _ hv, hyv⟩

/-! ## The carry pass -/

theorem carryFrom_cons {hi i j : Nat} {c c' x : Int} {rest rest' : List Int}
    (hgo : i < hi ∨ c ≠ 0) (hx : i64 (x + c) = some (x + c))
    (hcarry : ExactSum.carryOut i (x + c) = some c')
    (hy : i64 (x + c - c' * 2 ^ 32) = some (x + c - c' * 2 ^ 32))
    (hrest : ExactSum.carryFrom hi (i + 1) c' rest = some (rest', j)) :
    ExactSum.carryFrom hi i c (x :: rest) = some ((x + c - c' * 2 ^ 32) :: rest', j) := by
  rw [ExactSum.carryFrom, if_pos hgo, hx]
  simp only [Option.bind_eq_bind, Option.bind_some, hcarry, hy, hrest]

theorem carryFrom_spec {hi i : Nat} {c : Int} {l : List Int} (hlen : i + l.length = DIGITS)
    (hhi : hi ≤ DIGITS) (hlow : ∀ x ∈ l.dropLast, |x| ≤ 2 ^ 54)
    (hlast : ∀ x, l.getLast? = some x → |x| ≤ 2 ^ 50) (hc : |c| ≤ 2 ^ 23) (hnil : l = [] → c = 0)
    (hzero : ∀ j x, l[j]? = some x → hi ≤ i + j → x = 0) :
    ∃ l' j, ExactSum.carryFrom hi i c l = some (l', j) ∧ l'.length = l.length ∧
      ofDigits radix l' = ofDigits radix l + c ∧ (∀ x ∈ l'.dropLast, Balanced (2 ^ 31) x) ∧
      i ≤ j ∧ hi ≤ j ∧ j ≤ DIGITS ∧ ∀ k x, l'[k]? = some x → j ≤ i + k → x = 0 := by
  induction l generalizing i c with
  | nil =>
      have hi' : i = DIGITS := by simpa using hlen
      refine ⟨[], i, ?_, rfl, by simp [hnil rfl], by simp, le_rfl, by omega, by omega, by simp⟩
      unfold ExactSum.carryFrom
      rw [if_neg]
      rintro (hlt | hne)
      · omega
      · exact hne (hnil rfl)
  | cons x rest ih =>
      rw [List.length_cons] at hlen
      by_cases hgo : i < hi ∨ c ≠ 0
      · have hrange := abs_le.mp hc
        have hhead : |x| ≤ 2 ^ 54 := by
          by_cases hrest : rest = []
          · exact (hlast x (by rw [hrest]; rfl)).trans (by norm_num)
          · exact hlow x (by rw [List.dropLast_cons_of_ne_nil hrest]; exact List.mem_cons_self)
        have hxrange := abs_le.mp hhead
        have hx : i64 (x + c) = some (x + c) := i64_eq (by omega) (by omega)
        by_cases hrest : rest = []
        · subst hrest
          have hi' : i + 1 = DIGITS := by simpa using hlen
          refine ⟨[x + c], i + 1, ?_, rfl, by simp, by simp, by omega, by omega, by omega, ?_⟩
          · have hend : ExactSum.carryFrom hi (i + 1) 0 [] = some ([], i + 1) := by
              unfold ExactSum.carryFrom
              rw [if_neg (by omega)]
            have hstep := @carryFrom_cons hi i (i + 1) c 0 x [] [] hgo hx (if_pos hi')
              (by rw [zero_mul, sub_zero]; exact hx) hend
            rwa [zero_mul, sub_zero] at hstep
          · intro k y hy hk
            have hlt := length_eq_of_getElem? hy
            rw [List.length_singleton] at hlt
            omega
        · have hpos : 0 < rest.length := List.length_pos_of_ne_nil hrest
          have hi' : i + 1 ≠ DIGITS := by omega
          rw [List.dropLast_cons_of_ne_nil hrest] at hlow
          have hcarry : ExactSum.carryOut i (x + c) = some ((x + c + 2 ^ 31) / 2 ^ 32) := by
            unfold ExactSum.carryOut
            rw [if_neg hi', i64_eq (by omega) (by omega), Option.map_some]
          have hbalanced : Balanced (2 ^ 31) (x + c - (x + c + 2 ^ 31) / 2 ^ 32 * 2 ^ 32) := by
            constructor <;> omega
          have hc' : |(x + c + 2 ^ 31) / 2 ^ 32| ≤ 2 ^ 23 := by
            rw [abs_le]
            constructor <;> omega
          obtain ⟨rest', j, hrec, hlen', hval, hbal, hij, hj, hj', hz⟩ := @ih (i + 1)
            ((x + c + 2 ^ 31) / 2 ^ 32) (by omega)
            (fun y hy => hlow y (List.mem_cons_of_mem _ hy))
            (fun y hy => hlast y (by rwa [List.getLast?_cons_of_ne_nil hrest])) hc'
            (fun hc => absurd hc hrest)
            (fun k y hy hk => hzero (k + 1) y (by rwa [List.getElem?_cons_succ]) (by omega))
          refine ⟨_, j, carryFrom_cons hgo hx hcarry
            (i64_eq (by have := hbalanced.1; omega) (by have := hbalanced.2; omega)) hrec,
            by rw [List.length_cons, List.length_cons, hlen'], ?_, ?_, by omega, hj, hj', ?_⟩
          · rw [ofDigits_cons, ofDigits_cons, hval, radix_eq]
            ring
          · have hne : rest' ≠ [] := List.length_pos_iff.mp (by omega)
            rw [List.dropLast_cons_of_ne_nil hne]
            intro y hy
            cases hy with
            | head => exact hbalanced
            | tail _ hy => exact hbal y hy
          · intro k y hy hk
            cases k with
            | zero => omega
            | succ k =>
                rw [List.getElem?_cons_succ] at hy
                exact hz k y hy (by omega)
      · have hstop : hi ≤ i ∧ c = 0 := by
          constructor
          · omega
          · by_contra hne
            exact hgo (Or.inr hne)
        have hzeros : ∀ y ∈ x :: rest, y = 0 := by
          intro y hy
          obtain ⟨j, hj, hget⟩ := List.getElem_of_mem hy
          exact hzero j y (by rw [List.getElem?_eq_getElem hj, hget]) (by omega)
        refine ⟨x :: rest, i, ?_, rfl, by rw [hstop.2, add_zero], ?_, le_rfl, hstop.1,
          by omega, ?_⟩
        · unfold ExactSum.carryFrom
          rw [if_neg hgo]
        · intro y hy
          rw [hzeros y (List.dropLast_subset _ hy)]
          exact balanced_zero (by norm_num)
        · intro k y hy _
          exact hzeros y (List.mem_of_getElem? hy)

/-! ## What an accumulator denotes -/

namespace ExactSum

/-- The digits denote `V`, and fewer than `bound` terms came since they were
balanced. -/
structure Denotes (a : ExactSum) (V : Int) (bound : Nat) : Prop where
  length : a.d.length = DIGITS
  value : ofDigits radix a.d = V
  small : ∀ x ∈ a.d.dropLast, |x| ≤ 2 ^ 31 + a.terms * 2 ^ 32
  zero : ∀ i x, a.d[i]? = some x → i < a.lo ∨ a.hi ≤ i → x = 0
  lo_le : a.lo ≤ DIGITS
  hi_le : a.hi ≤ DIGITS
  terms_lt : a.terms < bound

/-- The balanced expansion of `V`, the carry digit apart. -/
structure Expansion (d : List Int) (V : Int) : Prop where
  length : d.length = DIGITS
  value : ofDigits radix d = V
  balanced : ∀ x ∈ d.dropLast, Balanced (2 ^ 31) x

theorem Expansion.unique {d d' : List Int} {V : Int} (h : Expansion d V) (h' : Expansion d' V) :
    d = d' :=
  eq_of_ofDigits_eq (h.length.trans h'.length.symm) h.balanced h'.balanced
    (h.value.trans h'.value.symm)

theorem denotes_default : default.Denotes 0 CARRY_EVERY where
  length := List.length_replicate
  value := ofDigits_eq_zero fun _ hx => List.eq_of_mem_replicate hx
  small := by
    intro x hx
    rw [List.eq_of_mem_replicate (List.dropLast_subset _ hx), abs_zero]
    positivity
  zero := fun i x hx _ => List.eq_of_mem_replicate (List.mem_of_getElem? hx)
  lo_le := le_rfl
  hi_le := Nat.zero_le _
  terms_lt := by decide

/-- The carry digit of an accumulator in range stays far within 64 bits. -/
theorem Denotes.abs_last_le {a : ExactSum} {V : Int} (h : a.Denotes V (CARRY_EVERY + 1))
    (hV : |V| ≤ digitRange) {t : Int} (ht : a.d.getLast? = some t) : |t| ≤ 2 ^ 48 := by
  have hd : a.d = a.d.dropLast ++ [t] := (List.dropLast_append_getLast? t ht).symm
  have hlen : a.d.dropLast.length = 66 := by
    rw [List.length_dropLast, h.length]
    rfl
  have hterms := h.terms_lt
  have hsmall : ∀ x ∈ a.d.dropLast, |x| ≤ 2 ^ 53 := by
    intro x hx
    have hle := h.small x hx
    unfold CARRY_EVERY at hterms
    omega
  have hlow := abs_ofDigits_mul_le (R := radix) (by norm_num [radix]) hsmall
  rw [hlen] at hlow
  have hval := h.value
  rw [hd, ofDigits_append, hlen, ofDigits_cons, ofDigits_nil, mul_zero, add_zero] at hval
  have hpow : (1 : Int) ≤ radix ^ 66 := one_le_pow₀ (by norm_num [radix])
  unfold digitRange at hV
  have hrad : radix - 1 = 2 ^ 32 - 1 := by norm_num [radix]
  rw [hrad] at hlow
  generalize radix ^ 66 = P at hlow hval hV hpow
  have hmul : |t| * P ≤ 2 ^ 47 * P + 2 ^ 22 * P := by
    have htP : t * P = V - ofDigits radix a.d.dropLast := by linarith
    have habs : |t| * P = |V - ofDigits radix a.d.dropLast| := by
      rw [← htP, abs_mul, abs_of_nonneg (by omega : (0 : Int) ≤ P)]
    have htri := abs_sub V (ofDigits radix a.d.dropLast)
    have hrest : |ofDigits radix a.d.dropLast| ≤ 2 ^ 22 * P := by
      by_contra hgt
      have hgt := not_le.mp hgt
      omega
    omega
  by_contra hgt
  have hgt : 2 ^ 48 + 1 ≤ |t| := by omega
  have hbig : (2 ^ 48 + 1) * P ≤ |t| * P := mul_le_mul_of_nonneg_right hgt (by omega)
  omega

theorem Denotes.take_lo_zero {a : ExactSum} {V : Int} {bound : Nat} (h : a.Denotes V bound)
    {x : Int}
    (hx : x ∈ a.d.take a.lo) : x = 0 := by
  obtain ⟨i, hi, hget⟩ := List.getElem_of_mem hx
  rw [List.length_take] at hi
  rw [List.getElem_take] at hget
  exact h.zero i x (by rw [← hget]; exact List.getElem?_eq_getElem (by omega)) (Or.inl (by omega))

/-- A carry pass leaves the balanced expansion of the same integer. -/
theorem carry_spec {a : ExactSum} {V : Int} (h : a.Denotes V (CARRY_EVERY + 1))
    (hV : |V| ≤ digitRange) :
    ∃ a', a.carry = some a' ∧ Expansion a'.d V ∧ a'.Denotes V CARRY_EVERY ∧ a'.lo ≤ a'.hi ∧
      a'.flags = a.flags := by
  have hlen := h.length
  have hlo := h.lo_le
  have hterms := h.terms_lt
  have htake : (a.d.take a.lo).length = a.lo := by
    rw [List.length_take]
    omega
  have hmem : ∀ x ∈ (a.d.drop a.lo).dropLast, |x| ≤ 2 ^ 54 := by
    intro x hx
    rw [List.dropLast_drop_eq_drop_dropLast] at hx
    have hle := h.small x (List.mem_of_mem_drop hx)
    unfold CARRY_EVERY at hterms
    omega
  have hlast : ∀ x, (a.d.drop a.lo).getLast? = some x → |x| ≤ 2 ^ 50 := by
    intro x hx
    rw [List.getLast?_drop] at hx
    split at hx
    · exact absurd hx (by simp)
    · exact (h.abs_last_le hV hx).trans (by norm_num)
  obtain ⟨l, j, hcarry, hllen, hval, hbal, hij, hj, hj', hz⟩ := @carryFrom_spec a.hi a.lo 0
    (a.d.drop a.lo) (by rw [List.length_drop]; omega) h.hi_le hmem hlast (by norm_num)
    (fun _ => rfl) fun k x hx hk => h.zero (a.lo + k) x (by rwa [List.getElem?_drop] at hx)
      (Or.inr hk)
  have hexp : Expansion (a.d.take a.lo ++ l) V := by
    constructor
    · rw [List.length_append, htake, hllen, List.length_drop]
      omega
    · rw [← h.value]
      conv_rhs => rw [← List.take_append_drop a.lo a.d]
      rw [ofDigits_append, ofDigits_append, hval, add_zero]
    · intro x hx
      by_cases hnil : l = []
      · rw [hnil, List.append_nil] at hx
        rw [h.take_lo_zero (List.dropLast_subset _ hx)]
        exact balanced_zero (by norm_num)
      · rw [List.dropLast_append_of_ne_nil hnil, List.mem_append] at hx
        cases hx with
        | inl hlow =>
            rw [h.take_lo_zero hlow]
            exact balanced_zero (by norm_num)
        | inr hhigh => exact hbal x hhigh
  refine ⟨{ a with d := a.d.take a.lo ++ l, hi := max a.hi j, terms := 0 }, ?_, hexp, ?_,
    hij.trans (le_max_right _ _), rfl⟩
  · unfold carry
    rw [hcarry]
    rfl
  · constructor
    · exact hexp.length
    · exact hexp.value
    · intro x hx
      have hle := abs_le_of_balanced (hexp.balanced x hx)
      simpa using hle
    · intro i x hx hout
      by_cases hi : i < a.lo
      · rw [List.getElem?_append_left (by omega)] at hx
        exact h.take_lo_zero (List.mem_of_getElem? hx)
      · rw [List.getElem?_append_right (by omega), htake] at hx
        have hhi : max a.hi j ≤ i := hout.resolve_left hi
        exact hz (i - a.lo) x hx (by omega)
    · exact hlo
    · exact max_le h.hi_le hj'
    · exact (by decide : 0 < CARRY_EVERY)

/-! ## Adding terms -/

theorem Denotes.abs_le {a : ExactSum} {V : Int} (h : a.Denotes V (CARRY_EVERY + 1))
    (hV : |V| ≤ digitRange) {x : Int} (hx : x ∈ a.d) : |x| ≤ 2 ^ 53 := by
  have hne : a.d ≠ [] := List.ne_nil_of_mem hx
  have hterms := h.terms_lt
  rw [← List.dropLast_append_getLast hne, List.mem_append, List.mem_singleton] at hx
  cases hx with
  | inl hlow =>
      have hle := h.small x hlow
      unfold CARRY_EVERY at hterms
      omega
  | inr hlast =>
      have hle := h.abs_last_le hV (List.getLast?_eq_some_getLast hne)
      rw [← hlast] at hle
      omega

theorem Denotes.mono {a : ExactSum} {V : Int} {m n : Nat} (h : a.Denotes V m) (hmn : m ≤ n) :
    a.Denotes V n :=
  { h with terms_lt := h.terms_lt.trans_le hmn }

theorem touch_spec {a : ExactSum} {V : Int} {lo hi : Nat}
    (h : ({ a with lo := min a.lo lo, hi := max a.hi hi, terms := a.terms + 1 }).Denotes V
      (CARRY_EVERY + 1)) (hV : |V| ≤ digitRange) :
    ∃ a', a.touch lo hi = some a' ∧ a'.Denotes V CARRY_EVERY ∧ a'.flags = a.flags := by
  unfold touch
  dsimp only
  by_cases hterms : a.terms + 1 = CARRY_EVERY
  · obtain ⟨a', hcarry, -, hden, -, hflags⟩ := carry_spec h hV
    exact ⟨a', by rw [if_pos hterms]; exact hcarry, hden, hflags⟩
  · have hlt : a.terms + 1 < CARRY_EVERY + 1 := h.terms_lt
    exact ⟨_, by rw [if_neg hterms], { h with terms_lt := show a.terms + 1 < CARRY_EVERY by omega },
      rfl⟩

/-- Digits added at some position, as a term or as a partial sum. -/
theorem addDigits_touch {a : ExactSum} {V : Int} {lo : Nat} {ws : List Int}
    (h : a.Denotes V CARRY_EVERY) (hV : |V| ≤ digitRange) (hlen : lo + ws.length ≤ DIGITS)
    (hws : ∀ w ∈ ws, |w| ≤ 2 ^ 32) (hV' : |V + radix ^ lo * ofDigits radix ws| ≤ digitRange) :
    ∃ a', (do let d ← addDigits a.d lo ws; touch { a with d } lo (lo + ws.length)) = some a' ∧
      a'.Denotes (V + radix ^ lo * ofDigits radix ws) CARRY_EVERY ∧ a'.flags = a.flags := by
  have hwide := h.mono (Nat.le_succ CARRY_EVERY)
  obtain ⟨d, hadd, hdlen, hval, hdigits⟩ := @addDigits_spec a.d ws lo
    (by rw [h.length]; exact hlen) fun k x _ _ hx w hw => by
      have hxle := abs_le.mp (hwide.abs_le hV (List.mem_of_getElem? hx))
      have hwle := abs_le.mp (hws w hw)
      constructor <;> omega
  rw [hadd, Option.bind_eq_bind, Option.bind_some]
  have hdlen' : d.length = DIGITS := hdlen.trans h.length
  refine @touch_spec { a with d } (V + radix ^ lo * ofDigits radix ws) lo (lo + ws.length)
    ?_ hV'
  constructor
  · exact hdlen'
  · rw [← h.value]
    exact hval
  · intro y hy
    obtain ⟨k, hk, hget⟩ := List.getElem_of_mem hy
    rw [List.length_dropLast, hdlen'] at hk
    have hy' : d[k]? = some y := by
      rw [← hget, List.getElem_dropLast]
      exact List.getElem?_eq_getElem (by omega)
    obtain ⟨x, hx, hcase⟩ := hdigits k y hy'
    have hxmem : x ∈ a.d.dropLast := by
      apply List.mem_of_getElem? (i := k)
      rw [List.getElem?_dropLast, if_pos (by rw [h.length]; exact hk)]
      exact hx
    have hxle := h.small x hxmem
    push_cast
    cases hcase with
    | inl hsame =>
        rw [hsame]
        omega
    | inr hmoved =>
        obtain ⟨-, -, w, hw, heq⟩ := hmoved
        have hwle := hws w hw
        have htri := abs_add_le x w
        rw [heq]
        omega
  · intro k y hy hout
    obtain ⟨x, hx, hcase⟩ := hdigits k y hy
    have hxzero : x = 0 := h.zero k x hx (by
      cases hout with
      | inl hlow => exact Or.inl (lt_of_lt_of_le hlow (min_le_left _ _))
      | inr hhigh => exact Or.inr ((le_max_left _ _).trans hhigh))
    cases hcase with
    | inl hsame => rw [hsame, hxzero]
    | inr hmoved =>
        cases hout with
        | inl hlow => exact absurd (lt_of_lt_of_le hlow (min_le_right _ _)) (by omega)
        | inr hhigh => exact absurd ((le_max_right _ _).trans hhigh) (by omega)
  · exact (min_le_left _ _).trans h.lo_le
  · exact max_le h.hi_le hlen
  · have hlt := h.terms_lt
    show a.terms + 1 < CARRY_EVERY + 1
    omega

end ExactSum

end Improv.Engine
