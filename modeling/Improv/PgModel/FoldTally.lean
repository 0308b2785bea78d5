import Improv.Lib.Decimal
import Improv.PgModel.Aggregate
import Improv.PgModel.ExactValue
/-!
# A fold holds its rows' tally

Adding a row to a fold adds what it weighs to every count and sum the fold
keeps, taking it away subtracts it, and the cell is the aggregate of the rows.
-/

namespace Improv.PgModel

open Improv.Lib Improv.Lib.F64 Improv.CoreModel Improv.Engine Exact

/-! ## The text of a decimal sum -/

theorem toList_toString_int (q : Int) :
    (toString q).toList = (if q < 0 then ['-'] else []) ++ Nat.toDigits 10 q.natAbs := by
  rw [Int.toString_eq_repr, Int.repr_eq_if]
  by_cases hq : 0 ≤ q
  · rw [if_pos hq, if_neg (by omega), Nat.toList_repr, List.nil_append,
      show q.toNat = q.natAbs by omega]
  · rw [if_neg hq, if_pos (by omega), String.toList_append, Nat.toList_repr,
      show (-q).toNat = q.natAbs by omega]
    rfl

/-- The nanos printed with nine decimals read back as the nearest float. -/
theorem parseF64_nanos (N : Int) :
    let q := N.tdiv NANOS
    let r := Total.padNine (N.tmod NANOS).natAbs
    let sign := if N < 0 ∧ q = 0 then "-" else ""
    Decimal.parseF64 s!"{sign}{q}.{r}" = some (.ofRatio (N < 0) N.natAbs NANOS) := by
  intro q r sign
  have hq : q.natAbs = N.natAbs / NANOS := Int.natAbs_tdiv N NANOS
  have hr : (N.tmod NANOS).natAbs = N.natAbs % NANOS := Int.natAbs_tmod N NANOS
  have hsign : (if decide (N < 0) = true then ['-'] else []) =
      sign.toList ++ (if q < 0 then ['-'] else []) := by
    by_cases hN : N < 0
    · have hle : q ≤ 0 := by
        have heq : q = -((-N).tdiv NANOS) := by rw [Int.neg_tdiv, neg_neg]
        have hnonneg : 0 ≤ (-N).tdiv NANOS :=
          Int.tdiv_nonneg (by omega) (Int.natCast_nonneg NANOS)
        omega
      by_cases hzero : q = 0
      · have hs : sign = "-" := if_pos ⟨hN, hzero⟩
        rw [hs, if_pos (decide_eq_true hN), if_neg (by omega)]
        decide
      · have hs : sign = "" := if_neg fun h => hzero h.2
        rw [hs, if_pos (decide_eq_true hN), if_pos (by omega)]
        rfl
    · have hle : 0 ≤ q := Int.tdiv_nonneg (not_lt.mp hN) (Int.natCast_nonneg NANOS)
      have hs : sign = "" := if_neg fun h => hN h.1
      rw [hs, if_neg (by simpa using hN), if_neg (by omega)]
      rfl
  have hlt : N.natAbs % NANOS < 10 ^ 9 := Nat.mod_lt _ (by decide)
  have htext : s!"{sign}{q}.{r}" = .ofList ((if decide (N < 0) then ['-'] else []) ++
      Nat.toDigits 10 (N.natAbs / NANOS) ++
        '.' :: (Nat.toDigits 10 (N.natAbs % NANOS)).leftpad 9 '0') := by
    apply String.toList_injective
    rw [hsign, String.toList_ofList, ← hq]
    simp only [String.toList_append, toList_toString_int]
    have hlast : r.toList = (Nat.toDigits 10 (N.natAbs % NANOS)).leftpad 9 '0' := by
      rw [← hr]
      exact String.toList_ofList
    rw [show (toString sign).toList = sign.toList from rfl,
      show (toString ".").toList = ['.'] by decide,
      show (toString r).toList = r.toList from rfl, hlast]
    simp only [List.append_assoc, List.cons_append, List.nil_append]
  rw [htext, Decimal.parseF64_point Nat.toDigits_ne_nil
    (fun c hc => Decimal.isDigit_of_mem_toDigits hc)
    (fun c hc => Decimal.isDigit_of_mem_leftpad hc), Decimal.ofDigits_append,
    Decimal.ofDigits_toDigits, Decimal.ofDigits_leftpad,
    Decimal.length_leftpad_toDigits (by norm_num) hlt]
  rw [show (10 : Nat) ^ 9 = NANOS from rfl, Nat.div_add_mod']

/-! ## The value of a sum -/

theorem roundUnits_pos {num den : Nat} (hden : 0 < den) (h : den ≤ num) :
    0 < roundUnits num den := by
  have hq : num / den ≠ 0 := (Nat.div_pos h hden).ne'
  have hscale : 2 ^ ((num / den).log2 - 52) ≤ num / den :=
    (Nat.pow_le_pow_right (by norm_num) (Nat.sub_le _ _)).trans (Nat.log2_self_le hq)
  have hquot : 0 < num / (den * 2 ^ ((num / den).log2 - 52)) := by
    rw [← Nat.div_div_eq_div_mul]
    exact Nat.div_pos hscale (Nat.two_pow_pos _)
  unfold roundUnits
  simp only
  apply Nat.mul_pos _ (Nat.two_pow_pos _)
  split
  · exact Nat.succ_pos _
  · exact hquot

theorem le_nanos_mul_one {n : Nat} (hn : 0 < n) : NANOS ≤ n * F64.one := by
  have hone : 2 ^ 30 ≤ F64.one := Nat.pow_le_pow_right (by norm_num) (by norm_num)
  have hnanos : NANOS ≤ 2 ^ 30 := by decide
  calc NANOS ≤ 1 * F64.one := by omega
    _ ≤ n * F64.one := Nat.mul_le_mul_right _ hn

theorem finite_add_zero {s : Bool} {u : Nat} (hu : representable u = true)
    (hs : u = 0 → s = false) : (F64.finite s u hu).add .zero = .finite s u hu := by
  unfold F64.zero F64.add
  by_cases hzero : u = 0
  · rw [hs hzero]
    subst hzero
    simp only [F64.signed, Bool.false_eq_true, if_false, Nat.cast_zero, add_zero, if_true,
      Bool.and_self]
    exact ofUnits_of_representable hu
  · have hround := roundUnits_of_significand (representable_iff.mp hu).2
    cases s with
    | false =>
        simp only [F64.signed, Bool.false_eq_true, if_false, Nat.cast_zero, add_zero]
        rw [if_neg (by omega), decide_eq_false (by omega), Int.natAbs_natCast, hround]
        exact ofUnits_of_representable hu
    | true =>
        simp only [F64.signed, Bool.false_eq_true, if_false, if_true, Nat.cast_zero, add_zero]
        rw [if_neg (by omega), decide_eq_true (by omega), Int.natAbs_neg, Int.natAbs_natCast,
          hround]
        exact ofUnits_of_representable hu

/-- A decimal sum is no negative zero, so that adding zero leaves it. -/
theorem decimal_add_zero (N : Int) :
    (F64.ofRatio (N < 0) N.natAbs NANOS).add .zero = .ofRatio (N < 0) N.natAbs NANOS := by
  unfold F64.ofRatio F64.ofUnits
  split
  · next hu =>
      apply finite_add_zero hu
      intro hzero
      by_contra hneg
      have hlt : N < 0 := by simpa using hneg
      have hpos := roundUnits_pos (by decide) (le_nanos_mul_one (show 0 < N.natAbs by omega))
      omega
  · rfl

/-! ## What a number adds to a total -/

namespace Num

/-- The kinds of numbers that are summed apart. -/
theorem kinds {P : Num → Prop} (x : Num) (hnanos : ∀ n i, P (.nanos n i))
    (hnan : P (.float .nan)) (hpos : P (.float (.inf false))) (hneg : P (.float (.inf true)))
    (hfinite : ∀ s u h, P (.float (.finite s u h))) : P x := by
  rcases x with ⟨n, i⟩ | ⟨_ | _ | _⟩
  · exact hnanos n i
  · exact hnan
  · next s =>
      cases s with
      | false => exact hpos
      | true => exact hneg
  · exact hfinite _ _ _

@[simp] theorem weight_rows (x : Num) : x.weight .rows = 0 := by
  cases x using kinds <;> rfl

@[simp] theorem weight_present (x : Num) : x.weight .present = 0 := by
  cases x using kinds <;> rfl

@[simp] theorem weight_key (x : Num) (j : Key) : x.weight (.key j) = 0 := by
  cases x using kinds <;> rfl

end Num

namespace Total

variable (t : Total) (x : Num) (k : Int)

/-- What each count and sum of a total gains. -/
theorem add_sums :
    (t.add x k).nanos = t.nanos + x.weight .nanos * k ∧
      (t.add x k).posInf = t.posInf + x.weight .posInf * k ∧
      (t.add x k).negInf = t.negInf + x.weight .negInf * k ∧
      (t.add x k).nan = t.nan + x.weight .nan * k ∧
      (t.add x k).floats = t.floats + x.weight .floats * k := by
  cases x using Num.kinds <;> simp [add, Num.weight]

@[simp] theorem add_nanos : (t.add x k).nanos = t.nanos + x.weight .nanos * k :=
  (t.add_sums x k).1

@[simp] theorem add_posInf : (t.add x k).posInf = t.posInf + x.weight .posInf * k :=
  (t.add_sums x k).2.1

@[simp] theorem add_negInf : (t.add x k).negInf = t.negInf + x.weight .negInf * k :=
  (t.add_sums x k).2.2.1

@[simp] theorem add_nan : (t.add x k).nan = t.nan + x.weight .nan * k :=
  (t.add_sums x k).2.2.2.1

@[simp] theorem add_floats : (t.add x k).floats = t.floats + x.weight .floats * k :=
  (t.add_sums x k).2.2.2.2

@[simp] theorem add_scales (i : Fin 10) :
    (t.add x k).scales i = t.scales i + x.weight (.scale i) * k := by
  cases x using Num.kinds with
  | hnanos n j =>
      simp only [add, Num.weight, Function.update_apply]
      split
      · next h => rw [h, one_mul]
      · rw [zero_mul, add_zero]
  | _ => simp [add, Num.weight]

theorem add_float {V : Int} (h : (t.float.getD .default).Denotes V)
    (hk : x.isFinite = true → k.natAbs ≤ 2 ^ 63) :
    ((t.add x k).float.getD .default).Denotes (V + x.weight .units * k) := by
  have unchanged : (t.add x k).float = t.float → x.weight .units = 0 →
      ((t.add x k).float.getD .default).Denotes (V + x.weight .units * k) := by
    intro hfloat hweight
    rw [hfloat, hweight, zero_mul, add_zero]
    exact h
  cases x using Num.kinds with
  | hfinite s u hu =>
      have hfloat : (t.add (.float (.finite s u hu)) k).float =
          some ((t.float.getD .default).add (.finite s u hu) k) := rfl
      have hunits : Num.weight (.float (.finite s u hu)) .units = unitsOf (.finite s u hu) := rfl
      rw [hfloat, Option.getD_some, hunits]
      exact h.add rfl (hk rfl)
  | hnanos n i => exact unchanged rfl rfl
  | hnan => exact unchanged rfl rfl
  | hpos => exact unchanged rfl rfl
  | hneg => exact unchanged rfl rfl

end Total

/-! ## The counts and sums a fold holds -/

/-- A fold holds some counts and sums; what only an `avg` reads is kept for an
`avg` only. -/
structure Fold.Holds (agg : Agg) (f : Fold) (t : Stat → Int) : Prop where
  rows : f.rows = t .rows
  n : f.n = t .present
  nanos : f.total.nanos = t .nanos
  float : (f.total.float.getD .default).Denotes (t .units)
  posInf : f.total.posInf = t .posInf
  negInf : f.total.negInf = t .negInf
  nan : f.total.nan = t .nan
  values : ∀ k, f.values.get? k = if t (.key k) = 0 then none else some (t (.key k))
  scales : agg = .avg → ∀ i, f.total.scales i = t (.scale i)
  floats : agg = .avg → f.total.floats = t .floats

namespace Fold.Holds

variable {agg : Agg} {f : Fold} {t : Stat → Int} {p : Part} {k : Int}

theorem empty (agg : Agg) : Fold.default.Holds agg fun _ => 0 where
  rows := rfl
  n := rfl
  nanos := rfl
  float := denotes_default
  posInf := rfl
  negInf := rfl
  nan := rfl
  values := fun _ => rfl
  scales := fun _ _ => rfl
  floats := fun _ => rfl

theorem congr {u : Stat → Int} (h : f.Holds agg t) (heq : ∀ s, t s = u s) : f.Holds agg u :=
  funext heq ▸ h

theorem addRows (h : f.Holds agg t) (k : Int) :
    ({ f with rows := f.rows + k } : Fold).Holds agg
      (Function.update t .rows (t .rows + k)) where
  rows := by rw [Function.update_self, h.rows]
  n := h.n
  nanos := h.nanos
  float := h.float
  posInf := h.posInf
  negInf := h.negInf
  nan := h.nan
  values := h.values
  scales := h.scales
  floats := h.floats

theorem addPresent (h : f.Holds agg t) (k : Int) :
    ({ f with n := f.n + k } : Fold).Holds agg
      (Function.update t .present (t .present + k)) where
  rows := h.rows
  n := by rw [Function.update_self, h.n]
  nanos := h.nanos
  float := h.float
  posInf := h.posInf
  negInf := h.negInf
  nan := h.nan
  values := h.values
  scales := h.scales
  floats := h.floats

theorem addTotal (h : f.Holds agg t) (x : Num)
    (hk : x.isFinite = true → k.natAbs ≤ 2 ^ 63) :
    ({ f with total := f.total.add x k } : Fold).Holds agg fun s => t s + x.weight s * k := by
  constructor
  · rw [Num.weight_rows, zero_mul, add_zero]
    exact h.rows
  · rw [Num.weight_present, zero_mul, add_zero]
    exact h.n
  · rw [Total.add_nanos, h.nanos]
  · exact Total.add_float _ _ _ h.float hk
  · rw [Total.add_posInf, h.posInf]
  · rw [Total.add_negInf, h.negInf]
  · rw [Total.add_nan, h.nan]
  · intro j
    rw [Num.weight_key, zero_mul, add_zero]
    exact h.values j
  · intro havg i
    rw [Total.add_scales, h.scales havg]
  · intro havg
    rw [Total.add_floats, h.floats havg]

theorem setKey (h : f.Holds agg t) {values : SortedMap Key Int} (j : Key) (now : Int)
    (hvalues : ∀ i, values.get? i =
      if i = j then (if now = 0 then none else some now) else f.values.get? i) :
    ({ f with values := values } : Fold).Holds agg (Function.update t (.key j) now) where
  rows := h.rows
  n := h.n
  nanos := h.nanos
  float := h.float
  posInf := h.posInf
  negInf := h.negInf
  nan := h.nan
  values := by
    intro i
    change values.get? i = _
    rw [hvalues]
    by_cases hij : i = j
    · rw [if_pos hij, hij, Function.update_self]
    · rw [if_neg hij, Function.update_of_ne (fun heq => hij (Stat.key.inj heq)), h.values]
  scales := h.scales
  floats := h.floats

theorem getD_values (h : f.Holds agg t) (j : Key) : (f.values.get? j).getD 0 = t (.key j) := by
  rw [h.values]
  split
  · next hzero => exact hzero.symm
  · rfl

/-- Rows of a part added to what a fold holds, or taken away: where no count
goes below zero, the fold is in step. -/
theorem add (h : f.Holds agg t) (hrows : 0 ≤ t .rows + k)
    (hpresent : 0 ≤ t .present + p.weight .present * k)
    (hkey : ∀ j, p = .key j → 0 ≤ t (.key j) + k)
    (hk : ∀ x, p = .total x → x.isFinite = true → k.natAbs ≤ 2 ^ 63) :
    (f.add p k).2 = true ∧ (f.add p k).1.Holds agg fun s => t s + p.weight s * k := by
  have hin : p.weight .present = 1 → (decide (0 ≤ f.rows + k) && decide (0 ≤ f.n + k)) = true := by
    intro hone
    rw [hone, one_mul] at hpresent
    rw [h.rows, h.n]
    simp [hrows, hpresent]
  have hmore := h.addRows k
  cases p with
  | null =>
      refine ⟨?_, hmore.congr ?_⟩
      · change decide (0 ≤ f.rows + k) = true
        rw [h.rows]
        simpa using hrows
      · intro s
        cases s <;> simp [Part.weight, Function.update]
  | count =>
      refine ⟨hin rfl, (hmore.addPresent k).congr ?_⟩
      intro s
      cases s <;> simp [Part.weight, Function.update]
  | total x =>
      refine ⟨hin rfl,
        ((hmore.addTotal x (hk x rfl)).addPresent k).congr ?_⟩
      intro s
      cases s <;> simp [Part.weight, Function.update]
  | key j =>
      have hnow : (f.values.get? j).getD 0 + k = t (.key j) + k := by rw [h.getD_values]
      have hheld : ∀ values : SortedMap Key Int, (∀ i, values.get? i =
          if i = j then (if t (.key j) + k = 0 then none else some (t (.key j) + k))
          else f.values.get? i) →
          ({ f with rows := f.rows + k, values := values, n := f.n + k } : Fold).Holds agg
            fun s => t s + (Part.key j).weight s * k := by
        intro values hvalues
        refine ((hmore.setKey j _ hvalues).addPresent k).congr ?_
        intro s
        cases s with
        | key i =>
            by_cases hij : i = j <;> simp [Part.weight, Function.update, hij]
        | _ => simp [Part.weight, Function.update]
      unfold Fold.add
      simp only [hnow]
      by_cases hzero : t (.key j) + k = 0
      · rw [if_pos hzero]
        refine ⟨hin rfl, hheld _ ?_⟩
        intro i
        rw [SortedMap.get?_erase, if_pos hzero]
        split <;> rfl
      · rw [if_neg hzero, if_neg (not_lt.mpr (hkey j rfl))]
        refine ⟨hin rfl, hheld _ ?_⟩
        intro i
        rw [SortedMap.get?_insert, if_neg hzero]
        split <;> rfl

end Fold.Holds

end Improv.PgModel
