import Improv.Engine.ExactTotals
/-!
# Every order and every grouping

An exact sum over any grouping of its terms into partial sums, and over a
sliding window.  No addition leaves 64 bits below `2 ^ 45` terms.  The result
is the exact sum rounded once, except where a partial sum is too large for its
carry digit's 32 bits, and where a sum is a multiple of the last digit's
weight.
-/

namespace Improv.Engine

open Lib Lib.SignedDigits Lib.F64

/-! ## Groupings -/

/-- A way to add terms: one at a time, in partial sums, and read on the way. -/
inductive Grouping
  | nil
  | term (g : Grouping) (x : F64)
  | read (g : Grouping)
  | combine (g part : Grouping)

namespace Grouping

/-- The accumulator that a grouping leaves. -/
def run : Grouping → Option ExactSum
  | nil => some .default
  | term g x => do
    let a ← g.run
    a.add x
  | read g => do
    let a ← g.run
    let (_, a) ← a.exact
    some a
  | combine g part => do
    let a ← g.run
    let p ← part.run
    let (e, _) ← p.exact
    a.addExact e

/-- The compact sum of a grouping. -/
def exact (g : Grouping) : Option Exact := do
  let a ← g.run
  let (e, _) ← a.exact
  some e

/-- The terms of a grouping. -/
def terms : Grouping → Multiset F64
  | nil => 0
  | term g x => x ::ₘ g.terms
  | read g => g.terms
  | combine g part => g.terms + part.terms

/-- No partial sum reaches the size where its carry digit leaves 32 bits. -/
def InRange : Grouping → Prop
  | nil => True
  | term g _ | read g => g.InRange
  | combine g part => g.InRange ∧ part.InRange ∧ sumUnits part.terms < clampFrom

/-- One term at a time. -/
def oneByOne (xs : List F64) : Grouping := xs.foldl term nil

/-- What an exact sum promises of a grouping: the digits denote the sum of the
terms, terms with the same sum have the same compact form, and the value is the
sum rounded once. -/
structure SummedExactly (g : Grouping) : Prop where
  digits : ∃ a, g.run = some a ∧ ofDigits radix a.d = sumUnits g.terms
  canonical : ∀ xs : List F64, xs.length < 2 ^ 45 → sumUnits xs = sumUnits g.terms →
    flagsOfAll xs = flagsOfAll g.terms → (oneByOne xs).exact = g.exact
  value : ∃ e, g.exact = some e ∧ e.value = ieeeSum g.terms

/-! ## Runs -/

/-- What a partial sum's compact form adds: its sum, less one unit of the carry
digit when that was forced into 32 bits. -/
def combined (V : Int) : Int := if V < clampFrom then V else V - radix ^ 66

theorem combined_spec {d : List Int} {V : Int} (h : ExactSum.Expansion d V) (hV : |V| < carryRange)
    (f : SumFlags) :
    radix ^ (ExactSum.compact d f).lo * ofDigits radix (ExactSum.compact d f).d = combined V ∧
      (∀ w ∈ (ExactSum.compact d f).d, Balanced (2 ^ 31) w) ∧
      ((ExactSum.compact d f).d ≠ [] →
        (ExactSum.compact d f).lo + (ExactSum.compact d f).d.length ≤ DIGITS) := by
  obtain ⟨low, t, rfl, hlen, hlow, hval, hcase⟩ := h.cases hV
  refine ⟨?_, ?_, ?_⟩
  · unfold ExactSum.compact
    rw [ofDigits_trim, pow_zero, one_mul, List.map_append, ExactSum.map_clampDigit hlow,
      ofDigits_append, hlen, List.map_singleton, ofDigits_cons, ofDigits_nil, mul_zero, add_zero]
    unfold combined
    cases hcase with
    | inl hfits => rw [if_pos hfits.2, ExactSum.clampDigit_of_balanced hfits.1, hval]
    | inr hclamped =>
        rw [if_neg (not_lt.mpr hclamped.2), hval, hclamped.1,
          show ExactSum.clampDigit (2 ^ 31) = 2 ^ 31 - 1 by decide]
        ring
  · intro w hw
    have hmem := mem_of_mem_trim hw
    rw [List.mem_map] at hmem
    obtain ⟨x, -, rfl⟩ := hmem
    exact ExactSum.balanced_clampDigit x
  · intro hne
    have hle := length_trim_le 0 _ hne
    rw [List.length_map, h.length, zero_add] at hle
    exact hle

/-- What an accumulator of some terms denotes: their sum, less one unit of the
carry digit once a partial sum reached the size where that digit leaves 32
bits; from then on the terms left are too few to bring the sum back. -/
def Tracks (inRange : Prop) (s : Multiset F64) (V : Int) : Prop :=
  (inRange ∧ V = sumUnits s) ∨
    (¬inRange ∧ V = sumUnits s - radix ^ 66 ∧ 2 * clampFrom ≤ sumUnits s + s.card * 2 ^ 2098)

theorem clampFrom_units : clampFrom * (2 ^ 32 - 1) =
    2 ^ 31 * (2 ^ 14 * 2 ^ 2098 * (2 ^ 32 - 1) - (2 ^ 14 * 2 ^ 2098 - 1)) := by
  have hmul := clampFrom_mul
  rwa [show radix - 1 = 2 ^ 32 - 1 by norm_num [radix], radix_pow_eq] at hmul

theorem Tracks.range {inRange : Prop} {s : Multiset F64} {V : Int} (h : Tracks inRange s V)
    (hcard : s.card < 2 ^ 45) : |V| < carryRange := by
  have hsum := abs_sumUnits_lt hcard
  cases h with
  | inl hin => rwa [hin.2]
  | inr hout =>
      obtain ⟨-, hV, hbig⟩ := hout
      have hlt := card_mul_lt hcard
      have hmul := clampFrom_units
      rw [radix_pow_eq] at hV
      rw [carryRange_eq] at hlt hsum ⊢
      have hpos : (0 : Int) < 2 ^ 2098 := by positivity
      rw [abs_lt] at hsum ⊢
      generalize (2 : Int) ^ 2098 = T at *
      constructor <;> omega

theorem Tracks.cons {inRange : Prop} {s : Multiset F64} {V : Int} (h : Tracks inRange s V)
    (x : F64) : Tracks inRange (x ::ₘ s) (V + unitsOf x) := by
  have hx := abs_lt.mp (abs_unitsOf_lt x)
  unfold Tracks at h ⊢
  rw [sumUnits_cons, Multiset.card_cons]
  cases h with
  | inl hin => exact Or.inl ⟨hin.1, by rw [hin.2]; ring⟩
  | inr hout =>
      refine Or.inr ⟨hout.1, by rw [hout.2.1]; ring, ?_⟩
      push_cast
      rw [add_mul, one_mul]
      have hbig := hout.2.2
      omega

/-- Two sums, the second through its compact form. -/
theorem Tracks.combine {p q : Prop} {s t : Multiset F64} {V U : Int} (hs : Tracks p s V)
    (ht : Tracks q t U) (hcard : (s + t).card < 2 ^ 45) :
    Tracks (p ∧ q ∧ sumUnits t < clampFrom) (s + t) (V + combined U) := by
  have hlt := card_mul_lt hcard
  have hsle := abs_le.mp (abs_sumUnits_le s)
  have htle := abs_le.mp (abs_sumUnits_le t)
  have hmul := clampFrom_units
  unfold Tracks combined at *
  rw [sumUnits_add, Multiset.card_add] at *
  push_cast at *
  rw [add_mul] at *
  rw [radix_pow_eq] at *
  rw [carryRange_eq] at hlt
  have hpos : (0 : Int) < 2 ^ 2098 := by positivity
  generalize (2 : Int) ^ 2098 = T at *
  generalize (s.card : Int) * T = m at *
  generalize (t.card : Int) * T = n at *
  generalize clampFrom = C at *
  cases hs with
  | inl hin =>
      obtain ⟨hp, rfl⟩ := hin
      cases ht with
      | inl hin' =>
          obtain ⟨hq, rfl⟩ := hin'
          by_cases hfits : sumUnits t < C
          · left
            rw [if_pos hfits]
            exact ⟨⟨hp, hq, hfits⟩, rfl⟩
          · right
            rw [if_neg hfits]
            exact ⟨fun hc => hfits hc.2.2, by ring, by omega⟩
      | inr hout' =>
          obtain ⟨hq, rfl, hbig⟩ := hout'
          right
          rw [if_pos (by omega)]
          exact ⟨fun hc => hq hc.2.1, by ring, by omega⟩
  | inr hout =>
      -- the terms left are too few for a second sum of that size
      obtain ⟨hp, rfl, hbig⟩ := hout
      right
      have hsmall : U < C ∧ U = sumUnits t := by
        cases ht with
        | inl hin' => exact ⟨by omega, hin'.2⟩
        | inr hout' => omega
      rw [if_pos hsmall.1, hsmall.2]
      exact ⟨fun hc => hp hc.1, by ring, by omega⟩

/-- Every grouping of fewer than `2 ^ 45` terms runs through. -/
theorem run_spec (g : Grouping) (hcard : g.terms.card < 2 ^ 45) :
    ∃ a V, g.run = some a ∧ a.Denotes V CARRY_EVERY ∧ a.flags = flagsOfAll g.terms ∧
      Tracks g.InRange g.terms V := by
  induction g with
  | nil => exact ⟨_, 0, rfl, ExactSum.denotes_default, flagsOfAll_zero.symm, Or.inl ⟨trivial, rfl⟩⟩
  | term g x ih =>
      rw [terms, Multiset.card_cons] at hcard
      obtain ⟨a, V, hrun, hden, hflags, htracks⟩ := ih (by omega)
      have htracks' := htracks.cons x
      obtain ⟨a', hadd, hden', hflags'⟩ := ExactSum.add_spec hden
        ((htracks.range (by omega)).le.trans carryRange_le)
        ((htracks'.range (by rwa [Multiset.card_cons])).le.trans carryRange_le)
      refine ⟨a', _, ?_, hden', ?_, htracks'⟩
      · rw [run, hrun]
        exact hadd
      · rw [hflags', hflags, terms, flagsOfAll_cons]
  | read g ih =>
      obtain ⟨a, V, hrun, hden, hflags, htracks⟩ := ih hcard
      obtain ⟨d, a', -, hexact, hden', hflags'⟩ := ExactSum.exact_spec hden
        ((htracks.range hcard).le.trans carryRange_le)
      refine ⟨a', V, ?_, hden', hflags'.trans hflags, htracks⟩
      rw [run, hrun, Option.bind_eq_bind, Option.bind_some, hexact]
      rfl
  | combine g part ih ihPart =>
      have hcard' := hcard
      rw [terms, Multiset.card_add] at hcard'
      obtain ⟨a, V, hrun, hden, hflags, htracks⟩ := ih (by omega)
      obtain ⟨p, U, hrun', hden', hflags', htracks'⟩ := ihPart (by omega)
      have hrange := htracks.range (by omega)
      have hrange' := htracks'.range (by omega)
      have hboth := htracks.combine htracks' hcard
      obtain ⟨d, p', hexp, hexact, -, -⟩ := ExactSum.exact_spec hden'
        (hrange'.le.trans carryRange_le)
      obtain ⟨hunits, hbalanced, hlen⟩ := combined_spec hexp hrange' p.flags
      obtain ⟨a', hadd, hden'', hflags''⟩ := ExactSum.addExact_spec hden
        (hrange.le.trans carryRange_le) hlen hbalanced
        (by rw [hunits]; exact (hboth.range hcard).le.trans carryRange_le)
      rw [hunits] at hden''
      refine ⟨a', _, ?_, hden'', ?_, hboth⟩
      · rw [run, hrun, hrun', Option.bind_eq_bind, Option.bind_some, Option.bind_eq_bind,
          Option.bind_some, hexact]
        exact hadd
      · rw [hflags'', hflags, show (ExactSum.compact d p.flags).flags = p.flags from rfl, hflags',
          terms, flagsOfAll_add]

theorem terms_foldl (xs : List F64) (g : Grouping) :
    (xs.foldl term g).terms = (xs : Multiset F64) + g.terms := by
  induction xs generalizing g with
  | nil => simp
  | cons x xs ih =>
      rw [List.foldl_cons, ih, terms, ← Multiset.cons_coe, Multiset.add_cons, Multiset.cons_add]

theorem inRange_foldl (xs : List F64) (g : Grouping) : (xs.foldl term g).InRange ↔ g.InRange := by
  induction xs generalizing g with
  | nil => rfl
  | cons x xs ih => exact ih (term g x)

theorem terms_oneByOne (xs : List F64) : (oneByOne xs).terms = xs :=
  (terms_foldl xs nil).trans (add_zero _)

theorem inRange_oneByOne (xs : List F64) : (oneByOne xs).InRange :=
  (inRange_foldl xs nil).mpr trivial

/-- Reading a grouping in range gives the compact form of the sum of its
terms. -/
theorem exact_spec {g : Grouping} (hcard : g.terms.card < 2 ^ 45) (hin : g.InRange) :
    ∃ d, ExactSum.Expansion d (sumUnits g.terms) ∧
      g.exact = some (ExactSum.compact d (flagsOfAll g.terms)) := by
  obtain ⟨a, V, hrun, hden, hflags, htracks⟩ := g.run_spec hcard
  obtain ⟨d, a', hexp, hexact, -, -⟩ := ExactSum.exact_spec hden
    ((htracks.range hcard).le.trans carryRange_le)
  have hV : V = sumUnits g.terms := by
    cases htracks with
    | inl h => exact h.2
    | inr h => exact absurd hin h.1
  refine ⟨d, hV ▸ hexp, ?_⟩
  unfold exact
  rw [hrun, Option.bind_eq_bind, Option.bind_some, hexact, ← hflags]
  rfl

/-- The digits denote the sum of the terms exactly when no partial sum was too
large for its carry digit. -/
theorem digits_iff {g : Grouping} (hcard : g.terms.card < 2 ^ 45) :
    (∃ a, g.run = some a ∧ ofDigits radix a.d = sumUnits g.terms) ↔ g.InRange := by
  obtain ⟨a, V, hrun, hden, -, htracks⟩ := g.run_spec hcard
  have hP : (0 : Int) < radix ^ 66 := pow_pos (by norm_num [radix]) 66
  constructor
  · rintro ⟨a', hrun', hval⟩
    rw [hrun, Option.some.injEq] at hrun'
    rw [← hrun', hden.value] at hval
    cases htracks with
    | inl h => exact h.1
    | inr h =>
        have hV := h.2.1
        omega
  · intro hin
    refine ⟨a, hrun, ?_⟩
    rw [hden.value]
    cases htracks with
    | inl h => exact h.2
    | inr h => exact absurd hin h.1

theorem summedExactly_iff {g : Grouping} (hcard : g.terms.card < 2 ^ 45) :
    g.SummedExactly ↔ g.InRange ∧ ¬Misrounded g.terms := by
  constructor
  · intro h
    have hin := (digits_iff hcard).mp h.digits
    obtain ⟨d, hexp, hexact⟩ := exact_spec hcard hin
    obtain ⟨e, he, hvalue⟩ := h.value
    rw [hexact, Option.some.injEq] at he
    rw [← he] at hvalue
    exact ⟨hin, (ExactSum.value_eq_ieeeSum_iff hexp (abs_sumUnits_lt hcard)).mp hvalue⟩
  · rintro ⟨hin, hmis⟩
    obtain ⟨d, hexp, hexact⟩ := exact_spec hcard hin
    refine ⟨(digits_iff hcard).mpr hin, ?_,
      ⟨_, hexact, (ExactSum.value_eq_ieeeSum_iff hexp (abs_sumUnits_lt hcard)).mpr hmis⟩⟩
    intro xs hlen hsum hflags
    have hterms := terms_oneByOne xs
    obtain ⟨d', hexp', hexact'⟩ := @exact_spec (oneByOne xs)
      (by rw [hterms]; exact hlen) (inRange_oneByOne xs)
    rw [hterms, hsum] at hexp'
    rw [hexact', hexact, hterms, hflags, hexp.unique hexp']

end Grouping

/-! ## Windows -/

/-- A step of a sliding window: a term joins, an earlier term leaves, or the
sum is read. -/
inductive WindowStep
  | join (x : F64)
  | leave (x : F64)
  | read

namespace WindowSum

/-- The window's accumulator after some steps. -/
def run (w : WindowSum) : List WindowStep → Option WindowSum
  | [] => some w
  | .join x :: rest => do
    let w ← w.add x
    w.run rest
  | .leave x :: rest => do
    let w ← w.remove x
    w.run rest
  | .read :: rest => do
    let (_, w) ← w.value
    w.run rest

/-- The terms in the window after some steps. -/
def termsAfter (s : Multiset F64) : List WindowStep → Multiset F64
  | [] => s
  | .join x :: rest => termsAfter (x ::ₘ s) rest
  | .leave x :: rest => termsAfter (s.erase x) rest
  | .read :: rest => termsAfter s rest

/-- Only terms of the window leave it, and it never holds `2 ^ 45` terms. -/
def Slides (s : Multiset F64) : List WindowStep → Prop
  | [] => s.card < 2 ^ 45
  | .join x :: rest => s.card < 2 ^ 45 ∧ Slides (x ::ₘ s) rest
  | .leave x :: rest => s.card < 2 ^ 45 ∧ x ∈ s ∧ Slides (s.erase x) rest
  | .read :: rest => s.card < 2 ^ 45 ∧ Slides s rest

theorem Slides.card_lt {s : Multiset F64} {steps : List WindowStep} (h : Slides s steps) :
    s.card < 2 ^ 45 := by
  cases steps with
  | nil => exact h
  | cons step rest =>
      cases step with
      | join x => exact h.1
      | leave x => exact h.1
      | read => exact h.1

/-- How many of some terms are of each kind. -/
def countsOf (s : Multiset F64) : SumCounts :=
  ⟨s.countP (· ≠ negZero), s.count (.inf false), s.count (.inf true), s.count .nan⟩

/-- A window's accumulator holds the window's terms. -/
structure Holds (w : WindowSum) (s : Multiset F64) : Prop where
  denotes : w.sum.Denotes (sumUnits s) CARRY_EVERY
  n : w.n = countsOf s

theorem countStep_join {k : Bool} {n : Nat} (h : n < 2 ^ 61) :
    countStep true k n = some (n + if k then 1 else 0) := by
  cases k with
  | true =>
      unfold countStep
      rw [if_pos rfl, if_pos rfl, if_pos (by omega), if_pos rfl]
  | false => rfl

theorem countStep_leave (k : Bool) (n : Nat) :
    countStep false k (n + if k then 1 else 0) = some n := by
  cases k with
  | true =>
      unfold countStep
      rw [if_pos rfl, if_neg (by decide), if_pos rfl, if_neg (by omega), Nat.add_sub_cancel]
  | false => rfl

theorem eq_inf (x : F64) (s : Bool) : x.eq (.inf s) = decide (x = .inf s) := by
  cases x with
  | nan => rfl
  | inf t => cases s <;> cases t <;> rfl
  | finite t u h => simp [F64.eq]

theorem isNaN_eq (x : F64) : x.isNaN = decide (x = .nan) := by
  cases x <;> simp [F64.isNaN]

/-- One term more or less of each kind. -/
theorem countsOf_cons (x : F64) (s : Multiset F64) :
    countsOf (x ::ₘ s) =
      ⟨(countsOf s).notNegZero + if !isNegZero x then 1 else 0,
        (countsOf s).posInf + if x.eq (.inf false) then 1 else 0,
        (countsOf s).negInf + if x.eq (.inf true) then 1 else 0,
        (countsOf s).nan + if x.isNaN then 1 else 0⟩ := by
  unfold countsOf
  rw [Multiset.countP_cons, Multiset.count_cons, Multiset.count_cons, Multiset.count_cons,
    isNegZero_eq, eq_inf, eq_inf, isNaN_eq]
  simp [eq_comm (b := x)]

theorem unitsOf_of_not_finite {x : F64} (h : x.isFinite = false) : unitsOf x = 0 := by
  cases x with
  | nan => rfl
  | inf s => rfl
  | finite s u hu => exact absurd h (by simp [F64.isFinite])

theorem unitsOf_neg (x : F64) : unitsOf x.neg = -unitsOf x := by
  cases x with
  | nan => rfl
  | inf s => rfl
  | finite s u h => cases s <;> simp [unitsOf, F64.neg, signed]

theorem stepSum_spec {sum : ExactSum} {V : Int} (h : sum.Denotes V CARRY_EVERY)
    (hV : |V| ≤ digitRange) {x : F64} {join : Bool}
    (hV' : |V + if join then unitsOf x else -unitsOf x| ≤ digitRange) :
    ∃ sum', stepSum sum x join = some sum' ∧
      sum'.Denotes (V + if join then unitsOf x else -unitsOf x) CARRY_EVERY := by
  have hunits : (if join then unitsOf x else -unitsOf x) = unitsOf (if join then x else x.neg) := by
    cases join with
    | true => rfl
    | false => exact (unitsOf_neg x).symm
  unfold stepSum
  cases hfin : x.isFinite with
  | true =>
      rw [hunits] at hV' ⊢
      obtain ⟨sum', hadd, hden, -⟩ := ExactSum.add_spec h hV hV'
      exact ⟨sum', hadd, hden⟩
  | false =>
      rw [unitsOf_of_not_finite hfin, neg_zero, ite_self, add_zero]
      exact ⟨sum, rfl, h⟩

theorem Holds.add {w : WindowSum} {s : Multiset F64} (h : Holds w s) {x : F64}
    (hcard : (x ::ₘ s).card < 2 ^ 61) : ∃ w', w.add x = some w' ∧ Holds w' (x ::ₘ s) := by
  have hle := abs_sumUnits_le_digitRange hcard.le
  rw [sumUnits_cons, add_comm] at hle
  rw [Multiset.card_cons] at hcard
  have hrange := abs_sumUnits_le_digitRange (show s.card ≤ 2 ^ 61 by omega)
  have hn := h.n
  have h1 := @countStep_join (!isNegZero x) w.n.notNegZero
    (by rw [hn]; exact (Multiset.countP_le_card _ _).trans_lt (by omega))
  have h2 := @countStep_join (x.eq (.inf false)) w.n.posInf
    (by rw [hn]; exact (Multiset.count_le_card _ _).trans_lt (by omega))
  have h3 := @countStep_join (x.eq (.inf true)) w.n.negInf
    (by rw [hn]; exact (Multiset.count_le_card _ _).trans_lt (by omega))
  have h4 := @countStep_join x.isNaN w.n.nan
    (by rw [hn]; exact (Multiset.count_le_card _ _).trans_lt (by omega))
  obtain ⟨sum, hsum, hden⟩ := @stepSum_spec w.sum (sumUnits s) h.denotes hrange x true hle
  rw [if_pos rfl, add_comm, ← sumUnits_cons] at hden
  refine ⟨⟨sum, countsOf (x ::ₘ s)⟩, ?_, hden, rfl⟩
  unfold WindowSum.add step
  rw [countsOf_cons, ← hn]
  simp only [h1, h2, h3, h4, hsum, Option.bind_eq_bind, Option.bind_some]

theorem Holds.remove {w : WindowSum} {s : Multiset F64} (h : Holds w s) {x : F64} (hx : x ∈ s)
    (hcard : s.card < 2 ^ 61) : ∃ w', w.remove x = some w' ∧ Holds w' (s.erase x) := by
  have hcons := Multiset.cons_erase hx
  have hunits : sumUnits s + -unitsOf x = sumUnits (s.erase x) := by
    conv_lhs => rw [← hcons]
    rw [sumUnits_cons]
    ring
  have hcard' : (s.erase x).card < 2 ^ 61 :=
    (Multiset.card_le_card (Multiset.erase_le x s)).trans_lt hcard
  have hle := abs_sumUnits_le_digitRange hcard'.le
  have hrange := abs_sumUnits_le_digitRange hcard.le
  have hn : w.n = countsOf (x ::ₘ s.erase x) := by rw [hcons]; exact h.n
  rw [countsOf_cons] at hn
  rw [← hunits] at hle
  obtain ⟨sum, hsum, hden⟩ := @stepSum_spec w.sum (sumUnits s) h.denotes hrange x false hle
  rw [if_neg (by decide), hunits] at hden
  refine ⟨⟨sum, countsOf (s.erase x)⟩, ?_, hden, rfl⟩
  unfold WindowSum.remove step
  rw [hn]
  simp only [countStep_leave, hsum, Option.bind_eq_bind, Option.bind_some]

/-- Reading the window: the compact form of its terms' sum, rounded. -/
theorem Holds.value {w : WindowSum} {s : Multiset F64} (h : Holds w s) (hcard : s.card < 2 ^ 61) :
    ∃ d w', ExactSum.Expansion d (sumUnits s) ∧
      w.value = some ((ExactSum.compact d (flagsOfAll s)).value, w') ∧ Holds w' s := by
  obtain ⟨d, sum, hexp, hexact, hden, -⟩ := ExactSum.exact_spec h.denotes
    (abs_sumUnits_le_digitRange hcard.le)
  refine ⟨d, ⟨sum, w.n⟩, hexp, ?_, hden, h.n⟩
  unfold WindowSum.value
  rw [hexact, Option.bind_eq_bind, Option.bind_some, h.n]
  simp only [countsOf, Multiset.count_pos]
  rfl

/-- The window's accumulator holds the window's terms after any steps. -/
theorem run_spec {steps : List WindowStep} {w : WindowSum} {s : Multiset F64} (h : Holds w s)
    (hslides : Slides s steps) : ∃ w', w.run steps = some w' ∧ Holds w' (termsAfter s steps) ∧
      (termsAfter s steps).card < 2 ^ 45 := by
  induction steps generalizing w s with
  | nil => exact ⟨w, rfl, h, hslides⟩
  | cons step rest ih =>
      cases step with
      | join x =>
          obtain ⟨-, hrest⟩ := hslides
          obtain ⟨w', hadd, hholds⟩ := h.add (hrest.card_lt.trans (by norm_num))
          rw [run, hadd]
          exact ih hholds hrest
      | leave x =>
          obtain ⟨hcard, hx, hrest⟩ := hslides
          obtain ⟨w', hremove, hholds⟩ := h.remove hx (hcard.trans (by norm_num))
          rw [run, hremove]
          exact ih hholds hrest
      | read =>
          obtain ⟨hcard, hrest⟩ := hslides
          obtain ⟨d, w', -, hvalue, hholds⟩ := h.value (hcard.trans (by norm_num))
          rw [run, hvalue]
          exact ih hholds hrest

theorem holds_default : Holds default 0 :=
  ⟨ExactSum.denotes_default, by simp [countsOf, default]⟩

end WindowSum

/-! ## Exact summation -/

/-- The largest double, in units. -/
def maxUnits : Nat := (2 ^ 53 - 1) * 2 ^ 2045

theorem maxUnits_mul : (2 ^ 53 : Int) * maxUnits = (2 ^ 53 - 1) * 2 ^ 2098 := by
  have hT : (2 : Int) ^ 2098 = 2 ^ 53 * 2 ^ 2045 := by rw [← pow_add]
  have hcast : (maxUnits : Int) = (2 ^ 53 - 1) * 2 ^ 2045 := by
    unfold maxUnits
    rw [Nat.cast_mul, Nat.cast_pow]
    rfl
  rw [hcast, hT]
  generalize (2 : Int) ^ 2045 = Z
  ring

theorem le_maxUnits {u : Nat} (h : representable u = true) : u ≤ maxUnits := by
  have hdiv := div_place_lt u
  have hlog := log2_le_of_representable h
  have hexact := Nat.div_mul_cancel (representable_iff.mp h).2.dvd
  have hpow : 2 ^ (u.log2 - 52) ≤ 2 ^ 2045 := Nat.pow_le_pow_right (by norm_num) (by omega)
  unfold maxUnits
  generalize 2 ^ 2045 = Z at hpow ⊢
  generalize 2 ^ (u.log2 - 52) = place at hdiv hexact hpow
  rw [← hexact]
  exact Nat.mul_le_mul (by omega) hpow

attribute [irreducible] maxUnits

theorem unitsOf_le (x : F64) : unitsOf x ≤ maxUnits := by
  cases x with
  | nan => exact Int.natCast_nonneg _
  | inf s => exact Int.natCast_nonneg _
  | finite s u h =>
      have hle := le_maxUnits h
      rw [show unitsOf (.finite s u h) = signed s u from rfl]
      unfold signed
      split <;> omega

theorem sumUnits_le (s : Multiset F64) : sumUnits s ≤ s.card * maxUnits := by
  induction s using Multiset.induction_on with
  | empty => rw [sumUnits_zero, Multiset.card_zero, Nat.cast_zero, zero_mul]
  | cons x s ih =>
      have hx := unitsOf_le x
      rw [sumUnits_cons, Multiset.card_cons]
      push_cast
      rw [add_mul, one_mul]
      generalize (s.card : Int) * maxUnits = m at ih ⊢
      omega

/-- A sum of at most `2 ^ 45 - 2 ^ 13` terms is not too large for its carry
digit. -/
theorem sumUnits_lt_clampFrom {s : Multiset F64} (h : s.card ≤ 2 ^ 45 - 2 ^ 13) :
    sumUnits s < clampFrom := by
  have hcard : (s.card : Int) ≤ 2 ^ 45 - 2 ^ 13 := by omega
  have hle := (sumUnits_le s).trans (mul_le_mul_of_nonneg_right hcard (Int.natCast_nonneg _))
  have hmax := maxUnits_mul
  have hmul := Grouping.clampFrom_units
  have hpos : (1 : Int) ≤ 2 ^ 2045 := one_le_pow₀ (by norm_num)
  have hT : (2 : Int) ^ 2098 = 2 ^ 53 * 2 ^ 2045 := by rw [← pow_add]
  rw [hT] at hmax hmul
  clear hT hcard h
  generalize (2 : Int) ^ 2045 = Z at *
  generalize (maxUnits : Int) = M at *
  linarith

/-- With at most `2 ^ 45 - 2 ^ 13` terms no partial sum is too large for its
carry digit. -/
theorem Grouping.inRange_of_card_le {g : Grouping} (h : g.terms.card ≤ 2 ^ 45 - 2 ^ 13) :
    g.InRange := by
  induction g with
  | nil => trivial
  | term g x ih =>
      rw [terms, Multiset.card_cons] at h
      exact ih (by omega)
  | read g ih => exact ih h
  | combine g part ih ihPart =>
      rw [terms, Multiset.card_add] at h
      exact ⟨ih (by omega), ihPart (by omega), sumUnits_lt_clampFrom (by omega)⟩

/-- A nonzero multiple of the last digit's weight comes out scaled down and with
the other sign. -/
theorem Grouping.value_of_multiple {g : Grouping} (hcard : g.terms.card < 2 ^ 45) (hin : g.InRange)
    (hmis : Misrounded g.terms) {k : Int} (hk : sumUnits g.terms = radix ^ 66 * k) :
    g.exact.map Exact.value = some (F64.ofUnits (0 < k) (k.natAbs * 2 ^ 64)) := by
  obtain ⟨hnan, hpos, hneg, hne, hdvd⟩ := hmis
  obtain ⟨d, hexp, hexact⟩ := exact_spec hcard hin
  have hP : (0 : Int) < radix ^ 66 := pow_pos (by norm_num [radix]) 66
  rw [hexact, Option.map_some, ExactSum.value_flagsOfAll hexp (abs_sumUnits_lt hcard),
    if_neg (by simp [hnan, hpos]), if_neg hpos, if_neg hneg]
  unfold ExactSum.valueOf
  rw [if_neg hne, if_pos hdvd, hk, Int.mul_ediv_cancel_left _ hP.ne',
    decide_eq_decide.mpr (mul_pos_iff_of_pos_left hP)]

theorem sumUnits_replicate (n : Nat) (x : F64) :
    sumUnits (List.replicate n x : Multiset F64) = n * unitsOf x := by
  rw [Multiset.coe_replicate, sumUnits, Multiset.map_replicate, Multiset.sum_replicate,
    nsmul_eq_mul]

/-- Below `2 ^ 45` terms no addition leaves 64 bits in any order and any
grouping, and a grouping is summed exactly if and only if none of its partial
sums was too large for its carry digit and its sum is no nonzero multiple of
the last digit's weight.  A sliding window's digits always denote the sum of
its terms, rounded once but for the same multiples. -/
theorem exactSum_correct (g : Grouping) (steps : List WindowStep)
    (hcard : g.terms.card < 2 ^ 45) (hslides : WindowSum.Slides 0 steps) :
    ((∃ a, g.run = some a) ∧ (g.SummedExactly ↔ g.InRange ∧ ¬Misrounded g.terms)) ∧
    ∃ w v w', WindowSum.default.run steps = some w ∧
      ofDigits radix w.sum.d = sumUnits (WindowSum.termsAfter 0 steps) ∧
      w.value = some (v, w') ∧
      (v = ieeeSum (WindowSum.termsAfter 0 steps) ↔
        ¬Misrounded (WindowSum.termsAfter 0 steps)) := by
  constructor
  · obtain ⟨a, V, hrun, -⟩ := g.run_spec hcard
    exact ⟨⟨a, hrun⟩, Grouping.summedExactly_iff hcard⟩
  · obtain ⟨w, hrun, hholds, hcount⟩ := WindowSum.run_spec WindowSum.holds_default hslides
    obtain ⟨d, w', hexp, hvalue, -⟩ := hholds.value (hcount.trans (by norm_num))
    exact ⟨w, _, w', hrun, hholds.denotes.value, hvalue,
      ExactSum.value_eq_ieeeSum_iff hexp (abs_sumUnits_lt hcount)⟩

/-- The double 1. -/
def oneTerm : F64 := .finite false (2 ^ 1074) (representable_pow (by norm_num))

/-- Two ones in a partial sum, and a window they joined and one left. -/
theorem exactSum_correct_ones :
    (Grouping.combine .nil (.term (.term .nil oneTerm) oneTerm)).SummedExactly ∧
      ∃ w v w', WindowSum.default.run [.join oneTerm, .join oneTerm, .leave oneTerm] = some w ∧
        w.value = some (v, w') ∧ v = oneTerm := by
  have hslides : WindowSum.Slides 0 [.join oneTerm, .join oneTerm, .leave oneTerm] := by
    refine ⟨by decide, by decide, by decide, Multiset.mem_cons_self _ _, ?_⟩
    rw [Multiset.erase_cons_head]
    exact (by decide : Multiset.card (oneTerm ::ₘ 0) < 2 ^ 45)
  have hafter : WindowSum.termsAfter 0 [.join oneTerm, .join oneTerm, .leave oneTerm] =
      {oneTerm} := Multiset.erase_cons_head oneTerm (oneTerm ::ₘ 0)
  have h := exactSum_correct (.combine .nil (.term (.term .nil oneTerm) oneTerm)) _ (by decide)
    hslides
  obtain ⟨⟨-, hgrouping⟩, w, v, w', hrun, -, hvalue, hwindow⟩ := h
  rw [hafter] at hwindow
  refine ⟨hgrouping.mpr ⟨⟨trivial, trivial, by decide +kernel⟩,
    fun h => absurd h.2.2.2.2 (by decide +kernel)⟩, w, v, w', hrun, hvalue, ?_⟩
  rw [hwindow.mpr fun h => absurd h.2.2.2.2 (by decide +kernel)]
  decide +kernel

/-- The double `2 ^ 1023`. -/
def hugeTerm : F64 := .finite false (2 ^ 2097) (representable_pow (by norm_num))

/-- It 32768 times: the sum is past the largest double, and comes out as a small
negative number. -/
theorem exactSum_fails_on_last_digit :
    (Grouping.oneByOne (List.replicate (2 ^ 15) hugeTerm)).exact.map Exact.value =
        some (F64.ofUnits true (2 ^ 64)) ∧
      ieeeSum (List.replicate (2 ^ 15) hugeTerm) = .inf false := by
  have hterms := Grouping.terms_oneByOne (List.replicate (2 ^ 15) hugeTerm)
  have hsum : sumUnits (List.replicate (2 ^ 15) hugeTerm : Multiset F64) = radix ^ 66 * 1 := by
    rw [sumUnits_replicate]
    decide +kernel
  have hne : ∀ x, x ≠ hugeTerm → x ∉ (List.replicate (2 ^ 15) hugeTerm : Multiset F64) :=
    fun x hx hmem => hx (List.eq_of_mem_replicate (Multiset.mem_coe.mp hmem))
  have hnan := hne .nan (by decide +kernel)
  have hpos := hne (.inf false) (by decide +kernel)
  have hneg := hne (.inf true) (by decide +kernel)
  have hzero : radix ^ 66 * 1 ≠ 0 := by decide +kernel
  constructor
  · have hvalue := @Grouping.value_of_multiple
      (Grouping.oneByOne (List.replicate (2 ^ 15) hugeTerm))
      (by rw [hterms, Multiset.coe_card, List.length_replicate]; norm_num)
      (Grouping.inRange_oneByOne _)
      (by rw [hterms]; exact ⟨hnan, hpos, hneg, hsum ▸ hzero, hsum ▸ Int.dvd_mul_right _ _⟩) 1
      (by rw [hterms, hsum])
    exact hvalue
  · unfold ieeeSum
    rw [if_neg (by simp only [hnan, hpos, false_and, or_self, not_false_eq_true]), if_neg hpos,
      if_neg hneg, hsum, if_neg hzero]
    decide +kernel

end Improv.Engine
