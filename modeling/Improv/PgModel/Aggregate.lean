import Mathlib.Algebra.BigOperators.Group.List.Basic
import Mathlib.Data.List.Dedup
import Improv.Engine.ExactValue
import Improv.Lib.Best
import Improv.PgModel.Fold
/-!
# Aggregates of rows

What an aggregate makes of the rows on one coordinate, told from all of them at
once: what the rows weigh in each count and sum, and the cell that is made of
the counts, the sums and the distinct values.
-/

namespace Improv.PgModel

open Improv.Lib Improv.CoreModel Improv.Engine

/-! ## What rows weigh -/

/-- What is counted, or summed, of the rows on a coordinate. -/
inductive Stat
  | rows
  /-- Rows with a value. -/
  | present
  | nanos
  /-- Rows summed in nanos with some decimal places. -/
  | scale (i : Fin 10)
  /-- The finite floats, in units of the least subnormal. -/
  | units
  /-- Rows summed as finite floats. -/
  | floats
  | posInf
  | negInf
  | nan
  /-- Rows with a value. -/
  | key (k : Key)
deriving DecidableEq

def Num.weight : Num → Stat → Int
  | .nanos n _, .nanos => n
  | .nanos _ i, .scale j => if j = i then 1 else 0
  | .float (.finite s u h), .units => unitsOf (.finite s u h)
  | .float (.finite ..), .floats => 1
  | .float (.inf false), .posInf => 1
  | .float (.inf true), .negInf => 1
  | .float .nan, .nan => 1
  | _, _ => 0

/-- What one row adds to a count or a sum. -/
def Part.weight : Part → Stat → Int
  | _, .rows => 1
  | .null, _ => 0
  | _, .present => 1
  | .key k, .key j => if j = k then 1 else 0
  | .total x, s => x.weight s
  | _, _ => 0

/-- Every count and sum of some rows. -/
def tally (parts : List Part) (s : Stat) : Int := (parts.map fun p => p.weight s).sum

@[simp] theorem tally_nil (s : Stat) : tally [] s = 0 := rfl

@[simp] theorem tally_cons (p : Part) (parts : List Part) (s : Stat) :
    tally (p :: parts) s = p.weight s + tally parts s := by
  unfold tally
  rw [List.map_cons, List.sum_cons]

theorem tally_append (parts others : List Part) (s : Stat) :
    tally (parts ++ others) s = tally parts s + tally others s := by
  unfold tally
  rw [List.map_append, List.sum_append]

theorem tally_perm {parts others : List Part} (h : parts.Perm others) :
    tally parts = tally others := by
  ext s
  exact (h.map _).sum_eq

/-! ## The values of some rows -/

/-- The values of some rows that `min`, `max` or `count_distinct` keeps. -/
def keysOf (parts : List Part) : List Key :=
  parts.filterMap fun p => match p with
    | .key k => some k
    | _ => none

theorem mem_keysOf_iff {parts : List Part} {k : Key} : k ∈ keysOf parts ↔ .key k ∈ parts := by
  unfold keysOf
  rw [List.mem_filterMap]
  constructor
  · rintro ⟨p, hp, hk⟩
    cases p <;> simp_all
  · intro h
    exact ⟨.key k, h, rfl⟩

/-! ## The aggregates -/

/-- The exact sum, rounded once where it is all decimals or all floats; as SQL
adds them, the infinities and NaNs win. -/
def sumOf (t : Stat → Int) : F64 :=
  if 0 < t .nan then .nan
  else if 0 < t .posInf ∧ 0 < t .negInf then .nan
  else if 0 < t .posInf then .inf false
  else if 0 < t .negInf then .inf true
  else (F64.ofRatio (t .nanos < 0) (t .nanos).natAbs NANOS).add (nearest (t .units))

/-- The mean: that of a numeric as SQL divides its exact sum, at the largest
scale of its values. -/
def avgOf (float : Bool) (t : Stat → Int) : F64 :=
  let special := 0 < t .posInf || 0 < t .negInf || 0 < t .nan
  if float || special || 0 < t .floats then (sumOf t).div (.ofInt (t .present))
  else
    let scale := ((List.finRange 10).reverse.find? fun i => 0 < t (.scale i)).elim 0 Fin.val
    numericDiv (t .nanos) scale (t .present)

/-- Whether a value is a better `min`, or `max`, than another: as `beats` has
it under a collation, else by their key order. -/
def betterKey (agg : Agg) (cmp : Option TextCmp) (a b : Key) : Bool :=
  match cmp with
  | some cmp => beats agg cmp a b
  | none => if agg = .max then b < a else a < b

/-- The cell the rows on a coordinate make. -/
def aggregate (cal : Calendar) (agg : Agg) (oid : Nat) (cmp : Option TextCmp)
    (parts : List Part) : Option Value :=
  if parts = [] then none
  else
    match agg with
    | .count => some (.number (.ofInt (tally parts .present)))
    | .countDistinct => some (.number (.ofNat (keysOf parts).dedup.length))
    | agg =>
      if tally parts .present = 0 then none
      else
        match agg with
        | .sum => some (.number (sumOf (tally parts)))
        | .avg => some (.number (avgOf (isFloat oid) (tally parts)))
        | agg => (best (betterKey agg cmp) (keysOf parts)).bind (Key.value cal)

/-! ## Orders of values -/

/-- How two values compare: texts by a collation's compare. -/
def keyCmp (cmp : TextCmp) : Key → Key → Ordering
  | .text a, .text b => cmp a b
  | a, b => compare a b

theorem beats_eq (agg : Agg) (cmp : TextCmp) (a b : Key) :
    beats agg cmp a b = if agg = .max then (keyCmp cmp a b).isGT else (keyCmp cmp a b).isLT := by
  unfold beats keyCmp
  cases a <;> cases b <;> rfl

section Orders

variable {cmp : TextCmp} {k : Key}

theorem Key.lt_text (hk : ∀ s, k ≠ .text s) (s : String) : k < .text s := by
  have hlt : k.orderKey < (Key.text s).orderKey := by
    rw [Prod.Lex.lt_iff]
    left
    cases k with
    | text t => exact absurd rfl (hk t)
    | num n => exact Nat.zero_lt_succ 2
    | bool b => exact Nat.succ_lt_succ (Nat.zero_lt_succ 1)
    | date ms => exact Nat.succ_lt_succ (Nat.succ_lt_succ (Nat.zero_lt_succ 0))
  exact hlt

theorem keyCmp_text_right (hk : ∀ s, k ≠ .text s) (s : String) :
    keyCmp cmp k (.text s) = .lt := by
  have hcmp : keyCmp cmp k (.text s) = compare k (.text s) := by
    cases k with
    | text t => exact absurd rfl (hk t)
    | num n => rfl
    | bool b => rfl
    | date ms => rfl
  rw [hcmp, compare_lt_iff_lt]
  exact Key.lt_text hk s

theorem keyCmp_text_left (hk : ∀ s, k ≠ .text s) (s : String) :
    keyCmp cmp (.text s) k = .gt := by
  have hcmp : keyCmp cmp (.text s) k = compare (.text s) k := by
    cases k with
    | text t => exact absurd rfl (hk t)
    | num n => rfl
    | bool b => rfl
    | date ms => rfl
  rw [hcmp, compare_gt_iff_gt]
  exact Key.lt_text hk s

theorem keyCmp_of_not_text (hk : ∀ s, k ≠ .text s) (j : Key) :
    keyCmp cmp k j = compare k j := by
  cases k with
  | text t => exact absurd rfl (hk t)
  | num n => rfl
  | bool b => rfl
  | date ms => rfl

theorem Key.text_or (k : Key) : (∃ s, k = .text s) ∨ ∀ s, k ≠ .text s := by
  by_cases h : ∃ s, k = .text s
  · exact .inl h
  · exact .inr fun s heq => h ⟨s, heq⟩

variable [Std.TransCmp cmp] [Std.LawfulEqCmp cmp]

instance keyCmp_trans : Std.TransCmp (keyCmp cmp) where
  eq_swap := by
    intro a b
    rcases a.text_or with ⟨s, rfl⟩ | ha
    · rcases b.text_or with ⟨t, rfl⟩ | hb
      · exact Beats.swap_eq cmp s t
      · rw [keyCmp_text_left hb, keyCmp_text_right hb]
        rfl
    · rcases b.text_or with ⟨t, rfl⟩ | hb
      · rw [keyCmp_text_left ha, keyCmp_text_right ha]
        rfl
      · rw [keyCmp_of_not_text ha b, keyCmp_of_not_text hb a]
        exact Std.OrientedCmp.eq_swap
  isLE_trans := by
    intro a b c hab hbc
    rcases b.text_or with ⟨t, rfl⟩ | hb
    · rcases c.text_or with ⟨u, rfl⟩ | hc
      · rcases a.text_or with ⟨s, rfl⟩ | ha
        · exact @Std.TransCmp.isLE_trans _ cmp _ _ _ _ hab hbc
        · rw [keyCmp_text_right ha]
          rfl
      · rw [keyCmp_text_left hc] at hbc
        cases hbc
    · rcases a.text_or with ⟨s, rfl⟩ | ha
      · rw [keyCmp_text_left hb] at hab
        cases hab
      · rcases c.text_or with ⟨u, rfl⟩ | hc
        · rw [keyCmp_text_right ha]
          rfl
        · rw [keyCmp_of_not_text ha b] at hab
          rw [keyCmp_of_not_text hb c] at hbc
          rw [keyCmp_of_not_text ha c]
          exact Std.TransCmp.isLE_trans hab hbc

instance keyCmp_lawful : Std.LawfulEqCmp (keyCmp cmp) where
  compare_self := by
    intro a
    rcases a.text_or with ⟨s, rfl⟩ | ha
    · exact @Std.ReflCmp.compare_self _ cmp _ s
    · rw [keyCmp_of_not_text ha a]
      exact Std.ReflCmp.compare_self
  eq_of_compare := by
    intro a b h
    rcases a.text_or with ⟨s, rfl⟩ | ha
    · rcases b.text_or with ⟨t, rfl⟩ | hb
      · exact congrArg Key.text (@Std.LawfulEqCmp.eq_of_compare _ cmp _ _ _ h)
      · rw [keyCmp_text_left hb] at h
        cases h
    · rcases b.text_or with ⟨t, rfl⟩ | hb
      · rw [keyCmp_text_right ha] at h
        cases h
      · rw [keyCmp_of_not_text ha b] at h
        exact compare_eq_iff_eq.mp h

theorem beats_strict (agg : Agg) : Beats (beats agg cmp) := by
  have heq : beats agg cmp = fun a b =>
      if agg = .max then (keyCmp cmp a b).isGT else (keyCmp cmp a b).isLT := by
    ext a b
    rw [beats_eq]
  rw [heq]
  by_cases hmax : agg = .max
  · simp only [hmax, if_true]
    exact Beats.of_gt
  · simp only [hmax, if_false]
    exact Beats.of_lt

end Orders

/-- A collation's compare is an order in which only one text is equal to
another: the text itself. -/
def Lawful (cmp : Option TextCmp) : Prop :=
  ∀ c, cmp = some c → Std.TransCmp c ∧ Std.LawfulEqCmp c

theorem lawful_none : Lawful none := by
  intro c hc
  cases hc

theorem betterKey_strict (agg : Agg) {cmp : Option TextCmp} (hcmp : Lawful cmp) :
    Beats (betterKey agg cmp) := by
  cases cmp with
  | some c =>
      obtain ⟨_, _⟩ := hcmp c rfl
      exact beats_strict agg
  | none =>
      have hlt : Beats fun a b : Key => decide (a < b) :=
        ⟨fun a b h => by simpa using le_of_lt (by simpa using h),
          fun a b c hab hbc => by simpa using le_trans (by simpa using hbc) (by simpa using hab),
          fun a b hab hba => le_antisymm (by simpa using hba) (by simpa using hab)⟩
      by_cases hmax : agg = .max
      · have heq : betterKey agg none = fun a b => decide (b < a) := by
          ext a b
          simp [betterKey, hmax]
        rw [heq]
        exact ⟨fun a b => hlt.asymm b a, fun a b d hab hbd => hlt.trans d b a hbd hab,
          fun a b hab hba => hlt.eq a b hba hab⟩
      · have heq : betterKey agg none = fun a b => decide (a < b) := by
          ext a b
          simp [betterKey, hmax]
        rw [heq]
        exact hlt

/-- An aggregate is of the rows in any order. -/
theorem aggregate_perm {cal : Calendar} {agg : Agg} {oid : Nat} {cmp : Option TextCmp}
    (hcmp : Lawful cmp) {parts others : List Part} (h : parts.Perm others) :
    aggregate cal agg oid cmp parts = aggregate cal agg oid cmp others := by
  have hkeys : (keysOf parts).Perm (keysOf others) := h.filterMap _
  have hnil : parts = [] ↔ others = [] := by
    constructor
    · intro heq
      exact List.nil_perm.mp (heq ▸ h)
    · intro heq
      exact List.perm_nil.mp (heq ▸ h)
  have hbest := (betterKey_strict agg hcmp).best_congr fun a => hkeys.mem_iff (a := a)
  unfold aggregate
  rw [tally_perm h, (hkeys.dedup).length_eq]
  simp only [hnil]
  cases agg <;> first | rfl | simp only [hbest]

end Improv.PgModel
