import Improv.Engine.Reduce
import Improv.Lib.Rounding
/-!
# Extremes

`MIN` and `MAX` fold numbers by one order, -0.0 below 0.0, and pass over NaNs.
Each number has its cost in that order, an integer that only it has, so what a
fold returns is told by the least cost.
-/

namespace Improv.Engine

open Lib Lib.F64 Builtins

/-- A number's place among the numbers, -0.0 below 0.0; a NaN has none. -/
def place : F64 → Option Int
  | .nan => none
  | .inf s => some (if s then -2 ^ 2098 - 1 else 2 ^ 2098)
  | .finite s u _ => some (if s then -u - 1 else u)

/-- What `MIN`, or `MAX`, makes least. -/
def cost (greatest : Bool) (x : F64) : Option Int :=
  if greatest then (place x).map (-·) else place x

/-- The better of two numbers for `MIN`, or `MAX`. -/
def extreme (greatest : Bool) : F64 → F64 → F64 := if greatest then max else min

/-- The worst number of all. -/
def worst (greatest : Bool) : F64 := .inf greatest

theorem lt_of_representable {u : Nat} (h : representable u = true) : (u : Int) < 2 ^ 2098 := by
  have hlt := (representable_iff.mp h).1
  exact_mod_cast hlt

theorem place_injective {x y : F64} {p : Int} (hx : place x = some p) (hy : place y = some p) :
    x = y := by
  cases x with
  | nan => cases hx
  | inf s =>
      cases y with
      | nan => cases hy
      | inf t =>
          unfold place at hx hy
          cases s <;> cases t <;> simp_all <;> omega
      | finite t v hv =>
          have hlt := lt_of_representable hv
          unfold place at hx hy
          cases s <;> cases t <;> simp at hx hy <;> omega
  | finite s u hu =>
      have hlt := lt_of_representable hu
      cases y with
      | nan => cases hy
      | inf t =>
          unfold place at hx hy
          cases s <;> cases t <;> simp at hx hy <;> omega
      | finite t v hv =>
          unfold place at hx hy
          cases s <;> cases t <;> simp at hx hy <;> first | omega | (congr 1; omega)

theorem cost_injective {g : Bool} {x y : F64} {p : Int} (hx : cost g x = some p)
    (hy : cost g y = some p) : x = y := by
  cases g with
  | false => exact place_injective hx hy
  | true =>
      unfold cost at hx hy
      rw [if_pos rfl, Option.map_eq_some_iff] at hx hy
      obtain ⟨a, ha, hap⟩ := hx
      obtain ⟨b, hb, hbp⟩ := hy
      exact place_injective ha (by rw [hb]; congr 1; omega)

theorem cost_eq_none_iff {g : Bool} {x : F64} : cost g x = none ↔ x.isNaN = true := by
  cases g <;> cases x <;> simp [cost, place, isNaN]

/-- The comparisons behind `MIN` and `MAX` follow the places. -/
theorem le_of_lt {x y : F64} {p q : Int} (hx : place x = some p) (hy : place y = some q) :
    (x.lt y = true → p ≤ q) ∧ (x.eq y = true → isSignNegative x = true → p ≤ q) ∧
      (x.eq y = true → isSignNegative x = false → q ≤ p) ∧
      (x.lt y = false → x.eq y = false → q ≤ p) := by
  cases x with
  | nan => cases hx
  | inf s =>
      cases y with
      | nan => cases hy
      | inf t =>
          unfold place at hx hy
          cases s <;> cases t <;> simp [F64.lt, F64.eq, isSignNegative] at hx hy ⊢ <;> omega
      | finite t v hv =>
          have hlt := lt_of_representable hv
          unfold place at hx hy
          cases s <;> cases t <;> simp [F64.lt, F64.eq, isSignNegative] at hx hy ⊢ <;> omega
  | finite s u hu =>
      have hlt := lt_of_representable hu
      cases y with
      | nan => cases hy
      | inf t =>
          unfold place at hx hy
          cases s <;> cases t <;> simp [F64.lt, F64.eq, isSignNegative] at hx hy ⊢ <;> omega
      | finite t v hv =>
          unfold place at hx hy
          cases s <;> cases t <;> simp [F64.lt, F64.eq, isSignNegative, signed] at hx hy ⊢ <;>
            omega

theorem eq_swap (x y : F64) : x.eq y = y.eq x := by
  cases x <;> cases y <;> simp [F64.eq, Bool.beq_comm, eq_comm]

theorem place_min {a x : F64} {p q : Int} (ha : place a = some p) (hx : place x = some q) :
    place (Builtins.min a x) = some (Min.min p q) := by
  obtain ⟨hlt, hneg, hpos, hrest⟩ := le_of_lt hx ha
  unfold Builtins.min
  by_cases hbetter : (x.lt a || (x.eq a && isSignNegative x)) = true
  · rw [if_pos hbetter, hx]
    rw [Bool.or_eq_true, Bool.and_eq_true] at hbetter
    have hle : q ≤ p := hbetter.elim hlt fun h => hneg h.1 h.2
    rw [min_eq_right hle]
  · rw [if_neg hbetter, ha]
    rw [Bool.or_eq_true, Bool.and_eq_true, not_or, not_and] at hbetter
    have hle : p ≤ q := by
      cases heq : x.eq a with
      | true => exact hpos heq (Bool.eq_false_of_not_eq_true (hbetter.2 heq))
      | false => exact hrest (Bool.eq_false_of_not_eq_true hbetter.1) heq
    rw [min_eq_left hle]

theorem place_max {a x : F64} {p q : Int} (ha : place a = some p) (hx : place x = some q) :
    place (Builtins.max a x) = some (Max.max p q) := by
  obtain ⟨-, hneg, hpos, -⟩ := le_of_lt hx ha
  obtain ⟨hlt, -, -, hrest⟩ := le_of_lt ha hx
  unfold Builtins.max
  by_cases hbetter : (a.lt x || (x.eq a && !isSignNegative x)) = true
  · rw [if_pos hbetter, hx]
    rw [Bool.or_eq_true, Bool.and_eq_true, Bool.not_eq_true'] at hbetter
    have hle : p ≤ q := hbetter.elim hlt fun h => hpos h.1 h.2
    rw [max_eq_right hle]
  · rw [if_neg hbetter, ha]
    rw [Bool.or_eq_true, Bool.and_eq_true, not_or, not_and, Bool.not_eq_true',
      Bool.not_eq_false] at hbetter
    have hle : q ≤ p := by
      cases heq : x.eq a with
      | true => exact hneg heq (hbetter.2 heq)
      | false => exact hrest (Bool.eq_false_of_not_eq_true hbetter.1) (by rw [eq_swap, heq])
    rw [max_eq_left hle]

/-- A fold keeps the lesser cost, and passes over a NaN. -/
theorem cost_extreme {g : Bool} {a x : F64} {p : Int} (ha : cost g a = some p) :
    cost g (extreme g a x) = some ((cost g x).elim p (Min.min p)) := by
  cases hx : cost g x with
  | none =>
      have hnan := cost_eq_none_iff.mp hx
      have hsame : extreme g a x = a := by
        cases x with
        | nan => cases g <;> cases a <;> rfl
        | inf s => cases hnan
        | finite s u h => cases hnan
      rw [hsame, ha, Option.elim_none]
  | some q =>
      rw [Option.elim_some]
      cases g with
      | false => exact place_min ha hx
      | true =>
          unfold cost at ha hx ⊢
          rw [if_pos rfl, Option.map_eq_some_iff] at ha hx
          obtain ⟨b, hb, rfl⟩ := ha
          obtain ⟨c, hc, rfl⟩ := hx
          rw [if_pos rfl, extreme, if_pos rfl, place_max hb hc, Option.map_some]
          congr 1
          omega

/-- The costs of some numbers. -/
def costs (g : Bool) (xs : List F64) : List Int := xs.filterMap (cost g)

theorem cost_foldl {g : Bool} {a : F64} {p : Int} (ha : cost g a = some p) (xs : List F64) :
    cost g (xs.foldl (extreme g) a) = some ((costs g xs).foldl Min.min p) := by
  induction xs generalizing a p with
  | nil => exact ha
  | cons x xs ih =>
      rw [List.foldl_cons, ih (cost_extreme ha)]
      unfold costs
      cases hx : cost g x with
      | none => rw [List.filterMap_cons_none hx, Option.elim_none]
      | some q => rw [List.filterMap_cons_some hx, Option.elim_some, List.foldl_cons]

/-- What the worst number costs. -/
def worstCost (g : Bool) : Int := if g then 2 ^ 2098 + 1 else 2 ^ 2098

theorem cost_worst (g : Bool) : cost g (worst g) = some (worstCost g) := by
  cases g <;> simp [cost, worst, place, worstCost]
  omega

/-- No number costs more than the worst one. -/
theorem le_worstCost {g : Bool} {x : F64} {p : Int} (h : cost g x = some p) : p ≤ worstCost g := by
  cases x with
  | nan => cases g <;> cases h
  | inf s => cases g <;> cases s <;> simp [cost, place, worstCost] at h ⊢ <;> omega
  | finite s u hu =>
      have hlt := lt_of_representable hu
      cases g <;> cases s <;> simp [cost, place, worstCost] at h ⊢ <;> omega

theorem foldl_min_of_le {l : List Int} {q : Int} (hle : ∀ p ∈ l, q ≤ p) :
    l.foldl Min.min q = q := by
  induction l with
  | nil => rfl
  | cons p l ih =>
      rw [List.foldl_cons, min_eq_left (hle p List.mem_cons_self)]
      exact ih fun r hr => hle r (List.mem_cons_of_mem p hr)

theorem foldl_min_eq {l : List Int} {q w : Int} (hq : q ∈ l) (hle : ∀ p ∈ l, q ≤ p)
    (hw : q ≤ w) : l.foldl Min.min w = q := by
  induction l generalizing w with
  | nil => cases hq
  | cons p l ih =>
      have hp := hle p List.mem_cons_self
      have hl : ∀ r ∈ l, q ≤ r := fun r hr => hle r (List.mem_cons_of_mem p hr)
      rw [List.foldl_cons]
      by_cases hmem : q ∈ l
      · exact ih hmem hl (le_min hw hp)
      · rw [← (List.mem_cons.mp hq).resolve_right hmem, min_eq_right hw]
        exact foldl_min_of_le hl

end Improv.Engine
