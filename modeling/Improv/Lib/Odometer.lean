import Mathlib.Algebra.BigOperators.Group.List.Basic
import Mathlib.Data.List.Forall2
import Mathlib.Data.List.Nodup
import Improv.Lib.Cached
/-!
# Odometers

A position of an odometer is one index for each wheel, the first wheel turning
fastest.  Positions are the numbers below the product of the wheels' sizes in
mixed radix, the next position is the next number, and a sweep that starts at
zero meets every position.
-/

namespace Improv.Lib.Odometer

/-- Each index is below its wheel's size. -/
abbrev InRange (sizes pos : List Nat) : Prop := List.Forall₂ (fun a n => a < n) pos sizes

/-- The position as a number. -/
def value : List Nat → List Nat → Nat
  | n :: sizes, a :: pos => a + n * value sizes pos
  | _, _ => 0

/-- The position after this one, if it is not the last. -/
def next : List Nat → List Nat → Option (List Nat)
  | n :: sizes, a :: pos =>
      if a + 1 < n then some ((a + 1) :: pos) else (next sizes pos).map (0 :: ·)
  | _, _ => none

variable {sizes pos pos' : List Nat}

theorem value_lt (h : InRange sizes pos) : value sizes pos < sizes.prod := by
  induction h with
  | nil => decide
  | @cons a n pos sizes ha _ ih =>
      have hmul : n * (value sizes pos + 1) ≤ n * sizes.prod := Nat.mul_le_mul_left n ih
      rw [List.prod_cons, value]
      rw [Nat.mul_add, Nat.mul_one] at hmul
      omega

theorem value_inj (h : InRange sizes pos) (h' : InRange sizes pos')
    (heq : value sizes pos = value sizes pos') : pos = pos' := by
  induction h generalizing pos' with
  | nil => cases h'; rfl
  | @cons a n pos sizes ha hpos ih =>
      obtain _ | ⟨ha', hpos'⟩ := h'
      rename_i b rest
      simp only [value] at heq
      have hmod : (a + n * value sizes pos) % n = (b + n * value sizes rest) % n := by rw [heq]
      rw [Nat.add_mul_mod_self_left, Nat.add_mul_mod_self_left, Nat.mod_eq_of_lt ha,
        Nat.mod_eq_of_lt ha'] at hmod
      subst hmod
      have hmul : n * value sizes pos = n * value sizes rest := by omega
      rw [ih hpos' (Nat.eq_of_mul_eq_mul_left (by omega) hmul)]

/-- The next position is the next number. -/
theorem next_of_some (h : InRange sizes pos) (hnext : next sizes pos = some pos') :
    InRange sizes pos' ∧ value sizes pos' = value sizes pos + 1 := by
  induction h generalizing pos' with
  | nil => cases hnext
  | @cons a n pos sizes ha hpos ih =>
      rw [next] at hnext
      by_cases hturn : a + 1 < n
      · rw [if_pos hturn] at hnext
        cases hnext
        refine ⟨.cons hturn hpos, ?_⟩
        simp only [value]
        omega
      · rw [if_neg hturn, Option.map_eq_some_iff] at hnext
        obtain ⟨rest, hrest, rfl⟩ := hnext
        have ⟨hrange, hvalue⟩ := ih hrest
        refine ⟨.cons (by omega) hrange, ?_⟩
        simp only [value]
        rw [hvalue, Nat.mul_add, Nat.mul_one]
        omega

/-- The last position is the greatest number. -/
theorem next_of_none (h : InRange sizes pos) (hnext : next sizes pos = none) :
    value sizes pos + 1 = sizes.prod := by
  induction h with
  | nil => rfl
  | @cons a n pos sizes ha hpos ih =>
      rw [next] at hnext
      by_cases hturn : a + 1 < n
      · rw [if_pos hturn] at hnext
        cases hnext
      · rw [if_neg hturn, Option.map_eq_none_iff] at hnext
        rw [List.prod_cons, ← ih hnext, value, Nat.mul_add, Nat.mul_one]
        omega

/-- All wheels at zero. -/
theorem inRange_zeros (h : ∀ n ∈ sizes, 0 < n) : InRange sizes (sizes.map fun _ => 0) := by
  induction sizes with
  | nil => exact .nil
  | cons n sizes ih =>
      have ⟨hn, hs⟩ := List.forall_mem_cons.mp h
      exact .cons hn (ih hs)

theorem value_zeros (sizes : List Nat) : value sizes (sizes.map fun _ => 0) = 0 := by
  induction sizes with
  | nil => rfl
  | cons n sizes ih =>
      rw [List.map_cons, value, ih]
      omega

theorem prod_eq_zero (h : 0 ∈ sizes) : sizes.prod = 0 := by
  induction sizes with
  | nil => cases h
  | cons n sizes ih =>
      rw [List.prod_cons]
      rcases List.mem_cons.mp h with heq | hmem
      · rw [← heq, Nat.zero_mul]
      · rw [ih hmem, Nat.mul_zero]

/-! ## Sweeps -/

section Sweep

variable {ε σ : Type} {Right : σ → Prop} {test : List Nat → Cached ε σ Bool}
  {Passes : List Nat → Bool}

/-- Whether every position from this one on passes, asking no further after one
that does not. -/
def sweep (sizes : List Nat) (test : List Nat → Cached ε σ Bool) :
    Nat → List Nat → Cached ε σ Bool
  | 0, _ => pure true
  | fuel + 1, pos => do
      if ← test pos then
        match next sizes pos with
        | none => pure true
        | some pos' => sweep sizes test fuel pos'
      else pure false

/-- With fuel for the positions left, a sweep is a test of all of them. -/
theorem sweep_yields (htest : ∀ pos, InRange sizes pos →
      Cached.Yields Right (test pos) (.ok (Passes pos))) :
    ∀ fuel pos, InRange sizes pos → sizes.prod ≤ fuel + value sizes pos →
      ∃ b, Cached.Yields Right (sweep sizes test fuel pos) (.ok b) ∧
        (b = true ↔ ∀ q, InRange sizes q → value sizes pos ≤ value sizes q → Passes q = true) := by
  intro fuel
  induction fuel with
  | zero =>
      intro pos hpos hfuel
      have hlt := value_lt hpos
      omega
  | succ fuel ih =>
      intro pos hpos hfuel
      unfold sweep
      cases hp : Passes pos with
      | false =>
          refine ⟨false, (htest pos hpos).bind ?_, ?_⟩
          · rw [hp]
            exact Cached.Yields.pure false
          · refine iff_of_false Bool.false_ne_true fun hall => ?_
            rw [hall pos hpos (Nat.le_refl _)] at hp
            cases hp
      | true =>
          cases hnext : next sizes pos with
          | none =>
              have hlast := next_of_none hpos hnext
              refine ⟨true, (htest pos hpos).bind ?_, iff_of_true rfl fun q hq hle => ?_⟩
              · rw [hp]
                exact Cached.Yields.pure true
              · have hlt := value_lt hq
                rw [← value_inj hpos hq (by omega)]
                exact hp
          | some pos' =>
              have ⟨hrange, hvalue⟩ := next_of_some hpos hnext
              obtain ⟨b, hb, hall⟩ := ih pos' hrange (by omega)
              refine ⟨b, (htest pos hpos).bind ?_, hall.trans ⟨fun h q hq hle => ?_,
                fun h q hq hle => h q hq (by omega)⟩⟩
              · rw [hp]
                exact hb
              · by_cases heq : value sizes q = value sizes pos
                · rw [value_inj hq hpos heq]
                  exact hp
                · exact h q hq (by omega)

/-- The answer of a sweep over all positions. -/
theorem sweep_zeros_yields (hsizes : ∀ n ∈ sizes, 0 < n)
    (htest : ∀ pos, InRange sizes pos → Cached.Yields Right (test pos) (.ok (Passes pos)))
    {b : Bool} (hb : b = true ↔ ∀ pos, InRange sizes pos → Passes pos = true) {fuel : Nat}
    (hfuel : sizes.prod ≤ fuel) :
    Cached.Yields Right (sweep sizes test fuel (sizes.map fun _ => 0)) (.ok b) := by
  have hzero := value_zeros sizes
  obtain ⟨b', hyields, hb'⟩ := sweep_yields htest fuel _ (inRange_zeros hsizes) (by omega)
  have heq : b' = b := by
    rw [Bool.eq_iff_iff, hb', hb]
    exact ⟨fun h q hq => h q hq (by omega), fun h q hq _ => h q hq⟩
  exact heq ▸ hyields

end Sweep

/-! ## Saturated indices -/

/-- The weight of each wheel, and so its product with its index, stops at a
bound. -/
def strides (bound : Nat) : Nat → List Nat → List Nat
  | _, [] => []
  | total, n :: sizes => total :: strides bound (min (total * n) bound) sizes

def index (bound : Nat) : Nat → List Nat → List Nat → Nat
  | acc, w :: ws, a :: pos => index bound (min (acc + min (a * w) bound) bound) ws pos
  | acc, _, _ => acc

/-- A saturated index is the number of the position, up to the bound. -/
theorem index_strides (bound : Nat) (h : InRange sizes pos) :
    ∀ acc total, index bound (min acc bound) (strides bound (min total bound) sizes) pos =
      min (acc + total * value sizes pos) bound := by
  induction h with
  | nil =>
      intro acc total
      simp [index, strides, value]
  | @cons a n pos sizes ha hpos ih =>
      intro acc total
      have hn : 0 < n := by omega
      have htotal : min (min total bound * n) bound = min (total * n) bound := by
        by_cases hle : total ≤ bound
        · rw [Nat.min_eq_left hle]
        · have h₁ : bound ≤ bound * n := Nat.le_mul_of_pos_right bound hn
          have h₂ : bound * n ≤ total * n := Nat.mul_le_mul_right n (by omega)
          rw [Nat.min_eq_right (by omega : bound ≤ total)]
          omega
      have hacc : min (min acc bound + min (a * min total bound) bound) bound =
          min (acc + a * total) bound := by
        by_cases hle : total ≤ bound
        · rw [Nat.min_eq_left hle]
          omega
        · rw [Nat.min_eq_right (by omega : bound ≤ total)]
          rcases Nat.eq_zero_or_pos a with rfl | ha₀
          · simp
          · have h₁ : bound ≤ a * bound := Nat.le_mul_of_pos_left bound ha₀
            have h₂ : a * bound ≤ a * total := Nat.mul_le_mul_left a (by omega)
            omega
      rw [strides, index, hacc, htotal, ih]
      have hnumber : acc + a * total + total * n * value sizes pos =
          acc + total * value (n :: sizes) (a :: pos) := by
        rw [value, Nat.mul_add, Nat.mul_comm a total, Nat.mul_assoc, Nat.add_assoc]
      rw [hnumber]

end Improv.Lib.Odometer

/-!
## Axes

An order cut into rows, columns and pages by two counts.
-/

namespace Improv.Lib

variable {κ : Type*}

/-- Keys in order: the first on rows, the next on columns, the rest pages. -/
@[ext] structure Axes (κ : Type*) where
  order : List κ
  nRows : Nat
  nCols : Nat
deriving DecidableEq

namespace Axes

variable (l : Axes κ)

def rows : List κ := l.order.take l.nRows

def cols : List κ := (l.order.drop l.nRows).take l.nCols

def pages : List κ := l.order.drop (l.nRows + l.nCols)

/-- The axes with these rows, columns and pages. -/
def ofParts (r k p : List κ) : Axes κ := ⟨r ++ k ++ p, r.length, k.length⟩

@[simp] theorem order_ofParts (r k p : List κ) : (ofParts r k p).order = r ++ k ++ p := rfl

@[simp] theorem rows_ofParts (r k p : List κ) : (ofParts r k p).rows = r := by
  simp [ofParts, rows]

@[simp] theorem cols_ofParts (r k p : List κ) : (ofParts r k p).cols = k := by
  simp [ofParts, cols]

@[simp] theorem pages_ofParts (r k p : List κ) : (ofParts r k p).pages = p := by
  simp [ofParts, pages]

theorem order_eq : l.order = l.rows ++ l.cols ++ l.pages := by
  unfold rows cols pages
  rw [← List.drop_drop, List.append_assoc, List.take_append_drop, List.take_append_drop]

/-- The rows and columns lie within the order, which names no key twice. -/
structure Sound (l : Axes κ) : Prop where
  nodup : l.order.Nodup
  within : l.nRows + l.nCols ≤ l.order.length

theorem within_ofParts (r k p : List κ) :
    (ofParts r k p).nRows + (ofParts r k p).nCols ≤ (ofParts r k p).order.length := by
  simp only [ofParts, List.length_append]
  omega

variable {l}

theorem length_rows (h : l.nRows + l.nCols ≤ l.order.length) : l.rows.length = l.nRows := by
  rw [rows, List.length_take]
  omega

theorem length_cols (h : l.nRows + l.nCols ≤ l.order.length) : l.cols.length = l.nCols := by
  rw [cols, List.length_take, List.length_drop]
  omega

/-- The axes are their parts. -/
theorem ofParts_self (h : l.nRows + l.nCols ≤ l.order.length) :
    ofParts l.rows l.cols l.pages = l := by
  unfold ofParts
  rw [length_rows h, length_cols h, ← order_eq]

theorem nodup_parts (h : l.Sound) : (l.rows ++ l.cols ++ l.pages).Nodup := l.order_eq ▸ h.nodup

theorem nodup_pages (h : l.Sound) : l.pages.Nodup := (List.nodup_append.mp (nodup_parts h)).2.1

/-- A key taken out of an order without repetition and put first. -/
theorem perm_cons_filter [DecidableEq κ] {order : List κ} (hnodup : order.Nodup) {c : κ}
    (hc : c ∈ order) : (c :: order.filter (· ≠ c)).Perm order := by
  have herase : order.filter (· ≠ c) = order.erase c := by
    rw [hnodup.erase_eq_filter]
    apply List.filter_congr
    intro x _
    by_cases hx : x = c <;> simp [hx]
  rw [herase]
  exact (List.perm_cons_erase hc).symm

end Axes

end Improv.Lib
