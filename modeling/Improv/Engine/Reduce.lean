import Improv.Engine.ExactSum
import Improv.Engine.Kernels
import Improv.Engine.ExactGrouping
/-!
# Reductions

What `SUM` … `XOR`, `COUNT` and `COUNTA` compute from one group's rows.  The
first nine go through the scalar functions of the same names.  The other
families' reductions are a parameter.  A sum whose digits leave 64 bits stops
the program.
-/

namespace Improv.Engine

open Lib CoreModel Kernels

/-! ## The scalar functions -/

namespace Builtins

/-- Argument `i` as a number. -/
def n (args : List CellValue) (i : Nat) : Except Nat F64 :=
  match args[i]? with
  | some (.num bits) => .ok (.ofBits bits)
  | some (.bool b) => .ok (if b then .ofNat 1 else .zero)
  | some (.date ms) => .ok (.ofInt ms)
  | _ => .error Err.VALUE

/-- Argument `i` as a truth value. -/
def b (args : List CellValue) (i : Nat) : Except Nat Bool :=
  match args[i]? with
  | some (.bool b) => .ok b
  | some (.num bits) => .ok !(F64.ofBits bits).eq .zero
  | _ => .error Err.VALUE

def isSignNegative : F64 → Bool
  | .nan => false
  | .inf s => s
  | .finite s _ _ => s

/-- The lesser of two numbers, -0.0 below 0.0. -/
def min (a x : F64) : F64 := if x.lt a || (x.eq a && isSignNegative x) then x else a

/-- The greater of two numbers, 0.0 above -0.0. -/
def max (a x : F64) : F64 := if a.lt x || (x.eq a && !isSignNegative x) then x else a

/-- `xs` summed exactly and rounded once. -/
def sum (xs : List F64) : Option F64 := do
  let acc ← xs.foldlM ExactSum.add .default
  let (e, _) ← acc.exact
  some e.value

/-- The product of nothing. -/
def emptyProduct : F64 := .ofNat 1

/-- The plain sum of nothing. -/
def emptySum : F64 := F64.zero.neg

def nums (args : List CellValue) : Except Nat (List F64) :=
  (List.range args.length).mapM (n args)

def bools (args : List CellValue) : Except Nat (List Bool) :=
  (List.range args.length).mapM (b args)

/-- The scalar twin of reduction `id`. -/
def evalCore (id : Nat) (a : List CellValue) : Option (Except Nat CellValue) :=
  match id with
  | 20 => some ((nums a).map fun v => num (v.foldl min (.inf false)))
  | 21 => some ((nums a).map fun v => num (v.foldl max (.inf true)))
  | 22 =>
    match nums a with
    | .error c => some (.error c)
    | .ok v => (sum v).map fun s => .ok (num s)
  | 23 =>
    match nums a with
    | .error c => some (.error c)
    | .ok v => (sum v).map fun s => .ok (num (s.div (.ofNat v.length)))
  | 24 => some ((nums a).map fun v => num (v.foldl F64.mul emptyProduct))
  | 25 => some ((nums a).map fun v => num ((v.map fun x => x.mul x).foldl F64.add emptySum))
  | 26 => some ((bools a).map fun v => .bool (v.all fun x => x))
  | 27 => some ((bools a).map fun v => .bool (v.any fun x => x))
  | _ => some ((bools a).map fun v => .bool (v.countP (· = true) % 2 == 1))

/-- A result or its error's code, as a value. -/
def valueOf : Except Nat CellValue → CellValue
  | .ok v => v
  | .error code => .err code

/-- A scalar function of arguments: an error argument is the result, the first
one. -/
def eval (id : Nat) (args : List CellValue) : Option CellValue :=
  match args.find? CellValue.isErr with
  | some bad => some bad
  | none => (evalCore id args).map valueOf

end Builtins

/-! ## A group's rows -/

namespace Rows

/-- The `i`-th reduced measure's values, in item order. -/
def col (rows : Rows) (i : Nat) : List CellValue := rows.vals.filterMap (·[i]?)

/-- The first error among the values, in item order. -/
def firstError (rows : Rows) : Option CellValue := rows.vals.flatten.find? CellValue.isErr

end Rows

/-- The scalar twin of `SUM` … `XOR`. -/
def twin : Nat → Nat
  | 1 => 22
  | 2 => 23
  | 3 => 20
  | 4 => 21
  | 5 => 24
  | 6 => 25
  | 7 => 26
  | 8 => 27
  | _ => 28

/-- `SUM` … `XOR`: the first error in item order, or the scalar twin. -/
def core (id : Nat) (rows : Rows) : Option CellValue :=
  match rows.firstError with
  | some bad => some bad
  | none => Builtins.eval (twin id) (rows.col 0)

/-- Whether the statistical reductions read a cell as a number. -/
def isNumber : CellValue → Bool
  | .num _ | .date _ => true
  | _ => false

/-- The other families' reductions. -/
abbrev Families := FuncId → Rows → List CellValue → Option CellValue

/-- One group: aggregation `func` over `rows` with `params`. -/
def reduce (families : Families) (func : FuncId) (rows : Rows) (params : List CellValue) :
    Option CellValue :=
  if 1200 ≤ func.id ∧ func.id ≤ 1249 then
    -- a lookup checks its own parameters
    families func rows params
  else
    match params.find? CellValue.isErr with
    | some bad => some bad
    | none =>
      if 1 ≤ func.id ∧ func.id ≤ 9 then core func.id rows
      else if func.id = 1005 then some (num (.ofNat ((rows.col 0).countP isNumber)))
      else if func.id = 1006 then some (num (.ofNat rows.vals.length))
      else families func rows params

end Improv.Engine

/-!
## What the reductions read

A reduction reads every value of its rows as a number, or as a truth value, and
is `#VALUE!` where it cannot read one.  An exact sum of terms is the compact
form of what they add up to, rounded.
-/

namespace Improv.Engine

open Lib Lib.F64 CoreModel Kernels

/-! ## Readable values -/

namespace Builtins

/-- A value as a number. -/
def number (v : CellValue) : Option F64 := (n [v] 0).toOption

/-- A value as a truth value. -/
def flag (v : CellValue) : Option Bool := (b [v] 0).toOption

theorem n_eq (args : List CellValue) (i : Nat) :
    n args i = ((args[i]?.bind number).elim (.error Err.VALUE) .ok) := by
  unfold number n
  cases args[i]? with
  | none => rfl
  | some v => cases v <;> rfl

theorem b_eq (args : List CellValue) (i : Nat) :
    b args i = ((args[i]?.bind flag).elim (.error Err.VALUE) .ok) := by
  unfold flag b
  cases args[i]? with
  | none => rfl
  | some v => cases v <;> rfl

/-- Each argument read in turn. -/
theorem mapM_range {α : Type} (f : CellValue → Option α) (args : List CellValue) :
    ((List.range args.length).mapM fun i => ((args[i]?.bind f).elim (.error Err.VALUE) .ok :
      Except Nat α)) =
      if args.all fun v => (f v).isSome then .ok (args.filterMap f) else .error Err.VALUE := by
  induction args with
  | nil => rfl
  | cons v args ih =>
      rw [List.length_cons, List.range_succ_eq_map, List.mapM_cons, List.mapM_map,
        List.getElem?_cons_zero, Option.bind_some, List.all_cons]
      have hrest : ((List.range args.length).mapM ((fun i =>
          (((v :: args)[i]?.bind f).elim (.error Err.VALUE) .ok : Except Nat α)) ∘ Nat.succ)) =
          if args.all fun v => (f v).isSome then .ok (args.filterMap f) else .error Err.VALUE := by
        rw [← ih]
        rfl
      cases hv : f v with
      | none =>
          rw [Option.isSome_none, Bool.false_and, if_neg (by decide)]
          rfl
      | some a =>
          rw [hrest, List.filterMap_cons_some hv, Option.isSome_some, Bool.true_and]
          split <;> rfl

theorem nums_eq (args : List CellValue) : nums args =
    if args.all fun v => (number v).isSome then .ok (args.filterMap number)
    else .error Err.VALUE := by
  unfold nums
  rw [← mapM_range]
  congr 1
  ext i
  exact n_eq args i

theorem bools_eq (args : List CellValue) : bools args =
    if args.all fun v => (flag v).isSome then .ok (args.filterMap flag)
    else .error Err.VALUE := by
  unfold bools
  rw [← mapM_range]
  congr 1
  ext i
  exact b_eq args i

/-- A true value. -/
def isTrue (v : CellValue) : Bool := decide (flag v = some true)

theorem length_filterMap_of_isSome {α β : Type*} {f : α → Option β} {l : List α}
    (h : ∀ x ∈ l, (f x).isSome = true) : (l.filterMap f).length = l.length := by
  induction l with
  | nil => rfl
  | cons x l ih =>
      obtain ⟨y, hy⟩ := Option.isSome_iff_exists.mp (h x List.mem_cons_self)
      rw [List.filterMap_cons_some hy, List.length_cons, List.length_cons,
        ih fun z hz => h z (List.mem_cons_of_mem x hz)]

/-- Where every value is readable as a truth value, the logical reductions are
told by how many are true. -/
theorem countP_flags {l : List CellValue} (h : ∀ v ∈ l, (flag v).isSome = true) :
    (l.filterMap flag).countP (· = true) = l.countP isTrue := by
  induction l with
  | nil => rfl
  | cons v l ih =>
      have hcount := ih fun w hw => h w (List.mem_cons_of_mem v hw)
      obtain ⟨t, ht⟩ := Option.isSome_iff_exists.mp (h v List.mem_cons_self)
      have hv : isTrue v = t := by
        unfold isTrue
        rw [ht]
        cases t <;> rfl
      rw [List.filterMap_cons_some ht, List.countP_cons, List.countP_cons, hcount, hv]
      cases t <;> rfl

theorem all_eq_countP (l : List Bool) :
    (l.all fun x => x) = decide (l.countP (· = true) = l.length) := by
  rw [Bool.eq_iff_iff, List.all_eq_true, decide_eq_true_eq, List.countP_eq_length]
  simp

theorem any_eq_countP (l : List Bool) : (l.any fun x => x) = decide (0 < l.countP (· = true)) := by
  rw [Bool.eq_iff_iff, List.any_eq_true, decide_eq_true_eq, List.countP_pos_iff]
  simp

variable {a : List CellValue} {v : List F64}

theorem evalCore_sum (h : nums a = .ok v) :
    evalCore 22 a = (sum v).map fun s => .ok (num s) := by
  unfold evalCore
  rw [h]
  rfl

theorem evalCore_average (h : nums a = .ok v) :
    evalCore 23 a = (sum v).map fun s => .ok (num (s.div (.ofNat v.length))) := by
  unfold evalCore
  rw [h]
  rfl

/-- Whether reduction `id` can read a value. -/
def readable (id : Nat) (v : CellValue) : Bool :=
  if 7 ≤ id then (flag v).isSome else (number v).isSome

/-- One value that a reduction cannot read makes it `#VALUE!`. -/
theorem evalCore_unreadable {id : Nat} (hid : 1 ≤ id ∧ id ≤ 9)
    (h : a.all (readable id) = false) : evalCore (twin id) a = some (.error Err.VALUE) := by
  by_cases h7 : 7 ≤ id
  · have hbools : bools a = .error Err.VALUE := by
      unfold readable at h
      simp only [if_pos h7] at h
      rw [bools_eq, if_neg (by rw [h]; decide)]
    obtain rfl | rfl | rfl : id = 7 ∨ id = 8 ∨ id = 9 := by omega
    all_goals
      show some ((bools a).map _) = _
      rw [hbools]
      rfl
  · have hnums : nums a = .error Err.VALUE := by
      unfold readable at h
      simp only [if_neg h7] at h
      rw [nums_eq, if_neg (by rw [h]; decide)]
    obtain rfl | rfl | rfl | rfl | rfl | rfl :
        id = 1 ∨ id = 2 ∨ id = 3 ∨ id = 4 ∨ id = 5 ∨ id = 6 := by omega
    all_goals
      unfold twin evalCore
      rw [hnums]
      rfl

/-! ## Exact sums -/

theorem foldlM_add_spec (xs : List F64) {acc : ExactSum} {s : Multiset F64}
    (h : acc.Denotes (sumUnits s) CARRY_EVERY) (hflags : acc.flags = flagsOfAll s)
    (hcard : s.card + xs.length ≤ 2 ^ 61) :
    ∃ acc', xs.foldlM ExactSum.add acc = some acc' ∧
      acc'.Denotes (sumUnits (xs + s)) CARRY_EVERY ∧ acc'.flags = flagsOfAll (xs + s) := by
  induction xs generalizing acc s with
  | nil => exact ⟨acc, rfl, by simpa using h, by simpa using hflags⟩
  | cons x xs ih =>
      rw [List.length_cons] at hcard
      have hunits : sumUnits s + unitsOf x = sumUnits (x ::ₘ s) := by
        rw [sumUnits_cons, add_comm]
      have hle : (x ::ₘ s).card ≤ 2 ^ 61 := by
        rw [Multiset.card_cons]
        omega
      obtain ⟨acc₁, hadd, hden, hflags₁⟩ := ExactSum.add_spec h
        (abs_sumUnits_le_digitRange (show s.card ≤ 2 ^ 61 by omega))
        (by rw [hunits]; exact abs_sumUnits_le_digitRange hle)
      rw [hunits] at hden
      obtain ⟨acc', hrest, hden', hflags'⟩ := @ih acc₁ (x ::ₘ s) hden
        (by rw [hflags₁, hflags, flagsOfAll_cons]) (by rw [Multiset.card_cons]; omega)
      have hsplit : ((x :: xs : List F64) : Multiset F64) + s = xs + x ::ₘ s := by
        rw [← Multiset.cons_coe, Multiset.cons_add, Multiset.add_cons]
      refine ⟨acc', ?_, by rwa [hsplit], by rwa [hsplit]⟩
      rw [List.foldlM_cons, hadd]
      exact hrest

theorem exists_expansion {xs : List F64} (hlen : xs.length ≤ 2 ^ 61) :
    ∃ d, ExactSum.Expansion d (sumUnits xs) ∧
      sum xs = some (ExactSum.compact d (flagsOfAll xs)).value := by
  obtain ⟨acc, hfold, hden, hflags⟩ := @foldlM_add_spec xs .default 0 ExactSum.denotes_default
    flagsOfAll_zero.symm (by rw [Multiset.card_zero]; omega)
  rw [add_zero] at hden hflags
  obtain ⟨d, acc', hexp, hexact, -, -⟩ := ExactSum.exact_spec hden
    (abs_sumUnits_le_digitRange (by rwa [Multiset.coe_card]))
  refine ⟨d, hexp, ?_⟩
  unfold sum
  rw [hfold, Option.bind_eq_bind, Option.bind_some, hexact, hflags]
  rfl

/-- An exact sum: the digits of what the terms add up to, rounded. -/
theorem sum_spec {xs : List F64} (hlen : xs.length ≤ 2 ^ 61) {d : List Int}
    (hd : ExactSum.Expansion d (sumUnits xs)) :
    sum xs = some (ExactSum.compact d (flagsOfAll xs)).value := by
  obtain ⟨d', hd', hsum⟩ := exists_expansion hlen
  rwa [hd'.unique hd] at hsum

/-- No sum of a group's rows stops the program. -/
theorem evalCore_isSome {id : Nat} (hid : 1 ≤ id ∧ id ≤ 9) {a : List CellValue}
    (hlen : a.length ≤ 2 ^ 61) : ∃ r, evalCore (twin id) a = some r := by
  by_cases h12 : id = 1 ∨ id = 2
  · cases hnums : nums a with
    | error c =>
        obtain rfl | rfl := h12
        all_goals
          refine ⟨.error c, ?_⟩
          unfold twin evalCore
          rw [hnums]
          rfl
    | ok v =>
        have hv : v.length ≤ 2 ^ 61 := by
          rw [nums_eq] at hnums
          split at hnums
          · cases hnums
            exact (List.length_filterMap_le _ _).trans hlen
          · cases hnums
        obtain ⟨d, -, hsum⟩ := exists_expansion hv
        obtain rfl | rfl := h12
        · exact ⟨_, (evalCore_sum hnums).trans (congrArg _ hsum)⟩
        · exact ⟨_, (evalCore_average hnums).trans (congrArg _ hsum)⟩
  · obtain rfl | rfl | rfl | rfl | rfl | rfl | rfl :
        id = 3 ∨ id = 4 ∨ id = 5 ∨ id = 6 ∨ id = 7 ∨ id = 8 ∨ id = 9 := by omega
    all_goals exact ⟨_, rfl⟩

end Builtins

/-! ## Rows of one value each -/

variable {id : Nat}

theorem flatten_map_singleton (l : List CellValue) : (l.map ([·])).flatten = l := by
  induction l with
  | nil => rfl
  | cons v l ih => rw [List.map_cons, List.flatten_cons, ih, List.singleton_append]

theorem filterMap_map_singleton (l : List CellValue) :
    (l.map ([·])).filterMap (fun r : List CellValue => r[0]?) = l := by
  induction l with
  | nil => rfl
  | cons v l ih =>
      rw [List.map_cons, List.filterMap_cons, ih]
      rfl

/-- The reduction of rows of one value each. -/
theorem core_eq {rows : Rows} {l : List CellValue} (h : rows.vals = l.map ([·])) :
    core id rows = match l.find? CellValue.isErr with
      | some bad => some bad
      | none => (Builtins.evalCore (twin id) l).map Builtins.valueOf := by
  have hflat : rows.firstError = l.find? CellValue.isErr := by
    unfold Rows.firstError
    rw [h, flatten_map_singleton]
  have hcol : rows.col 0 = l := by
    unfold Rows.col
    rw [h, filterMap_map_singleton]
  unfold core
  rw [hflat, hcol]
  cases hbad : l.find? CellValue.isErr with
  | some bad => rfl
  | none =>
      show Builtins.eval (twin id) l = _
      unfold Builtins.eval
      rw [hbad]

theorem reduce_core {families : Families} (hid : 1 ≤ id ∧ id ≤ 9) (rows : Rows) :
    reduce families ⟨id⟩ rows [] = core id rows := by
  unfold reduce
  rw [if_neg (by rintro ⟨h, -⟩; dsimp only at h; omega)]
  simp only [List.find?_nil]
  rw [if_pos hid]

end Improv.Engine
