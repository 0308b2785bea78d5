import Improv.CoreModel.Formula
/-!
# Reserved function ids and placeholders

A few function ids are not callable: the clauses of an aggregation and the
calls of named lambdas.  The top of the id space stands for bound variables:
the parameters of a named lambda and the accumulator and value of a fold.
-/

namespace Improv.CoreModel.Functions

/-- An aggregation's trailing `WHERE` predicate. -/
def WHERE : FuncId := ⟨990⟩

/-- An aggregation's trailing window bounds. -/
def WINDOW : FuncId := ⟨991⟩

/-- An array function's trailing result category. -/
def INTO : FuncId := ⟨992⟩

/-- An item's 1-based position along its category. -/
def POSITION : FuncId := ⟨900⟩

/-- `a - b` on unsigned integers, or nothing when it would be negative. -/
def checkedSub (a b : Nat) : Option Nat :=
  if b ≤ a then some (a - b) else none

/-- The first function id of a named lambda call. -/
def namedLambdaBase : Nat := 1000000

/-- The function id a call of the named lambda `id` is stored as. -/
def namedLambda (id : Nat) : FuncId := ⟨min (namedLambdaBase + id) u32Max⟩

/-- The named lambda a function id calls, if it is one. -/
def namedLambdaOf (f : FuncId) : Option Nat := checkedSub f.id namedLambdaBase

theorem namedLambdaOf_namedLambda {id : Nat} (h : namedLambdaBase + id ≤ u32Max) :
    namedLambdaOf (namedLambda id) = some id := by
  simp [namedLambdaOf, namedLambda, checkedSub, Nat.min_eq_left h]

/-- The highest placeholder id of a fold. -/
def lambdaSlots : Nat := u32Max - 4096

/-- The highest parameter placeholder id. -/
def lambdaParams : Nat := lambdaSlots - 2048

/-- The reference standing for parameter `i` in a named lambda's body. -/
def lambdaParam (i : Nat) : MeasureId := ⟨lambdaParams - i⟩

/-- The parameter index of a placeholder id. -/
def lambdaParamOf (id : MeasureId) : Option Nat :=
  (checkedSub lambdaParams id.id).filter (· < 256)

/-- The category standing for parameter `i` of a named lambda. -/
def lambdaCategory (i : Nat) : CategoryId := ⟨lambdaParams - i⟩

/-- The parameter index of a category placeholder. -/
def lambdaCategoryOf (c : CategoryId) : Option Nat := lambdaParamOf ⟨c.id⟩

theorem lambdaParamOf_lambdaParam {i : Nat} (h : i < 256) :
    lambdaParamOf (lambdaParam i) = some i := by
  have hle : i ≤ lambdaParams := h.le.trans (by decide)
  simp [lambdaParamOf, lambdaParam, checkedSub, Nat.sub_sub_self hle, h]

theorem lambdaCategoryOf_lambdaCategory {i : Nat} (h : i < 256) :
    lambdaCategoryOf (lambdaCategory i) = some i :=
  lambdaParamOf_lambdaParam h

/-- The placeholder for parameter `i` (0 the accumulator, 1 the value) of the
`k`-th fold in a formula. -/
def lambdaSlot (k i : Nat) : MeasureId := ⟨lambdaSlots - 2 * k - i⟩

/-- The `(k, i)` of a fold placeholder. -/
def lambdaSlotOf (id : MeasureId) : Option (Nat × Nat) :=
  ((checkedSub lambdaSlots id.id).filter (· < 2048)).map fun d => (d / 2, d % 2)

end Improv.CoreModel.Functions

/-!
## The function registry

What the parser, the compiler and the evaluators read of a built-in function:
its kind, the types of its parameters, which of them an aggregation reduces,
and the type of its result.  The development is about any registry; nothing
depends on the particular functions in it beyond what a result states.
-/

namespace Improv.CoreModel

/-- How a function is compiled. -/
inductive Kind
  | scalar
  | aggregate
  | perItem
  | array
  | lazy
deriving DecidableEq

/-- An argument's type. -/
inductive Arg
  | number
  | text
  | boolean
  | date
  | dateLike
  | any
  | category
deriving DecidableEq

/-- What a function returns. -/
inductive Ret
  | fixed (v : ValueType)
  | unify
  | arg (i : Nat)
deriving DecidableEq

/-- A function's documentation category. -/
inductive FnCategory
  | aggregation
  | logical
  | information
  | math
  | rounding
  | text
  | dateTime
  | statistical
  | financial
  | dimensional
  | engineering
deriving DecidableEq

/-- Which arguments of an aggregation are reduced. -/
inductive Over
  | at (positions : List Nat)
  | every (start step : Nat)
  | atEvery (positions : List Nat) (start step : Nat)
  | leading (min : Nat)
deriving DecidableEq

/-- Whether argument `i` is reduced. -/
def Over.contains : Over → Nat → Bool
  | .at positions, i => positions.contains i
  | .every start step, i => decide (start ≤ i) && decide (step ∣ i - start)
  | .atEvery positions start step, i =>
    positions.contains i || (decide (start ≤ i) && decide (step ∣ i - start))
  | .leading min, i => decide (i < min)

/-- One built-in function. -/
structure FnDef where
  id : FuncId
  name : String
  aliases : List String
  kind : Kind
  category : FnCategory
  params : List Arg
  required : Nat
  variadic : Bool
  ret : Ret
  overArgs : Over
deriving DecidableEq

namespace FnDef

/-- Whether `n` arguments is a valid call. -/
def accepts (d : FnDef) (n : Nat) : Bool :=
  decide (d.required ≤ n) && (d.variadic || decide (n ≤ d.params.length))

/-- The expected type of argument `i`; a variadic tail repeats the last. -/
def param (d : FnDef) (i : Nat) : Arg :=
  ((d.params[i]?).or d.params.getLast?).getD .any

/-- Whether argument `i`, as parsed, is reduced over the `OVER` categories. -/
def reduced (d : FnDef) (i : Nat) (arg : Expr) : Bool :=
  match d.overArgs with
  | .leading _ =>
    match arg with
    | .ref _ spec => !spec.overCats.isEmpty
    | _ => false
  | o => o.contains i

def typeName : Arg → String
  | .number => "number"
  | .text => "text"
  | .boolean => "boolean"
  | .date | .dateLike => "date"
  | .any => "value"
  | .category => "category"

end FnDef

/-- Whether this kind reduces over `OVER` categories. -/
def Kind.reduces : Kind → Bool
  | .aggregate | .perItem | .array => true
  | .scalar | .lazy => false

namespace FnDef

/-- `ABS(x)`-style signature for error messages. -/
def signature (d : FnDef) : String :=
  let names := d.params.mapIdx fun i a =>
    let t := typeName a
    let t := if d.kind.reduces && d.overArgs.contains i then t ++ " OVER category" else t
    if d.required ≤ i then "[" ++ t ++ "]" else t
  d.name ++ "(" ++ String.intercalate ", " names ++ (if d.variadic then ", …" else "") ++ ")"

end FnDef

/-- Every built-in function, in documentation order. -/
structure Registry where
  all : List FnDef

namespace Registry

/-- The function with id `id`. -/
def byId (r : Registry) (id : FuncId) : Option FnDef := r.all.find? fun d => d.id = id

/-- Whether `f` reduces over categories. -/
def isAggregation (r : Registry) (f : FuncId) : Bool :=
  (r.byId f).any fun d => d.kind.reduces

end Registry

end Improv.CoreModel
