import Improv.Lib.ExceptLemmas
import Improv.Lib.SortedMap
import Improv.CoreModel.Functions
/-!
# Named lambdas

A model's named lambdas and the expansion of their calls: the arguments are
expanded first, then bound to the parameters of the body, and the body's own
calls are expanded one level deeper.  The level guard of the source is the
counter of levels left, which starts two above the number of lambdas.
-/

namespace Improv.CoreModel

open Improv.Lib Functions

/-- A function the user defined by name. -/
structure NamedLambda where
  name : String
  params : List String
  body : Expr
deriving DecidableEq

/-- The named lambdas of a model, by id. -/
abbrev Lambdas := SortedMap Nat NamedLambda

/-! ## Binding parameters -/

/-- A category of a body: a placeholder stands for the argument's category. -/
def paramCategory (args : List Expr) (c : CategoryId) : Except String CategoryId :=
  match lambdaCategoryOf c with
  | none => .ok c
  | some i =>
    match args[i]? with
    | some (.category a) => .ok a
    | _ => .error s!"argument {i + 1} must be a category"

def paramCategories (args : List Expr) : List CategoryId → Except String (List CategoryId)
  | [] => .ok []
  | c :: cs => do
    let c ← paramCategory args c
    let cs ← paramCategories args cs
    .ok (c :: cs)

def paramSpec (args : List Expr) (spec : DimensionSpec) : Except String DimensionSpec := do
  let byCats ← paramCategories args spec.byCats
  let overCats ← paramCategories args spec.overCats
  let exceptCats ← paramCategories args spec.exceptCats
  .ok ⟨byCats, overCats, exceptCats⟩

/-- Each part of the body's projection, or the argument's where it is empty. -/
def DimensionSpec.orElse (spec inner : DimensionSpec) : DimensionSpec where
  byCats := if spec.byCats.isEmpty then inner.byCats else spec.byCats
  overCats := if spec.overCats.isEmpty then inner.overCats else spec.overCats
  exceptCats := if spec.exceptCats.isEmpty then inner.exceptCats else spec.exceptCats

/-- A reference with its projection already bound: a bare parameter is its
argument; a projected one is the argument's measure under that projection. -/
def bindRef (args : List Expr) (id : MeasureId) (spec : DimensionSpec) :
    Except String Expr :=
  match (lambdaParamOf id).bind fun i => args[i]?.map (i, ·) with
  | none => .ok (.ref id spec)
  | some (i, a) =>
    if spec = .default then .ok a
    else
      match a with
      | .ref m inner => .ok (.ref m (spec.orElse inner))
      | _ => .error
          s!"argument {i + 1} is reduced over a category, so it must be a measure"

/-- `body` with parameter `i` replaced by `args[i]`, all at once. -/
def substituteParams (args : List Expr) : (body : Expr) → Except String Expr
  | .ref id spec => do bindRef args id (← paramSpec args spec)
  | .category c => do return .category (← paramCategory args c)
  | .call f as => do return .call f (← substituteAll as)
  | .unaryOp op a => do return .unaryOp op (← substituteParams args a)
  | .binaryOp op a b => do
    let a ← substituteParams args a
    let b ← substituteParams args b
    return .binaryOp op a b
  | .literal v => .ok (.literal v)
where
  substituteAll : List Expr → Except String (List Expr)
    | [] => .ok []
    | a :: as => do
      let a ← substituteParams args a
      let as ← substituteAll as
      .ok (a :: as)

/-! ## Expanding calls -/

/-- One level of the expansion; `next` expands what a call expands to. -/
def expandHere (lambdas : Lambdas) (next : Expr → Except String Expr) :
    Expr → Except String Expr
  | .call f args => do
    let args ← expandArgs args
    match namedLambdaOf f with
    | none => .ok (.call f args)
    | some id =>
      match lambdas.get? id with
      | none => .error s!"named LAMBDA {id} does not exist"
      | some l =>
        if l.params.length ≠ args.length then
          .error s!"{l.name} takes {l.params.length} argument(s), got {args.length}"
        else do
          let body ← (substituteParams args l.body).mapError fun e => s!"{l.name}: {e}"
          (body.checkDepth Expr.maxStoredFormulaDepth).mapError fun e => s!"{l.name}: {e}"
          next body
  | .unaryOp op a => do return .unaryOp op (← expandHere lambdas next a)
  | .binaryOp op a b => do
    let a ← expandHere lambdas next a
    let b ← expandHere lambdas next b
    return .binaryOp op a b
  | .literal v => .ok (.literal v)
  | .ref m spec => .ok (.ref m spec)
  | .category c => .ok (.category c)
where
  expandArgs : List Expr → Except String (List Expr)
    | [] => .ok []
    | a :: as => do
      let a ← expandHere lambdas next a
      let as ← expandArgs as
      .ok (a :: as)

/-- The expansion with `left` levels to go before the cycle guard. -/
def expandAt (lambdas : Lambdas) : (left : Nat) → Expr → Except String Expr
  | 0, _ => .error "named LAMBDAs call each other in a cycle"
  | left + 1, e => expandHere lambdas (expandAt lambdas left) e

/-- `e` with every named-lambda call replaced by the lambda's body, its
parameters bound to the call's arguments. -/
def expandLambdas (lambdas : Lambdas) (e : Expr) : Except String Expr := do
  let e ← expandAt lambdas (lambdas.size + 2) e
  e.checkDepth Expr.maxStoredFormulaDepth
  return e

end Improv.CoreModel
