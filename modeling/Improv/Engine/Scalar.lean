import Improv.Engine.Plan
import Improv.Engine.Kernels
/-!
# The scalar evaluator

One formula, one value per input, no dimensions: the engine's meaning of a cell
without the dataflow around it.
-/

namespace Improv.Engine.Scalar

open Improv.Lib Improv.CoreModel

/-- Why a formula cannot be evaluated as a scalar. -/
inductive ScalarError
  | needsDimensions (what : String)
  | unknownFunction (f : FuncId)
  | arity (func : FuncId) (want : String) (got : Nat)
deriving DecidableEq

/-- The inputs' values; a measure without one is missing. -/
abbrev Env := MeasureId → Option CellValue

variable (R : Registry) (K : Kernels)

/-- Rejects what a scalar evaluation cannot do, before evaluating anything. -/
def check : Expr → Except ScalarError Unit
  | .literal _ => .ok ()
  | .category _ => .error (.needsDimensions "a category argument")
  | .ref _ spec =>
    if spec = .default then .ok ()
    else .error (.needsDimensions "a dimension projection (BY/OVER/EXCEPT)")
  | .unaryOp _ a => check a
  | .binaryOp _ a b => do
    check a
    check b
  | .call func args =>
    if R.isAggregation func then
      .error (.needsDimensions "an aggregation (SUM(x OVER …))")
    else
      match R.byId func with
      | none => .error (.unknownFunction func)
      | some d =>
        if d.category = .dimensional then
          .error (.needsDimensions s!"{d.name} (it reads a category)")
        else if !d.accepts args.length then
          .error (.arity func d.signature args.length)
        else checkAll args
where
  checkAll : List Expr → Except ScalarError Unit
    | [] => .ok ()
    | a :: as => do
      check a
      checkAll as

/-- Every argument's value, or nothing when one is missing. -/
def allSome {α : Type*} : List (Option α) → Option (List α)
  | [] => some []
  | x :: xs => do
    let x ← x
    let xs ← allSome xs
    some (x :: xs)

theorem allSome_map_eq_some_iff {α β : Type*} {f : α → Option β} {xs : List α} {ys : List β} :
    allSome (xs.map f) = some ys ↔ List.Forall₂ (fun x y => f x = some y) xs ys := by
  induction xs generalizing ys with
  | nil => simp [allSome, eq_comm]
  | cons x xs ih =>
      simp only [List.map_cons, allSome, Option.bind_eq_bind, Option.bind_eq_some_iff,
        Option.some.injEq, List.forall₂_cons_left_iff, ← ih]
      constructor
      · intro h
        obtain ⟨y, hy, zs, hzs, rfl⟩ := h
        exact ⟨y, zs, hy, hzs, rfl⟩
      · intro h
        obtain ⟨y, zs, hy, hzs, rfl⟩ := h
        exact ⟨y, hy, zs, hzs, rfl⟩

/-- The value of a checked expression, with `fuel` bounding how deep the
evaluation goes. -/
def evalFuel (env : Env) : (fuel : Nat) → Expr → Option CellValue
  | 0, _ => none
  | _ + 1, .literal v => some (.fromModelValue v)
  | _ + 1, .category _ => none
  | _ + 1, .ref m _ => env m
  | n + 1, .unaryOp op a => (evalFuel env n a).map (Kernels.applyUnary op)
  | n + 1, .binaryOp op a b => do
    let a ← evalFuel env n a
    let b ← evalFuel env n b
    some (K.applyBinary op a b)
  | n + 1, .call func args =>
    if func = Lazy.IF then
      match args with
      | test :: branch :: rest =>
        -- Only the selected branch counts; no else-branch means no value.
        match evalFuel env n test with
        | some (.bool true) => evalFuel env n branch
        | some (.bool false) => rest.head?.bind (evalFuel env n)
        | other => other
      | _ => none
    else if func = Lazy.COALESCE then args.findSome? (evalFuel env n)
    else if (R.byId func).any fun d => d.kind = .lazy then
      match desugarLazy func args with
      | .ok e => evalFuel env n e
      | .error _ => none
    else (allSome (args.map (evalFuel env n))).map (K.eval func)

/-- How deep the evaluation of an expression can go: a lazy call evaluates its
nested-`IF` form. -/
def weight : Expr → Nat
  | .literal _ | .category _ | .ref .. => 1
  | .unaryOp _ a => 1 + weight a
  | .binaryOp _ a b => 1 + max (weight a) (weight b)
  | .call _ args => 4 * (args.length + 1) + deepest args
where
  deepest : List Expr → Nat
    | [] => 0
    | a :: as => max (weight a) (deepest as)

/-- The value of an expression whose inputs' values are `env`. -/
def eval (env : Env) (e : Expr) : Except ScalarError (Option CellValue) := do
  check R e
  return evalFuel R K env (weight e) e

end Improv.Engine.Scalar
