import Mathlib.Data.List.Dedup
import Mathlib.Data.List.Sort
import Improv.CoreModel.Functions
import Improv.Engine.CellValue
/-!
# Operator plans

The lowered, dimension-explicit form of a formula that maps onto dataflow
operators: every node carries its value type and the categories it ranges over.
-/

namespace Improv.Engine

open Improv.Lib Improv.CoreModel

/-- The categories an expression is indexed by, sorted and without
duplicates. -/
structure Dim where
  categories : List CategoryId
  sorted : categories.Pairwise (· < ·)
deriving DecidableEq

namespace Dim

def scalar : Dim := ⟨[], .nil⟩

/-- The dimension of some categories, in canonical form. -/
def of (categories : List CategoryId) : Dim :=
  ⟨categories.dedup.insertionSort (· ≤ ·), by
    have hnodup : (categories.dedup.insertionSort (· ≤ ·)).Nodup :=
      (List.perm_insertionSort (· ≤ ·) _).nodup_iff.mpr (List.nodup_dedup _)
    exact (List.pairwise_insertionSort (· ≤ ·) categories.dedup).imp₂
      (fun _ _ hle hne => lt_of_le_of_ne hle hne) hnodup⟩

def isScalar (d : Dim) : Bool := d.categories.isEmpty

/-- Whether `d` broadcasts into `e`. -/
def isSubsetOf (d e : Dim) : Bool := d.categories.all fun c => e.categories.contains c

def union (d e : Dim) : Dim := of (d.categories ++ e.categories)

@[simp] theorem mem_of {categories : List CategoryId} {c : CategoryId} :
    c ∈ (of categories).categories ↔ c ∈ categories := by
  simp [of]

@[simp] theorem mem_union {d e : Dim} {c : CategoryId} :
    c ∈ (d.union e).categories ↔ c ∈ d.categories ∨ c ∈ e.categories := by
  simp [union]

end Dim

/-- A value type with its dimension. -/
structure TypeInfo where
  valueType : ValueType
  dim : Dim
deriving DecidableEq

/-- A window bound, relative to this item. -/
inductive Bound
  | first
  | last
  | offset (by_ : Int)
deriving DecidableEq

/-- A reduction per item over a window of items. -/
abbrev Window := Bound × Bound

/-- A category's items in their order. -/
abbrev ItemOrder := List (CategoryId × List ItemId)

/-- A renaming's maps: from category, to category, and each item's target. -/
abbrev Remaps := List (CategoryId × CategoryId × List (ItemId × ItemId))

/-- One self-reference of a recurrence: its placeholder, how many items back it
reads, and its default. -/
structure Slot where
  id : MeasureId
  back : Int
  default : Option Expr
deriving DecidableEq

/-- An operator plan. -/
inductive PlanNode
  | inputMeasure (m : MeasureId) (ty : TypeInfo)
  | literal (v : Value) (ty : TypeInfo)
  | mapUnary (op : UnaryOp) (a : PlanNode) (ty : TypeInfo)
  | mapBinary (op : BinaryOp) (left right : PlanNode) (ty : TypeInfo)
  | join (left right : PlanNode) (joinKeys : List CategoryId) (ty : TypeInfo)
  | aggregate (inputs params : List PlanNode) (pred : Option PlanNode)
      (groupBy : List CategoryId) (func : FuncId) (order : ItemOrder)
      (window : Option Window) (perItem : Bool) (into : ItemOrder) (flat : Bool)
      (ty : TypeInfo)
  | items (cat : CategoryId) (vals : List (ItemId × Value)) (ty : TypeInfo)
  | recurrence (body : Expr) (refIds : List MeasureId) (refs : List PlanNode)
      (slots : List Slot) (cat : CategoryId) (order : List ItemId) (ty : TypeInfo)
  | coalesce (args : List PlanNode) (grid : Option ItemOrder) (ty : TypeInfo)
  | remap (input : PlanNode) (maps : Remaps) (ty : TypeInfo)
  | shift (input : PlanNode) (cat : CategoryId) (offset : Int) (order : List ItemId)
      (default : Option PlanNode) (ty : TypeInfo)
  | funcCall (func : FuncId) (args : List PlanNode) (ty : TypeInfo)
  | fixpoint (init body : Expr) (maxIter : Nat) (tolerance : F64) (ty : TypeInfo)
  | cond (test branch : PlanNode) (otherwise : Option PlanNode) (spanning : Option Nat)
      (ty : TypeInfo)

namespace PlanNode

def ty : PlanNode → TypeInfo
  | .inputMeasure _ ty | .literal _ ty | .mapUnary _ _ ty | .mapBinary _ _ _ ty
  | .join _ _ _ ty | .aggregate _ _ _ _ _ _ _ _ _ _ ty | .items _ _ ty
  | .recurrence _ _ _ _ _ _ ty | .coalesce _ _ ty | .remap _ _ ty | .shift _ _ _ _ _ ty
  | .funcCall _ _ ty | .fixpoint _ _ _ _ ty | .cond _ _ _ _ ty => ty

/-- The categories a node ranges over. -/
def cats (p : PlanNode) : List CategoryId := p.ty.dim.categories

end PlanNode

end Improv.Engine

/-!
## The lazy functions as nested `IF`s

`IF` is the primitive lazy function; `IFS`, `SWITCH`, `CHOOSE` and the error
and zero tests are rewritten into nested `IF`s, once for the compiler and for
the scalar evaluator.
-/

namespace Improv.Engine

open Improv.Lib Improv.CoreModel

/-- Why a formula does not compile.  A call the registry's arity check keeps
away from the code is a panic. -/
inductive CompileError
  | unknownMeasure (m : MeasureId)
  | unknownFunction (f : FuncId)
  | typeMismatch (text : String)
  | dimensionMismatch (text : String)
  | unsupported (text : String)
  | panicked
deriving DecidableEq

namespace Lazy

def IF : FuncId := ⟨30⟩

def IFS : FuncId := ⟨31⟩

def SWITCH : FuncId := ⟨32⟩

def CHOOSE : FuncId := ⟨33⟩

def IFERROR : FuncId := ⟨34⟩

def IFNA : FuncId := ⟨35⟩

def CLEARERROR : FuncId := ⟨36⟩

def CLEARZERO : FuncId := ⟨37⟩

def COALESCE : FuncId := ⟨41⟩

def FILL : FuncId := ⟨919⟩

end Lazy

namespace Desugar

def na : Expr := .call ⟨53⟩ []

def valueError : Expr := .call ⟨54⟩ [.literal (.text "#VALUE!")]

def ifThen (c a : Expr) (b : Option Expr) : Expr :=
  .call Lazy.IF (c :: a :: b.toList)

def isError (e : Expr) : Expr := .call ⟨50⟩ [e]

def isNa (e : Expr) : Expr := .call ⟨52⟩ [e]

def equals (a b : Expr) : Expr := .binaryOp .eq a b

/-- `IFS(t1, v1, …)`: the first value whose test holds, else `NA()`. -/
def ifs : List Expr → Option Expr
  | [] => some na
  | [_] => none
  | t :: v :: rest => (ifs rest).map fun acc => ifThen t v (some acc)

/-- `SWITCH` on `e`: the result of the first match, else the default. -/
def switch (e : Expr) : List Expr → Expr
  | [] => na
  | [default] => default
  | m :: r :: rest => ifThen (equals e m) r (some (switch e rest))

/-- `CHOOSE` by the whole part of `i`: value `k`, `k + 1`, …, else an error. -/
def choose (i : Expr) (k : Nat) : List Expr → Expr
  | [] => valueError
  | v :: rest =>
    ifThen (equals (.call ⟨204⟩ [i]) (.literal (.number (.ofNat (k + 1))))) v
      (some (choose i (k + 1) rest))

/-- `v` cleared or replaced where `test` holds. -/
def clear (test v : Expr) (alternative : Option Expr) : Expr :=
  match alternative with
  | some a => ifThen test a (some v)
  | none => ifThen (.unaryOp .not test) v none

end Desugar

/-- The nested-`IF` form of a lazy call other than `IF` itself. -/
def desugarLazy (id : FuncId) (args : List Expr) : Except CompileError Expr :=
  match id.id, args with
  | 31, args =>
    match Desugar.ifs args with
    | some e => .ok e
    | none => .error (.unsupported "IFS takes test/value pairs")
  | 32, e :: rest => .ok (Desugar.switch e rest)
  | 33, i :: vals => .ok (Desugar.choose i 0 vals)
  | 34, v :: a :: _ => .ok (Desugar.ifThen (Desugar.isError v) a (some v))
  | 35, v :: a :: _ => .ok (Desugar.ifThen (Desugar.isNa v) a (some v))
  | 36, v :: rest => .ok (Desugar.clear (Desugar.isError v) v rest.head?)
  | 37, v :: rest =>
    .ok (Desugar.clear (Desugar.equals v (.literal (.number .zero))) v rest.head?)
  | 32, [] | 33, [] | 34, _ | 35, _ | 36, [] | 37, [] => .error .panicked
  | _, _ => .error (.unknownFunction id)

end Improv.Engine
