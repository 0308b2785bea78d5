import Mathlib.Data.String.Basic
import Improv.Lib.SortedMap
import Improv.CoreModel.Lambdas
/-!
# The model

The whole model: its categories and items, its measures, the input cells, and
what is kept beside them (sources, views, external functions, scenarios,
lambdas).  A hash map of the source is a map with ordered keys, so two models
are equal exactly when every key looks up the same.
-/

namespace Improv.CoreModel

open Improv.Lib

structure ViewId where
  id : Nat
deriving DecidableEq

instance : LinearOrder ViewId :=
  LinearOrder.lift' ViewId.id fun a b h => by cases a; cases b; simp_all

structure ScenarioId where
  id : Nat
deriving DecidableEq

instance : LinearOrder ScenarioId :=
  LinearOrder.lift' ScenarioId.id fun a b h => by cases a; cases b; simp_all

/-- A dimension of the model. -/
structure Category where
  id : CategoryId
  name : String
  items : List ItemId
deriving DecidableEq

/-- A member of a category. -/
structure Item where
  id : ItemId
  category : CategoryId
  name : String
deriving DecidableEq

/-- One cell of a measure's tensor: an item of each category. -/
abbrev Coordinate := SortedMap CategoryId ItemId

/-- The coordinate of some pairs, a later pair of a category winning. -/
def Coordinate.fromPairs (pairs : List (CategoryId × ItemId)) : Coordinate :=
  SortedMap.ofList pairs

/-- A cell: a measure and a coordinate. -/
structure Cell where
  measure : MeasureId
  coord : Coordinate
deriving DecidableEq

instance : LinearOrder Cell :=
  LinearOrder.lift' (fun c => toLex (c.measure, c.coord)) fun a b h => by
    cases a; cases b; simp_all

structure Formula where
  expr : Expr
deriving DecidableEq

def Formula.referencedMeasures (f : Formula) : List MeasureId := f.expr.referencedMeasures

/-- A measure is either raw input data or derived from a formula. -/
inductive MeasureKind
  | input
  | derived (f : Formula)
deriving DecidableEq

/-- How a number measure's cells are shown. -/
structure NumberFormat where
  decimals : Option Nat
  grouping : Bool
deriving DecidableEq

/-- A named variable over some categories. -/
structure Measure where
  id : MeasureId
  name : String
  valueType : ValueType
  categories : List CategoryId
  kind : MeasureKind
  description : Option String
  format : Option NumberFormat
deriving DecidableEq

namespace Measure

def isInput (m : Measure) : Bool :=
  match m.kind with
  | .input => true
  | .derived _ => false

def isDerived (m : Measure) : Bool :=
  match m.kind with
  | .input => false
  | .derived _ => true

end Measure

/-! ## Views -/

/-- A rectangle on a view's canvas: its four single-precision numbers, as
bits. -/
structure CanvasRect where
  x : UInt32
  y : UInt32
  w : UInt32
  h : UInt32
deriving DecidableEq

/-- A category's items to keep in a view. -/
structure Filter where
  category : CategoryId
  items : List ItemId
deriving DecidableEq

/-- One matrix on a view's canvas. -/
structure MatrixPlacement where
  measure : MeasureId
  axisOrder : List CategoryId
  nRows : Nat
  nCols : Nat
  pageItems : List (CategoryId × ItemId)
  filters : List Filter
  rect : CanvasRect
deriving DecidableEq

/-- A saved canvas layout: the primary matrix, which the source keeps in flat
fields, and the other placements. -/
structure View where
  id : ViewId
  name : String
  primary : MatrixPlacement
  placements : List MatrixPlacement
deriving DecidableEq

namespace View

def fromMatrices (id : ViewId) (name : String) (primary : MatrixPlacement)
    (extras : List MatrixPlacement) : View :=
  ⟨id, name, primary, extras⟩

/-- Every matrix of the canvas, primary first. -/
def matrices (v : View) : List MatrixPlacement := v.primary :: v.placements

end View

/-! ## Sources and scenarios -/

/-- When a measure filled from outside is refreshed. -/
inductive RefreshPolicy
  | manual
  | onLoad
  | interval (secs : Nat)
deriving DecidableEq

/-- The query that fills a measure. -/
structure SqlSource where
  query : String
  dimensionColumns : List String
  valueColumn : String
  refreshPolicy : RefreshPolicy
deriving DecidableEq

/-- The language an external function is written in. -/
inductive Language
  | python
  | r
  | julia
  | wasm
  | pure
deriving DecidableEq

/-- An external function's definition. -/
structure ExternalFn where
  name : String
  language : Language
  body : String
  argTypes : List ValueType
  returnType : ValueType
  pure : Bool
deriving DecidableEq

/-- The external call that fills a measure. -/
structure ExternalCall where
  func : String
  argMeasures : List MeasureId
  refreshPolicy : RefreshPolicy
deriving DecidableEq

/-- A named overlay of input cells. -/
structure Scenario where
  id : ScenarioId
  name : String
  overrides : SortedMap Cell Value
deriving DecidableEq

/-! ## The model -/

structure Model where
  categories : SortedMap CategoryId Category
  items : SortedMap ItemId Item
  measures : SortedMap MeasureId Measure
  inputs : SortedMap Cell Value
  sqlSources : SortedMap MeasureId SqlSource
  views : SortedMap ViewId View
  externalFns : SortedMap String ExternalFn
  externalCalls : SortedMap MeasureId ExternalCall
  scenarios : SortedMap ScenarioId Scenario
  lambdas : Lambdas
deriving DecidableEq

namespace Model

def new : Model where
  categories := .empty
  items := .empty
  measures := .empty
  inputs := .empty
  sqlSources := .empty
  views := .empty
  externalFns := .empty
  externalCalls := .empty
  scenarios := .empty
  lambdas := .empty

/-- The first measure of a name. -/
def measureByName (m : Model) (name : String) : Option Measure :=
  m.measures.values.find? fun x => x.name = name

def categoryByName (m : Model) (name : String) : Option Category :=
  m.categories.values.find? fun x => x.name = name

def viewByName (m : Model) (name : String) : Option View :=
  m.views.values.find? fun x => x.name = name

/-- The first named lambda whose name is `name` up to ASCII case. -/
def lambdaByName (m : Model) (name : String) : Option (Nat × NamedLambda) :=
  m.lambdas.entries.find? fun p =>
    p.2.name.map Char.toLower = name.map Char.toLower

def addCategory (m : Model) (id : CategoryId) (name : String) : Model :=
  { m with categories := m.categories.insert id ⟨id, name, []⟩ }

/-- An item added or replaced, appended to its category's list where it is not
there yet. -/
def addItem (m : Model) (id : ItemId) (category : CategoryId) (name : String) : Model :=
  let old := m.items.get? id
  { m with
    items := m.items.insert id ⟨id, category, name⟩
    categories :=
      match m.categories.get? category with
      | some c =>
        if old = none ∨ id ∉ c.items then
          m.categories.insert category { c with items := c.items ++ [id] }
        else m.categories
      | none => m.categories }

def addMeasure (m : Model) (x : Measure) : Model :=
  { m with measures := m.measures.insert x.id x }

def addView (m : Model) (v : View) : Model :=
  { m with views := m.views.insert v.id v }

/-- The model without its cells. -/
def structureOf (m : Model) : Model := { m with inputs := .empty }

@[simp] theorem inputs_structureOf (m : Model) : m.structureOf.inputs = .empty := rfl

@[simp] theorem structureOf_structureOf (m : Model) :
    m.structureOf.structureOf = m.structureOf := rfl

/-- A model is its structure and its cells. -/
theorem structureOf_with_inputs (m : Model) : { m.structureOf with inputs := m.inputs } = m := rfl

end Model

end Improv.CoreModel
