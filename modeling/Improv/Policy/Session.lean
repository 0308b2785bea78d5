import Improv.Service.Policy
/-!
# Policy sessions

One principal's view of one model under one policy version.  A session keeps
what it needs of the model's structure, and answers by the composite rules:
every action needs the model opened, and a cell its measure and each of its
items readable.  The policy engine's own answer to a question about a resource
it could build is a parameter.
-/

namespace Improv.Policy

open Improv.Lib Improv.CoreModel Improv.Service

/-- A measure: whether it is an input, its categories, and what it reads. -/
structure MeasureShape where
  input : Bool
  categories : List CategoryId
  reads : List MeasureId
deriving DecidableEq

/-- What a session needs of the model's structure. -/
structure Structure where
  measures : SortedMap MeasureId MeasureShape
  items : SortedMap ItemId CategoryId
  categories : SortedMap CategoryId Unit
  views : SortedMap ViewId MeasureId
deriving DecidableEq

/-- Ids sorted, each once. -/
def sortedIds (ids : List MeasureId) : List MeasureId :=
  (SortedMap.ofList (ids.map fun m => (m, ()))).keys

def shapeOf (m : Measure) : MeasureShape where
  input := m.isInput
  categories := m.categories
  reads :=
    match m.kind with
    | .input => []
    | .derived f => sortedIds f.referencedMeasures

namespace Structure

/-- The structure of a model; of a view, the primary matrix's measure. -/
def of (model : Model) : Structure where
  measures := model.measures.map fun _ m => shapeOf m
  items := model.items.map fun _ i => i.category
  categories := model.categories.map fun _ _ => ()
  views := model.views.map fun _ v => v.primary.measure

variable (s : Structure)

/-- The coordinate's items in the measure's category order, after checking that
it names one item of each of the measure's categories. -/
def cellItems (m : MeasureId) (coord : Coordinate) : Except String (List ItemId) :=
  match s.measures.get? m with
  | none => .error s!"no measure {m.id}"
  | some x =>
    let fits := coord.size = x.categories.length ∧
      x.categories.all fun c => (coord.get? c).any fun i => s.items.get? i = some c
    if fits then .ok (x.categories.filterMap coord.get?)
    else .error
      s!"the coordinate does not name one item of each category of measure {m.id}"

def isOk {α : Type} (x : Except String α) : Bool :=
  match x with
  | .ok _ => true
  | .error _ => false

/-- The resource is in the model. -/
def holds : Resource → Bool
  | .model => true
  | .category c => s.categories.contains c
  | .item i => s.items.contains i
  | .measure m => s.measures.contains m
  | .view v => s.views.contains v
  | .cell m coord => isOk (s.cellItems m coord)

/-- The item's entity and its category's can be built. -/
def slicesItem (i : ItemId) : Bool :=
  (s.items.get? i).any s.categories.contains

/-- The entities a question about the resource needs can be built. -/
def slices : Resource → Bool
  | .model => true
  | .category c => s.categories.contains c
  | .item i => s.slicesItem i
  | .measure m => s.measures.contains m
  | .view v => (s.views.get? v).any s.measures.contains
  | .cell m coord =>
    match s.cellItems m coord with
    | .ok items => items.all s.slicesItem
    | .error _ => false

end Structure

/-- A session: the structure, and where the model has policies what they answer
its principal. -/
structure Session where
  shape : Structure
  answers : Option (Action → Resource → Bool)

namespace Session

variable (s : Session)

/-- One raw question, false for a resource not in the model. -/
def decide (action : Action) (r : Resource) : Bool :=
  match s.answers with
  | none => true
  | some ask => s.shape.slices r && ask action r

/-- What the resource needs to be seen before the action itself. -/
def needs : Action → Resource → Except String (List (Action × Resource))
  | .readCell, .cell m coord | .editCell, .cell m coord => do
    let items ← s.shape.cellItems m coord
    return (.readMeasure, .measure m) :: items.map (fun i => (.readItem, .item i)) ++
      [(.readCell, .cell m coord)]
  | .defineMeasure, .measure m => .ok [(.readMeasure, .measure m)]
  | .editStructure, .item i => .ok [(.readItem, .item i)]
  | .manageViews, .view v =>
    match s.shape.views.get? v with
    | none => .error s!"no view {v.id}"
    | some m => .ok [(.readMeasure, .measure m)]
  | _, _ => .ok []

/-- The questions `allowed` asks, in order: the model first, then what the
resource needs to be seen, then the action itself. -/
def steps (action : Action) (r : Resource) : Except String (List (Action × Resource)) := do
  let steps := (.viewModel, .model) :: (← s.needs action r)
  return if (action, r) ∈ steps then steps else steps ++ [(action, r)]

def isInput (r : Resource) : Bool :=
  match r with
  | .cell m _ => (s.shape.measures.get? m).any MeasureShape.input
  | _ => false

/-- Whether the principal may do `action` on `r`, by the composite rules. -/
def allowed (action : Action) (r : Resource) : Bool :=
  match s.answers with
  | none => s.shape.holds r
  | some _ =>
    if action = .editCell && !s.isInput r then false
    else
      match s.steps action r with
      | .ok steps => steps.all fun p => s.decide p.1 p.2
      | .error _ => false

/-- A measure's name, type and dimensions may be shown. -/
def measureVisible (m : MeasureId) : Bool := s.allowed .readMeasure (.measure m)

/-- An item's name may be shown. -/
def itemVisible (i : ItemId) : Bool := s.allowed .readItem (.item i)

end Session

end Improv.Policy
