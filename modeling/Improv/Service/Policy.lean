import Improv.CoreModel.Model
/-!
# Access decisions

The one place an access decision is made: a policy gives a principal's access
over a model's structure, and a gate asks it for every measure, item and cell
the authority touches.
-/

namespace Improv.Service

open Improv.Lib Improv.CoreModel

inductive Action
  | viewModel
  | readMeasure
  | readItem
  | readCell
  | editCell
  | defineMeasure
  | editStructure
  | manageViews
  | admin
deriving DecidableEq

/-- What an action is on. -/
inductive Resource
  | model
  | category (c : CategoryId)
  | item (i : ItemId)
  | measure (m : MeasureId)
  | view (v : ViewId)
  | cell (m : MeasureId) (coord : Coordinate)
deriving DecidableEq

/-- Who asks. -/
structure Principal where
  user : String
  roles : List String
deriving DecidableEq

/-- One principal's decisions over one model structure. -/
structure Access where
  allowed : Action → Resource → Bool
  /-- Whether anything is restricted; when false every check is skipped. -/
  restricted : Bool

/-- Where decisions for a principal come from.  They are over the model's
structure, named by a number that changes with it: its cells do not count. -/
structure Policy where
  session : Model → Nat → Principal → Access
  session_structureOf : ∀ m v who, session m.structureOf v who = session m v who

/-- No policy: everyone may do everything. -/
def openAccess : Access := ⟨fun _ _ => true, false⟩

def openPolicy : Policy := ⟨fun _ _ _ => openAccess, fun _ _ _ => rfl⟩

/-- An access over a model, with the questions the authority asks. -/
structure Gate where
  access : Access
  model : Model

namespace Gate

variable (g : Gate)

def isOpen : Bool := !g.access.restricted

def allows (action : Action) (what : Resource) : Bool :=
  g.isOpen || g.access.allowed action what

/-- Opening the model at all. -/
def seesModel : Bool := g.allows .viewModel .model

def seesMeasure (m : MeasureId) : Bool :=
  g.model.measures.contains m && g.allows .readMeasure (.measure m)

def seesItem (i : ItemId) : Bool :=
  g.model.items.contains i && g.allows .readItem (.item i)

/-- A cell may be shown. -/
def seesCell (m : MeasureId) (coord : Coordinate) : Bool :=
  g.isOpen || g.access.allowed .readCell (.cell m coord)

/-- An input cell may be set or cleared. -/
def editsCell (m : MeasureId) (coord : Coordinate) : Bool :=
  (g.model.measures.get? m).any Measure.isInput &&
    (g.isOpen || g.access.allowed .editCell (.cell m coord))

/-- A formula may be shown: its measure and every measure it reads are
readable. -/
def seesFormula (m : MeasureId) : Bool :=
  match g.model.measures.get? m with
  | none => false
  | some x =>
    let reads :=
      match x.kind with
      | .derived f => f.referencedMeasures
      | .input => []
    g.seesMeasure m && reads.all g.seesMeasure

end Gate

end Improv.Service
