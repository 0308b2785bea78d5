import Improv.Service.Plan
/-!
# What a principal may read

The structure as a principal may see it, and the visible cells of a window: the
measure's categories each restricted to the items asked for that it may see, and
every combination of them that holds a value it may see.
-/

namespace Improv.Service

open Improv.Lib Improv.CoreModel Improv.Engine

structure ItemOut where
  id : Nat
  name : String
deriving DecidableEq

structure CategoryOut where
  id : Nat
  name : String
  items : List ItemOut
deriving DecidableEq

structure MeasureOut where
  id : Nat
  name : String
  valueType : ValueType
  kind : String
  categories : List Nat
  formula : Option String
  error : Option String
  format : Option NumberFormat
  editable : Bool
deriving DecidableEq

structure LambdaOut where
  id : Nat
  name : String
  params : List String
deriving DecidableEq

/-- What a client may see of the model's structure. -/
structure StructureOut where
  version : String
  categories : List CategoryOut
  measures : List MeasureOut
  lambdas : List LambdaOut
  views : List View
deriving DecidableEq

structure CellOut where
  coord : List (Nat × Nat)
  value : WireValue
deriving DecidableEq

/-- A window's visible cells. -/
structure WindowOut where
  version : String
  measure : Nat
  cells : List CellOut
deriving DecidableEq

/-- A category's items in grid order: by id, those the model has. -/
def gridItems (m : Model) (c : CategoryId) : List ItemId :=
  ((itemsOf m c).filter m.items.contains).mergeSort (· ≤ ·)

/-- Every combination of one item per list, in row-major order. -/
def cartesian : List CategoryId → List (List ItemId) → List (List (CategoryId × ItemId))
  | c :: cs, items :: rest =>
    items.flatMap fun i => (cartesian cs rest).map fun coord => (c, i) :: coord
  | _, _ => [[]]

/-- The pairs of a coordinate in order, as a key. -/
def sortedKey (coord : List (CategoryId × ItemId)) : CoordKey :=
  ((coord.map fun p => toLex (p.1.id, p.2.id)).mergeSort (· ≤ ·)).map ofLex

namespace Authority

variable {S E : Type} (env : Env S E)

def measureOut (g : Gate) (m : Model) (id : MeasureId) (x : Measure) : MeasureOut :=
  let shown := g.seesFormula id
  let filled := m.sqlSources.contains id || m.externalCalls.contains id
  let formula :=
    match x.kind with
    | .derived f => if shown then some f else none
    | .input => none
  { id := id.id
    name := x.name
    valueType := x.valueType
    kind := if x.isDerived then "derived" else "input"
    categories := x.categories.map CategoryId.id
    formula := formula.map (env.formulas.formulaText m)
    error := formula.bind (env.formulas.compileFormula m id)
    format := x.format
    editable := !x.isDerived && !filled }

/-- What a principal may see of the structure. -/
def readStructure (who : Principal) (a : Authority S E) : StructureOut :=
  let g := gate env who a
  let m := a.model
  { version := a.version
    categories := m.categories.entries.map fun p =>
      { id := p.2.id.id
        name := p.2.name
        items := ((gridItems m p.2.id).filter g.seesItem).map fun i =>
          ⟨i.id, (m.items.get? i).elim "" Item.name⟩ }
    measures := (m.measures.entries.filter fun p => g.seesMeasure p.1).map fun p =>
      measureOut env g m p.1 p.2
    lambdas := m.lambdas.entries.map fun p => ⟨p.1, p.2.name, p.2.params⟩
    views := m.views.values.filterMap (visibleView g) }

/-- The items of a measure's category a window may show: those asked for, or
all, in id order. -/
def windowItems (g : Gate) (m : Model) (w : WindowReq) (c : CategoryId) : List ItemId :=
  let all := itemsOf m c
  let want :=
    match w.items.get? c.id with
    | some ids => (ids.map ItemId.mk).filter (· ∈ all)
    | none => all
  (want.dedup.mergeSort (· ≤ ·)).filter g.seesItem

/-- A measure's cell as it is shown: an input's own, a derived one's from the
snapshot. -/
def shownValue (a : Authority S E) (mid : MeasureId) (x : Measure) (key : CoordKey) :
    Option WireValue :=
  if x.isDerived then ((a.snapshot mid).lookup key).map (WireValue.ofCell env.chrono)
  else (a.model.inputs.get? ⟨mid, decodeCoord key⟩).map (WireValue.fromValue env.chrono)

/-- The visible cells of a measure at the items a window names. -/
def window (who : Principal) (id : Nat) (w : WindowReq) (a : Authority S E) :
    Except Refusal WindowOut :=
  let g := gate env who a
  let mid : MeasureId := ⟨id⟩
  match a.model.measures.get? mid with
  | none => .error (.notFound "measure" id)
  | some x =>
    if !g.seesMeasure mid then .error (.notFound "measure" id)
    else
      let lists := x.categories.map (windowItems g a.model w)
      let n := (lists.map List.length).prod
      if maxWindow < n then
        .error (.bad s!"a window of {n} cells; ask for at most {maxWindow}")
      else
        let cells := (cartesian x.categories lists).filterMap fun coord =>
          let key := sortedKey coord
          if g.seesCell mid (decodeCoord key) then
            (shownValue env a mid x key).map fun value => ⟨key, value⟩
          else none
        .ok ⟨a.version, id, cells⟩

end Authority

end Improv.Service
