import Improv.Lib.Odometer
import Improv.Policy.Session
/-!
# The filter of the result tables

Row-level security on a restricted model's result tables.  The reference asks
the session about each row's cell.  The filter asks once per statement for a
rule, and only where the rule cannot tell about the rows: through a table of
decisions by classes of items, which one session keeps, as it keeps its own
decisions by class.
-/

namespace Improv.Policy

open Improv.Lib Improv.CoreModel Improv.Service

/-! ## Decisions by class -/

/-- Decisions are equal within a class: a cell's depends on its measure and on
those of its items some policy names, an item's on its category unless a policy
names it. -/
inductive Class
  | model
  | category (c : CategoryId)
  | item (c : CategoryId) (named : Option ItemId)
  | measure (m : MeasureId)
  | view (v : ViewId)
  | cell (m : MeasureId) (named : List ItemId)
deriving DecidableEq

/-- Per dimension of a measure, the names of the items a role may not read. -/
abbrev HideLists := List (List String)

/-- A row check of one measure's result table: each dimension's item names to
(decision class, item), and a decision per combination of classes. -/
structure Rows where
  measure : MeasureId
  cats : List CategoryId
  dims : List (SortedMap String (Nat × ItemId))
  /-- A class's weight in a combination's index, saturated. -/
  strides : List Nat
  /-- Per combination: not asked yet, hidden or shown. -/
  decided : List (Option Bool)
  /-- A category of the measure has no item the role may read. -/
  noRow : Bool
deriving DecidableEq

/-- What a session keeps between questions. -/
structure Caches where
  decisions : List ((Action × Class) × Bool)
  rows : SortedMap MeasureId Rows
  fast : SortedMap MeasureId (Option HideLists)
deriving DecidableEq

def Caches.empty : Caches := ⟨[], .empty, .empty⟩

inductive Panic
  | indexOutOfRange
deriving DecidableEq

/-- A question to a session, which may panic. -/
abbrev Ask := Cached Panic Caches

/-- One role's session over one model. -/
structure Restricted where
  session : Session
  /-- The items some policy names. -/
  named : List ItemId
  model : Model

/-- The most class combinations a row check keeps a decision for. -/
def dense : Nat := 65536

/-- The most combinations asked to prove that no row can be shown. -/
def prove : Nat := 1024

/-- The most hidden names per dimension the filter compares a row with. -/
def slots : Nat := 2

/-- The largest index, where arithmetic saturates. -/
def u64Max : Nat := 2 ^ 64 - 1

namespace Restricted

variable (r : Restricted)

def ownClass (i : ItemId) : Option ItemId := if i ∈ r.named then some i else none

def classOf : Resource → Option Class
  | .model => some .model
  | .category c => some (.category c)
  | .item i => (r.session.shape.items.get? i).map fun c => .item c (r.ownClass i)
  | .measure m => some (.measure m)
  | .view v => some (.view v)
  | .cell m coord => some (.cell m (coord.values.filter (· ∈ r.named)))

/-- One raw question, cached.  False for a resource not in the model. -/
def decide (action : Action) (resource : Resource) : Ask Bool := do
  if r.session.answers.isNone then return true
  match r.classOf resource with
  | none => return false
  | some c =>
      match (← get).decisions.lookup (action, c) with
      | some d => return d
      | none =>
          let allow := r.session.decide action resource
          modify fun s => { s with decisions := ((action, c), allow) :: s.decisions }
          return allow

/-- The cached decisions of some questions, up to the first that denies; none
where one is not cached. -/
def cachedAll (decisions : List ((Action × Class) × Bool)) :
    List (Action × Class) → Option Bool
  | [] => some true
  | q :: qs =>
      match decisions.lookup q with
      | none => none
      | some false => some false
      | some true => cachedAll decisions qs

/-- The classes the cell rule asks about. -/
def cellClasses (action : Action) (m : MeasureId) (items : List ItemId) :
    List (Action × Class) :=
  let named := items.filter (· ∈ r.named)
  (.viewModel, .model) :: (.readMeasure, .measure m) ::
    (items.map fun i => (.readItem,
      .item ((r.session.shape.items.get? i).getD ⟨0⟩) (r.ownClass i))) ++
    (.readCell, .cell m named) ::
    if action = .editCell then [(.editCell, .cell m named)] else []

/-- The cell rule from the cache alone. -/
def cellCached (action : Action) (m : MeasureId) (coord : Coordinate) : Ask (Option Bool) := do
  match r.session.shape.cellItems m coord with
  | .error _ => return none
  | .ok items => return cachedAll (← get).decisions (r.cellClasses action m items)

/-- The cached answer to a question about a cell. -/
def hit : Action → Resource → Ask (Option Bool)
  | .readCell, .cell m coord => r.cellCached .readCell m coord
  | .editCell, .cell m coord => r.cellCached .editCell m coord
  | _, _ => return none

/-- Whether the principal may do `action` on `resource`, by the composite
rules. -/
def allowed (action : Action) (resource : Resource) : Ask Bool := do
  if r.session.answers.isNone then return r.session.shape.holds resource
  if action = .editCell && !r.session.isInput resource then return false
  match ← r.hit action resource with
  | some d => return d
  | none =>
      match r.session.steps action resource with
      | .ok steps => steps.allM fun p => r.decide p.1 p.2
      | .error _ => return false

def measureVisible (m : MeasureId) : Ask Bool := r.allowed .readMeasure (.measure m)

def itemVisible (i : ItemId) : Ask Bool := r.allowed .readItem (.item i)

/-- Whether a cell's value may be shown. -/
def cellVisible (m : MeasureId) (coord : Coordinate) : Ask Bool := do
  if r.session.answers.isNone then r.allowed .readCell (.cell m coord)
  else
    match ← r.cellCached .readCell m coord with
    | some d => return d
    | none => r.allowed .readCell (.cell m coord)

/-! ## A row check -/

/-- A category's items, by id. -/
def itemsOf (c : CategoryId) : List Item := r.model.items.values.filter (·.category = c)

/-- A category's items that some policy names. -/
def namedOf (c : CategoryId) : List Item := (r.itemsOf c).filter (·.id ∈ r.named)

/-- The items no policy names first, in one class; each of the others in its
own. -/
def classed (c : CategoryId) : List (String × (Nat × ItemId)) :=
  ((r.itemsOf c).filter (·.id ∉ r.named)).map (fun i => (i.name, (0, i.id))) ++
    ((r.namedOf c).zipIdx 1).map fun p => (p.1.name, (p.2, p.1.id))

def newRows (m : MeasureId) : Ask (Option Rows) := do
  match r.model.measures.get? m with
  | none => return none
  | some measure =>
      let cats := measure.categories
      let radices := cats.map fun c => (r.namedOf c).length + 1
      let noRow ← cats.anyM fun c => do
        let shown ← (r.classed c).anyM fun p => r.itemVisible p.2.2
        return !shown
      let total := radices.foldl (fun total n => min (total * n) u64Max) 1
      return some {
        measure := m
        cats
        dims := cats.map fun c => SortedMap.ofList (r.classed c)
        strides := Odometer.strides u64Max 1 radices
        decided := List.replicate (min total dense) none
        noRow }

/-- The row check of a measure's result table, kept from its first use. -/
def rows (m : MeasureId) : Ask (Option Rows) := do
  match (← get).rows.get? m with
  | some rows => return some rows
  | none =>
      match ← r.newRows m with
      | none => return none
      | some rows =>
          modify fun s => { s with rows := s.rows.insert m rows }
          return some rows

end Restricted

/-- The class and item of each of a row's names, if the model has them all. -/
def Rows.find (rows : Rows) (key : List String) : Option (List (Nat × ItemId)) :=
  (rows.dims.zip key).mapM fun p => p.1.get? p.2

/-- The coordinate of some items, in the measure's category order. -/
def Rows.coord (rows : Rows) (items : List ItemId) : Coordinate :=
  Coordinate.fromPairs (rows.cats.zip items)

/-- The decision of a combination, where one is kept. -/
def Rows.slot (rows : Rows) (found : List (Nat × ItemId)) : Nat :=
  Odometer.index u64Max 0 rows.strides (found.map (·.1))

/-- A dimension's items by class: of each the least. -/
def byClass (found : List (Nat × ItemId)) : SortedMap Nat ItemId :=
  found.foldl (fun by_ p => by_.insert p.1 ((by_.get? p.1).elim p.2 (min · p.2))) .empty

/-- One item of each decision class, per dimension; none past `prove`
combinations. -/
def Rows.representatives (rows : Rows) : Option (List (List ItemId)) :=
  let reps := rows.dims.map fun names => (byClass names.values).values
  let total := reps.foldl (fun total is => min (total * is.length) u64Max) 1
  if total ≤ prove then some reps else none

/-- The items at a position of the representatives. -/
def pick (reps : List (List ItemId)) (pos : List Nat) : Ask (List ItemId) :=
  (reps.zip pos).mapM fun p =>
    match p.1[p.2]? with
    | some i => pure i
    | none => throw .indexOutOfRange

/-- Whether a test passes for every combination of representatives. -/
def everyCombination (reps : List (List ItemId)) (test : List ItemId → Ask Bool) : Ask Bool :=
  let sizes := reps.map List.length
  Odometer.sweep sizes (fun pos => pick reps pos >>= test) (sizes.prod + 1) (sizes.map fun _ => 0)

namespace Restricted

variable (r : Restricted)

/-- Whether a row is shown, as the session decides its cell: false for a name
the model lacks, and for a row of another width. -/
def visible (rows : Rows) (key : List String) : Ask Bool := do
  if key.length ≠ rows.dims.length then return false
  match rows.find key with
  | none => return false
  | some found =>
      match rows.decided[rows.slot found]? with
      | some (some d) => return d
      | _ =>
          -- The first row of its combination.
          let shown ← r.cellVisible rows.measure (rows.coord (found.map (·.2)))
          modify fun s => { s with
            rows := s.rows.map fun m kept =>
              if m = rows.measure then
                { kept with decided := kept.decided.set (rows.slot found) (some shown) }
              else kept }
          return shown

/-- Whether no row of the table can be shown; false where it cannot tell. -/
def noneShown (rows : Rows) : Ask Bool := do
  if rows.noRow then return true
  if !(← r.allowed .viewModel .model) then return true
  if !(← r.measureVisible rows.measure) then return true
  match rows.representatives with
  | none => return false
  | some reps =>
      everyCombination reps fun items => do
        return !(← r.cellVisible rows.measure (rows.coord items))

/-- The names of the first hidden ones of some items, as many as asked for. -/
def hiddenNames : Nat → List Item → Ask (List String)
  | 0, _ => return []
  | _, [] => return []
  | n + 1, i :: items => do
      if ← r.itemVisible i.id then hiddenNames (n + 1) items
      else return i.name :: (← hiddenNames n items)

/-- Each dimension's hidden names, none where one has too many. -/
def listsOf : List (CategoryId × SortedMap String (Nat × ItemId)) → Ask (Option HideLists)
  | [] => return some []
  | (c, names) :: dims => do
      let hidden ← r.hiddenNames (slots + 1)
        ((r.itemsOf c).filter fun i => names.contains i.name)
      if hidden.length > slots then return none
      match ← listsOf dims with
      | none => return none
      | some lists => return some (hidden.mergeSort :: lists)

/-- When a row is shown exactly when each of its items is readable: the names
of those the role may not read. -/
def hideLists (rows : Rows) : Ask (Option HideLists) := do
  if !(← r.allowed .viewModel .model) then return none
  if !(← r.measureVisible rows.measure) then return none
  match rows.representatives with
  | none => return none
  | some reps =>
      let same ← everyCombination reps fun items => do
        let each ← items.allM r.itemVisible
        let shown ← r.cellVisible rows.measure (rows.coord items)
        return shown == each
      if !same then return none
      r.listsOf (rows.cats.zip rows.dims)

/-- A measure's hide lists, from its row check. -/
def newFast (m : MeasureId) : Ask (Option HideLists) := do
  match ← r.rows m with
  | none => return none
  | some rows => r.hideLists rows

/-- A measure's hide lists, kept per session. -/
def fast (m : MeasureId) : Ask (Option HideLists) := do
  match (← get).fast.get? m with
  | some f => return f
  | none =>
      let f ← r.newFast m
      modify fun s => { s with fast := s.fast.insert m f }
      return f

/-- The coordinate of a result row. -/
def coord (m : MeasureId) (key : List String) : Option Coordinate := do
  let measure ← r.model.measures.get? m
  if measure.categories.length ≠ key.length then none
  let items ← (measure.categories.zip key).mapM fun p =>
    (SortedMap.ofList ((r.itemsOf p.1).map fun i => (i.name, i.id))).get? p.2
  return Coordinate.fromPairs (measure.categories.zip items)

end Restricted

/-! ## The filter -/

/-- How a role may act on a model. -/
inductive Acting
  | owner
  | notOwner
  | policy (r : Restricted)
  | closed

/-- Whether the role may read the cell of a result row: the reference. -/
def cellVisible (a : Acting) (m : MeasureId) (key : List String) : Ask Bool := do
  match a with
  | .owner => return true
  | .notOwner => return true
  | .closed => return false
  | .policy r =>
      match r.coord m key with
      | some coord => r.cellVisible m coord
      | none => return false

/-- The rule of a statement: 0 shows every row, 1 none, 2 those that name no
hidden item, and 3 asks about each.  `clean` says that the rows name only the
session's items. -/
def cellRule (a : Acting) (clean : Bool) (m : MeasureId) : Ask Nat := do
  match a with
  | .owner => return 0
  | .notOwner => return 0
  | .closed => return 1
  | .policy r =>
      match ← r.rows m with
      | none => return 1
      | some rows =>
          if ← r.noneShown rows then return 1
          match ← r.fast m with
          | some lists =>
              if clean then return if lists.all List.isEmpty then 0 else 2
              return 3
          | none => return 3

/-- A hidden name of a dimension, none past the last. -/
def cellName (a : Acting) (m : MeasureId) (dim slot : Int) : Ask (Option String) := do
  match a with
  | .policy r =>
      match ← r.fast m with
      | none => return none
      | some lists => return do
          let d ← dim.toNat?
          let k ← slot.toNat?
          (← lists[d]?)[k]?
  | _ => return none

/-- The per-row half of the filter. -/
def rowVisible (a : Acting) (m : MeasureId) (key : List String) : Ask Bool := do
  match a with
  | .owner => return true
  | .notOwner => return true
  | .closed => return false
  | .policy r =>
      match ← r.rows m with
      | some rows => r.visible rows key
      | none => return false

/-- The row names no hidden item: none of the slots of its columns holds the
column's name. -/
def slotsPass (a : Acting) (m : MeasureId) (key : List String) : Ask Bool :=
  key.zipIdx.allM fun p => (List.range slots).allM fun (j : Nat) => do
    return (← cellName a m p.2 j) != some p.1

/-- The qual of a result table, for one row. -/
def qual (a : Acting) (clean : Bool) (m : MeasureId) (key : List String) : Ask Bool := do
  let rule ← cellRule a clean m
  if rule = 0 then return true
  if key.isEmpty then
    if rule = 3 then cellVisible a m key else return false
  else if rule = 2 then slotsPass a m key
  else if rule = 3 then rowVisible a m key
  else return false

end Improv.Policy
