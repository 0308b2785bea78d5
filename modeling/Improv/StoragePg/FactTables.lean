import Improv.CoreModel.Model
/-!
# Bound cells

The part of a Postgres save that writes bound measures' cells to their fact
tables: values only, each guarded by the value loaded, all or nothing.  A row of
a fact table is its dimension texts, its value and its other columns; the table
of a binding is its own.
-/

namespace Improv.StoragePg

open Improv.Lib Improv.CoreModel

inductive StoreError
  /-- The model was changed by another writer since it was loaded. -/
  | modelChanged
  /-- A bound cell was changed in the database since it was loaded. -/
  | cellChanged (measure : String) (names : List String)
  /-- An error value cannot be stored as an input. -/
  | errorValue (e : ValueError)
  /-- A cell of a measure lacks an item of a dimension column. -/
  | lacksItem (measure : MeasureId) (col : String)
  /-- An aggregated measure is read-only. -/
  | readOnly (measure : String)
  /-- A table has two rows for one coordinate of a measure. -/
  | twoRows (measure : MeasureId)
  /-- A stored value is not of the measure's type. -/
  | notValue (v : Value)
  | noItem (name : String)
  | pg (text : String)
deriving DecidableEq

/-- The save answers that something changed since the load. -/
def StoreError.isConflict : StoreError → Bool
  | .modelChanged => true
  | .cellChanged _ _ => true
  | _ => false

/-! ## Values -/

/-- `==` on values: on numbers that of doubles. -/
def same : Value → Value → Bool
  | .number a, .number b => a.eq b
  | a, b => decide (a = b)

/-- `IS NOT DISTINCT FROM`, and `==` of values that may be absent. -/
def sameOpt : Option Value → Option Value → Bool
  | none, none => true
  | some a, some b => same a b
  | _, _ => false

/-- A value as its column holds it.  JSON has no number that is not finite, so
such a one is NULL, and an integral one is an integer, so a zero has no sign. -/
def valueToJson : Value → Except StoreError (Option Value)
  | .number n =>
      match n with
      | .finite s u h => .ok (some (.number (.finite (if u = 0 then false else s) u h)))
      | _ => .ok none
  | .error e => .error (.errorValue e)
  | v => .ok (some v)

/-- The JSON of a value that may be absent. -/
def json : Option Value → Except StoreError (Option Value)
  | none => .ok none
  | some v => valueToJson v

/-- A column's value as a cell's. -/
def jsonToValue (v : Value) : Except StoreError Value :=
  match v with
  | .number n => if n.isFinite then .ok v else .error (.notValue v)
  | .error _ => .error (.notValue v)
  | v => .ok v

/-! ## Tables -/

/-- A row of a fact table. -/
structure FactRow (O : Type) where
  dims : List (Option String)
  value : Option Value
  other : O
deriving DecidableEq

/-- A measure bound to a fact table, with one dimension column for each of some
categories. -/
structure Binding where
  measure : MeasureId
  dims : List (CategoryId × String)
  agg : Option String
  nodup : (dims.map (·.1)).Nodup
deriving DecidableEq

/-- What a handle last loaded or saved. -/
structure Snapshot where
  /-- Bound input cells, as read from their fact tables. -/
  bound : SortedMap Cell Value
  /-- Item names, to address a removed bound cell whose item is gone. -/
  names : SortedMap ItemId String
deriving DecidableEq

variable {O : Type}

/-- The row is at these dimension texts. -/
def FactRow.isAt (names : List String) (r : FactRow O) : Bool := r.dims = names.map some

/-! ## Loading -/

/-- The cell of a row, by its names' items: none for a row without a value or
with a NULL dimension. -/
def readRow (itemOf : CategoryId → String → Option ItemId) (b : Binding) (r : FactRow O) :
    Except StoreError (Option (Cell × Value)) :=
  match r.value, r.dims.mapM id with
  | some v, some names => do
      let v ← jsonToValue v
      let items ← (b.dims.zip names).mapM fun p =>
        match itemOf p.1.1 p.2 with
        | some i => .ok (p.1.1, i)
        | none => .error (.noItem p.2)
      return some (⟨b.measure, Coordinate.fromPairs items⟩, v)
  | _, _ => .ok none

/-- A binding's cells, as read from its fact table: one row for a coordinate. -/
def loadBound (itemOf : CategoryId → String → Option ItemId) (b : Binding)
    (rows : List (FactRow O)) : Except StoreError (SortedMap Cell Value) :=
  rows.foldlM (fun inputs r => do
    match ← readRow itemOf b r with
    | none => return inputs
    | some (cell, v) =>
        if inputs.contains cell then throw (.twoRows b.measure)
        return inputs.insert cell v) .empty

/-! ## What is written -/

/-- The cells of a binding to write: its coordinate, the value now and the value
as loaded. -/
def diff (model : Model) (b : Binding) (base : Option Snapshot) (only : Option (List Cell)) :
    List (Coordinate × Option Value × Option Value) :=
  let old k := base.bind fun s => s.bound.get? k
  match only with
  | some keys =>
      (keys.filter fun k => k.measure = b.measure &&
        (base.isNone || !sameOpt (model.inputs.get? k) (old k))).map fun k =>
          (k.coord, model.inputs.get? k, old k)
  | none =>
      ((model.inputs.entries.filter fun p => p.1.measure = b.measure &&
        (base.isNone || !sameOpt (old p.1) (some p.2))).map fun p =>
          (p.1.coord, some p.2, old p.1)) ++
      match base with
      | none => []
      | some s =>
          (s.bound.entries.filter fun p => p.1.measure = b.measure &&
            !model.inputs.contains p.1).map fun p => (p.1.coord, none, some p.2)

/-- An item's name, as last loaded or saved where the model lacks it. -/
def itemName (model : Model) (base : Option Snapshot) (i : ItemId) : Option String :=
  match model.items.get? i with
  | some x => some x.name
  | none => base.bind fun s => s.names.get? i

/-- The names of a cell's items, by dimension column. -/
def address (b : Binding) (name : ItemId → Option String) (coord : Coordinate) :
    Except StoreError (List String) :=
  b.dims.mapM fun d =>
    match (coord.get? d.1).bind name with
    | some n => .ok n
    | none => .error (.lacksItem b.measure d.2)

/-- A cell to write: where it stands, the value now and the one loaded, each as
the model has it and as its column would hold it. -/
structure Written where
  coord : Coordinate
  names : List String
  new : Option Value
  old : Option Value
  n : Option Value
  o : Option Value
deriving DecidableEq

/-- The cells of a binding to write, where it may be written. -/
def written (model : Model) (b : Binding) (base : Option Snapshot) (only : Option (List Cell)) :
    Except StoreError (List Written) :=
  match model.measures.get? b.measure with
  -- Deleting a measure must not wipe its column.
  | none => .ok []
  | some measure =>
      if b.agg.isSome && base.isNone then .ok []
      else
        let cells := diff model b base only
        if cells.isEmpty then .ok []
        else if b.agg.isSome then .error (.readOnly measure.name)
        else cells.mapM fun c => do
          let names ← address b (itemName model base) c.1
          let n ← json c.2.1
          let o ← json (base.bind fun _ => c.2.2)
          return ⟨c.1, names, c.2.1, c.2.2, n, o⟩

/-! ## The statements -/

section Statements

variable (checked : Bool) (cells : List Written)

/-- The `UPDATE` of a cell matches the row: with a snapshot it holds the loaded
value, without one another value than the new one. -/
def guards (w : Written) (r : FactRow O) : Bool :=
  r.isAt w.names && if checked then sameOpt r.value w.o else !sameOpt r.value w.n

/-- The cell a row is updated by. -/
def updater (r : FactRow O) : Option Written := cells.find? fun w => guards checked w r

def updateRow (r : FactRow O) : FactRow O :=
  match updater checked cells r with
  | some w => { r with value := w.n }
  | none => r

/-- The rows each cell's `UPDATE` matched. -/
def hits (rows : List (FactRow O)) (w : Written) : Nat :=
  rows.countP fun r => updater checked cells r = some w

/-- Added cells the `UPDATE` missed. -/
def added (rows : List (FactRow O)) : List Written :=
  cells.filter fun w =>
    hits checked cells rows w = 0 && w.new.isSome && (!checked || w.old.isNone)

/-- The rows of added cells where no row has their dimensions. -/
def insertRows (defaults : O) (rows : List (FactRow O)) : List (FactRow O) :=
  ((added checked cells rows).filter fun w =>
      !(rows.map (updateRow checked cells)).any (FactRow.isAt w.names)).map
    fun w => ⟨w.names.map some, w.n, defaults⟩

/-- Added cells whose row already existed. -/
def taken (rows : List (FactRow O)) (w : Written) : Bool :=
  w ∈ added checked cells rows && (rows.map (updateRow checked cells)).any (FactRow.isAt w.names)

/-- A cell whose guard matched no row or several. -/
def lost (rows : List (FactRow O)) : Option Written :=
  cells.find? fun w =>
    decide (1 < hits checked cells rows w) ||
      (hits checked cells rows w = 0 && (w.old.isSome || taken checked cells rows w))

/-- The table after both statements. -/
def writeRows (defaults : O) (rows : List (FactRow O)) : List (FactRow O) :=
  rows.map (updateRow checked cells) ++ insertRows checked cells defaults rows

end Statements

/-- A binding's input cells written to its fact table. -/
def writeBound (model : Model) (base : Option Snapshot) (only : Option (List Cell)) (defaults : O)
    (b : Binding) (rows : List (FactRow O)) : Except StoreError (List (FactRow O)) := do
  let cells ← written model b base only
  let measure := ((model.measures.get? b.measure).map Measure.name).getD ""
  if base.isNone then return writeRows false cells defaults rows
  match lost true cells rows with
  | some w => throw (.cellChanged measure w.names)
  | none => return writeRows true cells defaults rows

/-! ## A save -/

/-- The version that every save counts up, and the fact table of each bound
measure. -/
structure Database (O : Type) where
  tx : Nat
  tables : MeasureId → List (FactRow O)

/-- The fact tables, one binding after the other. -/
def writeTables (model : Model) (base : Option Snapshot) (only : Option (List Cell))
    (defaults : O) : List Binding → (MeasureId → List (FactRow O)) →
    Except StoreError (MeasureId → List (FactRow O))
  | [], tables => .ok tables
  | b :: bs, tables => do
      let rows ← writeBound model base only defaults b (tables b.measure)
      writeTables model base only defaults bs (Function.update tables b.measure rows)

/-- The bindings a save writes. -/
def boundOf (only : Option (List Cell)) (bindings : List Binding) : List Binding :=
  match only with
  | none => bindings
  | some keys => bindings.filter fun b => keys.any (·.measure = b.measure)

/-- The named cells, each once. -/
def cellSet (cells : List Cell) : List Cell := (SortedMap.ofList (cells.map fun k => (k, ()))).keys

/-- One transaction.  The catalog's statements and those of the unbound cells
answer as they may, and write no fact table. -/
def save (db : Database O) (model : Model) (base : Option Snapshot) (loadedTx : Option Nat)
    (bindings : List Binding) (only : Option (List Cell)) (defaults : O)
    (catalog unbound : Except String Unit) : Except StoreError (Database O) := do
  if loadedTx.any (· ≠ db.tx) then throw .modelChanged
  catalog.mapError .pg
  let only := only.map cellSet
  let tables ← writeTables model base only defaults (boundOf only bindings) db.tables
  unbound.mapError .pg
  return ⟨db.tx + 1, tables⟩

/-- The database after a save: as it was where the save fails. -/
def afterSave (db : Database O) (result : Except StoreError (Database O)) : Database O :=
  match result with
  | .ok saved => saved
  | .error _ => db

end Improv.StoragePg
