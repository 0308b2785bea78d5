import Improv.Lib.ListLemmas
import Improv.Lib.Decimal
import Improv.PgModel.Names
/-!
# Importing the result of a query

A query's rows turned into the input cells of a measure: the dimension columns
name items, which are interned in the mapped categories, and the value column
holds the number.  A refresh runs a measure's stored query again.  Both change
the model in place, so a result comes with the model as the call leaves it;
nothing comes of a call that panics.
-/

namespace Improv.StorageSql

open Improv.Lib Improv.CoreModel Improv.PgModel

inductive SqlError
  | sqlite (text : String)
  | connect (text : String)
  | importing (text : String)
  | exporting (text : String)
deriving DecidableEq

/-! ## Query results -/

/-- A single result cell. -/
inductive SqlCell
  | null
  | int (i : Int)
  | float (f : F64)
  | text (t : String)
  | bool (b : Bool)
deriving DecidableEq

namespace SqlCell

/-- A dimension cell as text; `floatText` is how a double is shown. -/
def asText (floatText : F64 → String) : SqlCell → String
  | null => ""
  | int i => toString i
  | float f => floatText f
  | text t => t
  | bool b => if b then "true" else "false"

/-- The number of a value cell. -/
def asNumber : SqlCell → Except SqlError F64
  | int i => .ok (.ofInt i)
  | float f => .ok f
  | bool b => .ok (if b then .ofInt 1 else .zero)
  | text t =>
    match Decimal.parseF64 t with
    | some f => .ok f
    | none => .error (.importing s!"value {t.quote} is not numeric")
  | null => .error (.importing "value column is NULL")

end SqlCell

/-- A materialized query result: every row has a cell for each column. -/
structure Table where
  columns : List String
  rows : List (List SqlCell)
  full : ∀ row ∈ rows, row.length = columns.length

/-- The index of a named column. -/
def Table.columnIndex (t : Table) (name : String) : Except SqlError Nat :=
  match t.columns.findIdx? fun c => c = name with
  | some i => .ok i
  | none => .error (.importing s!"no column '{name}' in query result")

/-! ## Read-only queries -/

def trimStart (s : List Char) : List Char := s.dropWhile isWhitespace

/-- What follows a line. -/
def afterLine : List Char → List Char
  | [] => []
  | c :: s => if c = '\n' then s else afterLine s

/-- What follows a comment, if it ends. -/
def afterComment : List Char → Option (List Char)
  | '*' :: '/' :: s => some s
  | _ :: s => afterComment s
  | [] => none

/-- A text past its leading whitespace and comments; `left` bounds the comments,
each of which is two characters long at least. -/
def skipComments : (left : Nat) → List Char → Option (List Char)
  | 0, s => some s
  | left + 1, s =>
    match trimStart s with
    | '-' :: '-' :: rest => skipComments left (afterLine rest)
    | '/' :: '*' :: rest => (afterComment rest).bind (skipComments left)
    | s => some s

def reject (why : String) : Except SqlError Unit :=
  .error (.importing s!"refusing SQL query: {why}")

/-- Whether a query is a single `SELECT` or `WITH` statement. -/
def checkReadOnlySql (sql : String) : Except SqlError Unit :=
  match skipComments (sql.length + 1) sql.toList with
  | none => reject "unterminated comment"
  | some s =>
    let word := (s.takeWhile fun c => c.isAlphanum || c == '_').map Char.toLower
    if word ≠ "select".toList ∧ word ≠ "with".toList then
      reject "only a single SELECT or WITH statement is allowed"
    else if ((s.dropWhile (· ≠ ';')).drop 1).all isWhitespace then .ok ()
    else reject "multiple statements are not allowed"

/-! ## Importing -/

structure DimensionMapping where
  column : String
  categoryId : CategoryId
  categoryName : String
deriving DecidableEq

/-- How a query's result columns map onto model elements. -/
structure ImportSpec where
  query : String
  dimensions : List DimensionMapping
  valueColumn : String
  measureId : MeasureId
  measureName : String
  itemIdBase : Nat
  refreshPolicy : RefreshPolicy
deriving DecidableEq

/-- The categories of the mapped dimensions. -/
def ImportSpec.categories (spec : ImportSpec) : List CategoryId :=
  spec.dimensions.map DimensionMapping.categoryId

/-- The characters that fill the first `n` bytes, none where a character crosses
their end. -/
def takeBytes : List Char → Nat → Option (List Char)
  | _, 0 => some []
  | [], _ + 1 => none
  | c :: cs, n + 1 =>
    if c.utf8Size ≤ n + 1 then (takeBytes cs (n + 1 - c.utf8Size)).map (c :: ·) else none

/-- The first `n` bytes of a text; cutting inside a character panics. -/
def truncate (s : String) (n : Nat) : Option String :=
  if s.utf8ByteSize ≤ n then some s
  else (takeBytes s.toList n).map fun cs => String.ofList cs ++ "…"

/-- A category for each dimension, where there is none yet. -/
def ensureCategories (m : Model) (dims : List DimensionMapping) : Model :=
  dims.foldl (fun m d =>
    if m.categories.contains d.categoryId then m
    else { m with categories :=
      m.categories.insert d.categoryId ⟨d.categoryId, d.categoryName, []⟩ }) m

/-- The measure an import fills. -/
def ImportSpec.measure (spec : ImportSpec) (text : String) : Measure where
  id := spec.measureId
  name := spec.measureName
  valueType := .number
  categories := spec.categories
  kind := .input
  description := some s!"imported from SQL: {text}"
  format := none

/-- A name's item; minting the last id there is panics. -/
def intern (it : ItemInterner) (c : CategoryId) (name : String) :
    Option (ItemInterner × ItemId) :=
  if it.map.find c name = none ∧ u32Max ≤ it.nextItem then none else some (it.intern c name)

/-- A row's coordinate, its names interned in turn. -/
def internRow (floatText : F64 → String) (it : ItemInterner) (row : List SqlCell) :
    List (Nat × CategoryId) → Coordinate → Option (ItemInterner × Coordinate)
  | [], coord => some (it, coord)
  | (ci, cat) :: dims, coord =>
    match row[ci]? with
    | none => none
    | some cell =>
      match intern it cat (cell.asText floatText) with
      | none => none
      | some (it, item) => internRow floatText it row dims (coord.insert cat item)

/-- The cells of some rows, with the names interned. -/
def importRows (floatText : F64 → String) (valueColumn : String) (dims : List (Nat × CategoryId))
    (valIdx : Nat) : ItemInterner → List (List SqlCell) →
      Option (Except SqlError (ItemInterner × List (Coordinate × F64)))
  | it, [] => some (.ok (it, []))
  | it, row :: rows =>
    match internRow floatText it row dims .empty with
    | none => none
    | some (it, coord) =>
      match row[valIdx]? with
      | none => none
      | some cell =>
        match cell.asNumber with
        | .error _ => some (.error (.importing s!"value column '{valueColumn}' is not numeric"))
        | .ok value =>
          match importRows floatText valueColumn dims valIdx it rows with
          | some (.ok (it, cells)) => some (.ok (it, (coord, value) :: cells))
          | failed => failed

/-- The mapped columns, each dimension's with its category. -/
def ImportSpec.columns (spec : ImportSpec) (table : Table) :
    Except SqlError (List (Nat × CategoryId) × Nat) := do
  let dims ← spec.dimensions.mapM fun d => do
    return (← table.columnIndex d.column, d.categoryId)
  return (dims, ← table.columnIndex spec.valueColumn)

def setInput (m : Model) (measure : MeasureId) (coord : Coordinate) (v : Value) : Model :=
  { m with inputs := m.inputs.insert ⟨measure, coord⟩ v }

/-- The result of a query imported into a model as an input measure: the model
after the call with the number of cells, or the error. -/
def importQuery (floatText : F64 → String) (query : String → Except SqlError Table) (m : Model)
    (spec : ImportSpec) : Option (Model × Except SqlError Nat) :=
  match checkReadOnlySql spec.query with
  | .error e => some (m, .error e)
  | .ok () =>
    match query spec.query with
    | .error e => some (m, .error e)
    | .ok table =>
      match truncate spec.query 80 with
      | none => none
      | some text =>
        let m := (ensureCategories m spec.dimensions).addMeasure (spec.measure text)
        match spec.columns table with
        | .error e => some (m, .error e)
        | .ok (dims, valIdx) =>
          match importRows floatText spec.valueColumn dims valIdx
              (.seededFrom m spec.itemIdBase) table.rows with
          | none => none
          | some (.error e) => some (m, .error e)
          | some (.ok (it, cells)) =>
            some (cells.foldl (fun m c => setInput m spec.measureId c.1 (.number c.2))
              (it.register m), .ok cells.length)

/-! ## Refreshing -/

/-- One above the highest item id of a model; none where that overflows. -/
def nextItemId (m : Model) : Option Nat :=
  match m.items.keys.map ItemId.id with
  | [] => some 1000000
  | id :: ids => if ids.foldl max id < u32Max then some (ids.foldl max id + 1) else none

/-- The import a measure's stored source stands for. -/
def refreshSpec (m : Model) (measure : MeasureId) (source : SqlSource) (x : Measure)
    (base : Nat) : ImportSpec where
  query := source.query
  dimensions := (source.dimensionColumns.zip x.categories).map fun (col, cat) =>
    ⟨col, cat, ((m.categories.get? cat).map Category.name).getD (toString cat.id)⟩
  valueColumn := source.valueColumn
  measureId := measure
  measureName := x.name
  itemIdBase := base
  refreshPolicy := source.refreshPolicy

/-- A model without a measure and its cells. -/
def cleared (m : Model) (measure : MeasureId) : Model :=
  { m with
    inputs := m.inputs.filter fun k _ => k.measure ≠ measure
    measures := m.measures.erase measure }

/-- A measure's stored query run again, its cells replaced by the result. -/
def refreshSqlMeasure (floatText : F64 → String) (query : String → Except SqlError Table)
    (m : Model) (measure : MeasureId) : Option (Model × Except SqlError Nat) :=
  match m.sqlSources.get? measure with
  | none => some (m, .error (.importing s!"MeasureId({measure.id}) is not an SQL-backed measure"))
  | some source =>
    match m.measures.get? measure with
    | none => some (m, .error (.importing s!"no measure MeasureId({measure.id})"))
    | some x =>
      if source.dimensionColumns.length ≠ x.categories.length then
        some (m, .error (.importing
          (s!"SQL source for MeasureId({measure.id}) maps {source.dimensionColumns.length} " ++
            s!"columns but the measure has {x.categories.length} categories")))
      else
        match nextItemId m with
        | none => none
        | some base =>
          importQuery floatText query (cleared m measure) (refreshSpec m measure source x base)

end Improv.StorageSql
