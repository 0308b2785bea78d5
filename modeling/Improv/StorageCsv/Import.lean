import Improv.StorageSql.Interning
import Improv.Engine.CellValue
/-!
# Importing a CSV file

The records of a CSV or TSV file turned into the input cells of a measure: the
dimension columns name items, which are interned in the mapped categories, and
the value column holds the value.  The file is what the CSV reader makes of it,
a header and the records in turn, each of which it may fail to read.  Nothing is
written before every record is read.
-/

namespace Improv.StorageCsv

open Improv.Lib Improv.CoreModel Improv.PgModel
open Improv.StorageSql (Named intern ensureCategories setInput)

inductive CsvError
  | io (text : String)
  | csv (text : String)
  | row (row : Nat) (message : String)
  | other (text : String)
deriving DecidableEq

/-! ## Files -/

/-- A record as the reader returns it: where it starts, if known, and its
fields. -/
structure StringRecord where
  line : Option Nat
  fields : List String
deriving DecidableEq

/-- A file as it is read: its header, and its records up to the end. -/
structure Reader where
  headers : Except CsvError (List String)
  records : List (Except CsvError StringRecord)

/-- A column by its name in the header or by its place. -/
inductive ColumnRef
  | name (name : String)
  | index (i : Nat)
deriving DecidableEq

/-- The place of a column. -/
def resolveCol (headers : Option (List String)) : ColumnRef → Except CsvError Nat
  | .index i => .ok i
  | .name name =>
    match headers with
    | none => .error (.other s!"column '{name}' needs a header row (has_header is false)")
    | some h =>
      match h.findIdx? fun c => c = name with
      | some i => .ok i
      | none => .error (.other s!"no column named '{name}' in header")

/-! ## Specifications -/

/-- A column that becomes a category. -/
structure DimensionMapping where
  column : ColumnRef
  categoryId : CategoryId
  categoryName : String
deriving DecidableEq

/-- A mapping as the data source's bookkeeping reads it: the id and the name. -/
def DimensionMapping.source (d : DimensionMapping) : StorageSql.DimensionMapping :=
  ⟨d.categoryName, d.categoryId, d.categoryName⟩

/-- How a file's columns map onto model elements. -/
structure ImportSpec where
  path : String
  hasHeader : Bool
  measureId : MeasureId
  measureName : String
  valueType : ValueType
  valueColumn : ColumnRef
  dimensions : List DimensionMapping
  itemIdBase : Nat
  maxRecords : Option Nat
deriving DecidableEq

def defaultMaxRecords : Nat := 10000000

/-- The longest field accepted, in bytes. -/
def maxFieldBytes : Nat := 2 ^ 20

namespace ImportSpec

variable (spec : ImportSpec)

def categories : List CategoryId := spec.dimensions.map DimensionMapping.categoryId

/-- The most records accepted. -/
def limit : Nat := spec.maxRecords.getD defaultMaxRecords

/-- The measure an import fills. -/
def measure : Measure where
  id := spec.measureId
  name := spec.measureName
  valueType := spec.valueType
  categories := spec.categories
  kind := .input
  description := some s!"imported from CSV: {spec.path}"
  format := none

/-- The mapped columns: each dimension's with its category, and the value's. -/
def columns (headers : Option (List String)) :
    Except CsvError (List (Nat × CategoryId) × Nat) := do
  let dims ← spec.dimensions.mapM fun d => do
    return (← resolveCol headers d.column, d.categoryId)
  return (dims, ← resolveCol headers spec.valueColumn)

end ImportSpec

/-! ## Records -/

/-- A text without the whitespace around it. -/
def trim (s : String) : String :=
  .ofList ((s.toList.dropWhile isWhitespace).reverse.dropWhile isWhitespace).reverse

/-- A value of a type other than numbers; what is not one is text. -/
def parseFlexible : ValueType → String → Value
  | .boolean, raw =>
    let word := (trim raw).map Char.toLower
    if word = "true" then .boolean true
    else if word = "false" then .boolean false
    else .text raw
  | _, raw => .text raw

/-- The value of a field; none where it should be a number and is not. -/
def readValue : ValueType → String → Option Value
  | .number, raw => (Decimal.parseF64 (trim raw)).map .number
  | ty, raw => some (parseFlexible ty raw)

/-- A record's field, empty where it has none there. -/
def field (fields : List String) (i : Nat) : String := fields[i]?.getD ""

/-- The names a record gives its dimensions. -/
def namesOf (dims : List (Nat × CategoryId)) (fields : List String) : List Named :=
  dims.map fun d => (d.2, field fields d.1)

/-- What is wrong with the size of a record, after `count` others. -/
def sizeFault (limit maxIdx count : Nat) (fields : List String) : Option String :=
  if count = limit then some s!"more than {limit} records"
  else if fields.any fun f => maxFieldBytes < f.utf8ByteSize then
    some s!"a field exceeds {maxFieldBytes} bytes"
  else if fields.length ≤ maxIdx then
    some s!"expected at least {maxIdx + 1} column(s), got {fields.length}"
  else none

/-- The coordinate of some names, interned in turn; minting the last id there is
panics. -/
def internNames : ItemInterner → Coordinate → List Named → Option (ItemInterner × Coordinate)
  | it, coord, [] => some (it, coord)
  | it, coord, (cat, name) :: names =>
    match intern it cat name with
    | none => none
    | some (it, item) => internNames it (coord.insert cat item) names

/-- The last column of those a record must have. -/
def maxIdx (dims : List (Nat × CategoryId)) (valIdx : Nat) : Nat :=
  (dims.map Prod.fst).foldl max valIdx

/-- The cells of the records, after those read before, with the names interned. -/
def importRecords (spec : ImportSpec) (dims : List (Nat × CategoryId)) (valIdx : Nat) :
    ItemInterner → List (Coordinate × Value) → List (Except CsvError StringRecord) →
      Option (Except CsvError (ItemInterner × List (Coordinate × Value)))
  | it, cells, [] => some (.ok (it, cells))
  | _, _, .error e :: _ => some (.error e)
  | it, cells, .ok record :: records =>
    let row := record.line.getD (cells.length + 1)
    match sizeFault spec.limit (maxIdx dims valIdx) cells.length record.fields with
    | some message => some (.error (.row row message))
    | none =>
      match internNames it .empty (namesOf dims record.fields) with
      | none => none
      | some (it, coord) =>
        let raw := field record.fields valIdx
        match readValue spec.valueType raw with
        | none => some (.error (.row row s!"value column is not numeric: {raw.quote}"))
        | some value => importRecords spec dims valIdx it (cells ++ [(coord, value)]) records

/-! ## Importing -/

/-- The model with the cells of a file that was read. -/
def commit (spec : ImportSpec) (m : Model) (it : ItemInterner)
    (cells : List (Coordinate × Value)) : Model :=
  cells.foldl (fun m c => setInput m spec.measureId c.1 c.2)
    (it.register ((ensureCategories m (spec.dimensions.map DimensionMapping.source)).addMeasure
      spec.measure))

/-- The columns of a file, by its header where it has one. -/
def resolved (r : Reader) (spec : ImportSpec) :
    Except CsvError (List (Nat × CategoryId) × Nat) := do
  let headers ← if spec.hasHeader then some <$> r.headers else pure none
  spec.columns headers

/-- A file's records read for an import: the interned names and the cells. -/
def readCsv (r : Reader) (m : Model) (spec : ImportSpec) :
    Option (Except CsvError (ItemInterner × List (Coordinate × Value))) :=
  match resolved r spec with
  | .error e => some (.error e)
  | .ok (dims, valIdx) =>
    importRecords spec dims valIdx (.seededFrom m spec.itemIdBase) [] r.records

/-- A file imported into a model as an input measure: the model after the call
with the number of cells, or the error. -/
def importCsvFrom (r : Reader) (m : Model) (spec : ImportSpec) :
    Option (Model × Except CsvError Nat) :=
  match readCsv r m spec with
  | none => none
  | some (.error e) => some (m, .error e)
  | some (.ok (it, cells)) => some (commit spec m it cells, .ok cells.length)

end Improv.StorageCsv

/-!
## Exporting a measure

A measure's cells written as records: a header of the category names and the
measure's name, then a row a cell in coordinate order, the names of its items
and its value.  A text that a spreadsheet would run as a formula is prefixed
with an apostrophe when asked for.
-/

namespace Improv.StorageCsv

open Improv.Lib Improv.CoreModel Improv.Engine

/-- What the standard library and the date library write. -/
structure Writing where
  /-- A number as the shortest decimal that reads back as it. -/
  number : F64 → String
  rfc3339 : DateTime → String
  fromTimestampMillis : Int → Option DateTime

/-! ## Texts -/

/-- The characters a spreadsheet takes for the start of a formula. -/
def startsFormula (c : Char) : Bool := c ∈ ['=', '+', '-', '@', '\t', '\r']

/-- A text that a spreadsheet does not run. -/
def neutralize (on : Bool) (s : String) : String :=
  if on && s.toList.head?.any startsFormula then "'" ++ s else s

/-- The value column's text of a stored value; none skips the row. -/
def valueText (w : Writing) (on : Bool) : Value → Option String
  | .number n => some (w.number n)
  | .boolean b => some (if b then "true" else "false")
  | .text s => some (neutralize on s)
  | .dateTime t => some (w.rfc3339 t)
  | .enum e => some (toString e)
  | .error _ => none

/-- The value column's text of a computed value; none skips the row. -/
def cellText (w : Writing) (on : Bool) : CellValue → Option String
  | .num bits =>
    if (F64.ofBits bits).isFinite then some (w.number (.ofBits bits)) else none
  | .err _ => none
  | .text t => some (neutralize on t)
  | .bool b => some (if b then "true" else "false")
  | .date ms => some ((w.fromTimestampMillis ms).elim s!"date({ms})" w.rfc3339)

/-! ## Rows -/

/-- A measure's columns: its categories with their names. -/
def dimCols (m : Model) (x : Measure) : List (CategoryId × String) :=
  x.categories.map fun c =>
    (c, ((m.categories.get? c).map Category.name).getD s!"cat{c.id}")

/-- The name of a coordinate's item of a category. -/
def itemName (m : Model) (coord : Coordinate) (c : CategoryId) : Option String :=
  (coord.get? c).bind fun i => (m.items.get? i).map Item.name

/-- A cell's row. -/
def rowOf (m : Model) (x : Measure) (on : Bool) (cell : Coordinate × String) : List String :=
  (dimCols m x).map (fun d => ((itemName m cell.1 d.1).map (neutralize on)).getD "") ++ [cell.2]

/-- The stored cells of an input measure, with their texts. -/
def inputRows (w : Writing) (m : Model) (measure : MeasureId) (on : Bool) :
    List (Coordinate × String) :=
  (m.inputs.entries.filter fun p => p.1.measure = measure).filterMap fun p =>
    (valueText w on p.2).map fun s => (p.1.coord, s)

/-- The records of a measure and the number of its rows; `evaluate` is what the
engine computes for a derived measure. -/
def exportMeasureCsvWith (w : Writing)
    (evaluate : Model → MeasureId → Except String (List (Coordinate × CellValue))) (m : Model)
    (measure : MeasureId) (on : Bool) : Except CsvError (List (List String) × Nat) :=
  match m.measures.get? measure with
  | none => .error (.other s!"no measure MeasureId({measure.id})")
  | some x =>
    let header := (dimCols m x).map (fun d => neutralize on d.2) ++ [neutralize on x.name]
    let rows : Except CsvError (List (Coordinate × String)) :=
      if x.isDerived then
        match evaluate m measure with
        | .error e => .error (.other s!"evaluating measure MeasureId({measure.id}): {e}")
        | .ok cells => .ok (cells.filterMap fun p => (cellText w on p.2).map fun s => (p.1, s))
      else .ok (inputRows w m measure on)
    rows.map fun rows =>
      let rows := rows.mergeSort fun a b => a.1 ≤ b.1
      (header :: rows.map (rowOf m x on), rows.length)

end Improv.StorageCsv
