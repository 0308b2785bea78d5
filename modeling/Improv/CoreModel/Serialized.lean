import Improv.CoreModel.JsonReader
import Improv.CoreModel.Model
/-!
# How a model is serialized

The tree of each type of the model, as its derived serializer gives it: a
struct is an object of its fields, an enum's variant an object of one field or
its name alone, an identifier its number.  A date is the text that `date` gives.
The entries of a map stand in key order, where a hash map of the source writes
them in any order.
-/

namespace Improv.CoreModel

open Improv.Lib

/-- A number as it is written: an integer, or one of either precision. -/
inductive JsonNumber
  | int (n : Int)
  | float (x : F64)
  | single (bits : UInt32)
deriving DecidableEq

abbrev Tree := Json JsonNumber

namespace Serialized

/-- A variant with a value. -/
def variant (name : String) (body : Tree) : Tree := .object [(name, body)]

def nat (n : Nat) : Tree := .number (.int (n : Int))

/-- NaN and the infinities are written as null. -/
def float (x : F64) : Tree := if x.isFinite then .number (.float x) else .null

def single (bits : UInt32) : Tree :=
  if bits >>> 23 &&& 0xFF = 0xFF then .null else .number (.single bits)

def option {α : Type} (f : α → Tree) : Option α → Tree
  | none => .null
  | some a => f a

def list {α : Type} (f : α → Tree) (xs : List α) : Tree := .array (xs.map f)

def mapping {κ α : Type} [LinearOrder κ] (key : κ → String) (f : α → Tree)
    (m : SortedMap κ α) : Tree :=
  .object (m.entries.map fun p => (key p.1, f p.2))

/-- A field that is left out where its map is empty. -/
def unlessEmpty {κ α : Type} [LinearOrder κ] (name : String) (key : κ → String) (f : α → Tree)
    (m : SortedMap κ α) : List (String × Tree) :=
  if m.entries.isEmpty then [] else [(name, mapping key f m)]

def natKey (n : Nat) : String := toString n

/-! ## Values and formulas -/

def ofValueType : ValueType → Tree
  | .number => .string "Number"
  | .boolean => .string "Boolean"
  | .text => .string "Text"
  | .dateTime => .string "DateTime"
  | .enum => .string "Enum"

def ofKind : ValueErrorKind → Tree
  | .typeMismatch => .string "TypeMismatch"
  | .dimensionMismatch => .string "DimensionMismatch"
  | .divisionByZero => .string "DivisionByZero"
  | .missingInput => .string "MissingInput"
  | .custom text => variant "Custom" (.string text)
  | .null => .string "Null"
  | .ref => .string "Ref"
  | .name => .string "Name"
  | .num => .string "Num"
  | .na => .string "Na"

def ofError (e : ValueError) : Tree :=
  .object [("kind", ofKind e.kind), ("source_measure", option (fun m => nat m.id) e.sourceMeasure)]

section Dated

variable (date : DateTime → String)

def ofValue : Value → Tree
  | .number x => variant "Number" (float x)
  | .boolean b => variant "Boolean" (.bool b)
  | .text s => variant "Text" (.string s)
  | .dateTime t => variant "DateTime" (.string (date t))
  | .enum i => variant "Enum" (nat i)
  | .error e => variant "Error" (ofError e)

def ofCategories (cs : List CategoryId) : Tree := list (fun c => nat c.id) cs

def ofSpec (s : DimensionSpec) : Tree :=
  .object [("by", ofCategories s.byCats), ("over", ofCategories s.overCats),
    ("except", ofCategories s.exceptCats)]

def unaryName : UnaryOp → String
  | .neg => "Neg"
  | .not => "Not"

def binaryName : BinaryOp → String
  | .add => "Add"
  | .sub => "Sub"
  | .mul => "Mul"
  | .div => "Div"
  | .and => "And"
  | .or => "Or"
  | .eq => "Eq"
  | .ne => "Ne"
  | .lt => "Lt"
  | .le => "Le"
  | .gt => "Gt"
  | .ge => "Ge"
  | .pow => "Pow"
  | .concat => "Concat"

def ofExpr : Expr → Tree
  | .literal v => variant "Literal" (ofValue date v)
  | .ref m spec => variant "Ref" (.array [nat m.id, ofSpec spec])
  | .unaryOp op a => variant "UnaryOp" (.array [.string (unaryName op), ofExpr a])
  | .binaryOp op a b =>
    variant "BinaryOp" (.array [.string (binaryName op), ofExpr a, ofExpr b])
  | .call f args => variant "Call" (.array [nat f.id, .array (ofExprs args)])
  | .category c => variant "Category" (nat c.id)
where
  ofExprs : List Expr → List Tree
    | [] => []
    | a :: as => ofExpr a :: ofExprs as

def ofFormula (f : Formula) : Tree := .object [("expr", ofExpr date f.expr)]

def ofMeasureKind : MeasureKind → Tree
  | .input => .string "Input"
  | .derived f => variant "Derived" (ofFormula date f)

def ofNumberFormat (f : NumberFormat) : Tree :=
  .object [("decimals", option nat f.decimals), ("grouping", .bool f.grouping)]

def ofMeasure (m : Measure) : Tree :=
  .object ([("id", nat m.id.id), ("name", .string m.name), ("value_type", ofValueType m.valueType),
    ("categories", ofCategories m.categories), ("kind", ofMeasureKind date m.kind),
    ("description", option .string m.description)] ++
    (m.format.map fun f => ("format", ofNumberFormat f)).toList)

def ofLambda (l : NamedLambda) : Tree :=
  .object [("name", .string l.name), ("params", list .string l.params),
    ("body", ofExpr date l.body)]

/-! ## The rest of a model -/

def ofCategory (c : Category) : Tree :=
  .object [("id", nat c.id.id), ("name", .string c.name),
    ("items", list (fun i => nat i.id) c.items)]

def ofItem (i : Item) : Tree :=
  .object [("id", nat i.id.id), ("category", nat i.category.id), ("name", .string i.name)]

def ofCoordinate (c : Coordinate) : Tree :=
  .object [("dims", mapping (fun c => natKey c.id) (fun i => nat i.id) c)]

/-- Cells as a sequence of key and value pairs. -/
def ofInputs (inputs : SortedMap Cell Value) : Tree :=
  list (fun p => .array [.array [nat p.1.measure.id, ofCoordinate p.1.coord], ofValue date p.2])
    inputs.entries

def ofRefreshPolicy : RefreshPolicy → Tree
  | .manual => .string "manual"
  | .onLoad => .string "on_load"
  | .interval secs => variant "interval" (.object [("secs", nat secs)])

def ofSqlSource (s : SqlSource) : Tree :=
  .object [("query", .string s.query), ("dimension_columns", list .string s.dimensionColumns),
    ("value_column", .string s.valueColumn), ("refresh_policy", ofRefreshPolicy s.refreshPolicy)]

def ofRect (r : CanvasRect) : Tree :=
  .object [("x", single r.x), ("y", single r.y), ("w", single r.w), ("h", single r.h)]

def ofFilter (f : Filter) : Tree :=
  .object [("category", nat f.category.id), ("items", list (fun i => nat i.id) f.items)]

/-- The fields that a placement and a view's primary matrix share. -/
def ofMatrix (p : MatrixPlacement) : List (String × Tree) :=
  [("measure", nat p.measure.id), ("axis_order", ofCategories p.axisOrder), ("n_rows", nat p.nRows),
    ("n_cols", nat p.nCols),
    ("page_items", list (fun x => .array [nat x.1.id, nat x.2.id]) p.pageItems),
    ("filters", list ofFilter p.filters), ("rect", ofRect p.rect)]

def ofView (v : View) : Tree :=
  .object ([("id", nat v.id.id), ("name", .string v.name)] ++ ofMatrix v.primary ++
    [("placements", list (fun p => .object (ofMatrix p)) v.placements)])

def ofLanguage : Language → Tree
  | .python => .string "Python"
  | .r => .string "R"
  | .julia => .string "Julia"
  | .wasm => .string "Wasm"
  | .pure => .string "Pure"

def ofExternalFn (f : ExternalFn) : Tree :=
  .object [("name", .string f.name), ("language", ofLanguage f.language), ("body", .string f.body),
    ("arg_types", list ofValueType f.argTypes), ("return_type", ofValueType f.returnType),
    ("pure", .bool f.pure)]

def ofExternalCall (c : ExternalCall) : Tree :=
  .object [("func", .string c.func), ("arg_measures", list (fun m => nat m.id) c.argMeasures),
    ("refresh_policy", ofRefreshPolicy c.refreshPolicy)]

def ofScenario (s : Scenario) : Tree :=
  .object [("id", nat s.id.id), ("name", .string s.name), ("overrides", ofInputs date s.overrides)]

def ofModel (m : Model) : Tree :=
  .object ([("categories", mapping (fun c => natKey c.id) ofCategory m.categories),
      ("items", mapping (fun i => natKey i.id) ofItem m.items),
      ("measures", mapping (fun x => natKey x.id) (ofMeasure date) m.measures),
      ("inputs", ofInputs date m.inputs)] ++
    unlessEmpty "sql_sources" (fun x => natKey x.id) ofSqlSource m.sqlSources ++
    unlessEmpty "views" (fun v => natKey v.id) ofView m.views ++
    unlessEmpty "external_fns" (fun name => name) ofExternalFn m.externalFns ++
    unlessEmpty "external_calls" (fun x => natKey x.id) ofExternalCall m.externalCalls ++
    unlessEmpty "scenarios" (fun s => natKey s.id) (ofScenario date) m.scenarios ++
    unlessEmpty "lambdas" natKey (ofLambda date) m.lambdas)

end Dated

end Serialized

end Improv.CoreModel
