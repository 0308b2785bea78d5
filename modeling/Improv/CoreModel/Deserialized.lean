import Improv.CoreModel.Serialized
/-!
# How saved formulas are deserialized

What a tree says, as the derived deserializer of each type takes it: a struct's
fields by name, each once and others ignored, and an enum's variant by its name.
-/

namespace Improv.CoreModel.Deserialized

open Improv.Lib

/-! ## Pieces -/

/-- The values under a name in an object. -/
def named (name : String) : Tree → Option (List Tree)
  | .object fields => some ((fields.filter fun f => f.1 = name).map (·.2))
  | _ => none

/-- A field that a struct needs. -/
def field (name : String) (t : Tree) : Option Tree :=
  match named name t with
  | some [v] => some v
  | _ => none

/-- A field that may be missing. -/
def fieldOr (name : String) (t : Tree) : Option (Option Tree) :=
  match named name t with
  | some [] => some none
  | some [v] => some (some v)
  | _ => none

/-- A variant without a value. -/
def unit : Tree → Option String
  | .string name => some name
  | .object [(name, .null)] => some name
  | _ => none

def nat : Tree → Option Nat
  | .number (.int n) => if 0 ≤ n ∧ n ≤ u32Max then some n.toNat else none
  | _ => none

def float : Tree → Option F64
  | .number (.float x) => some x
  | .number (.int n) => some (.ofInt n)
  | _ => none

def bool : Tree → Option Bool
  | .bool b => some b
  | _ => none

def text : Tree → Option String
  | .string s => some s
  | _ => none

def option {α : Type} (f : Tree → Option α) : Tree → Option (Option α)
  | .null => some none
  | t => (f t).map some

def list {α : Type} (f : Tree → Option α) : Tree → Option (List α)
  | .array items => items.mapM f
  | _ => none

/-- The values of a map. -/
def values {α : Type} (f : Tree → Option α) : Tree → Option (List α)
  | .object fields => fields.mapM fun p => f p.2
  | _ => none

/-! ## Values and formulas -/

def kind (t : Tree) : Option ValueErrorKind :=
  match t with
  | .object [("Custom", body)] => (text body).map .custom
  | t =>
    match unit t with
    | some "TypeMismatch" => some .typeMismatch
    | some "DimensionMismatch" => some .dimensionMismatch
    | some "DivisionByZero" => some .divisionByZero
    | some "MissingInput" => some .missingInput
    | some "Null" => some .null
    | some "Ref" => some .ref
    | some "Name" => some .name
    | some "Num" => some .num
    | some "Na" => some .na
    | _ => none

def error (t : Tree) : Option ValueError := do
  let k ← (field "kind" t).bind kind
  let source ← fieldOr "source_measure" t
  let m ← option nat (source.getD .null)
  some ⟨k, m.map .mk⟩

section Dated

variable (date : String → Option DateTime)

def value : Tree → Option Value
  | .object [(name, body)] =>
    match name with
    | "Number" => (float body).map .number
    | "Boolean" => (bool body).map .boolean
    | "Text" => (text body).map .text
    | "DateTime" => ((text body).bind date).map .dateTime
    | "Enum" => (nat body).map .enum
    | "Error" => (error body).map .error
    | _ => none
  | _ => none

def categories : Tree → Option (List CategoryId) := list fun t => (nat t).map .mk

def spec (t : Tree) : Option DimensionSpec := do
  let byCats ← (field "by" t).bind categories
  let overCats ← (field "over" t).bind categories
  let exceptCats ← (field "except" t).bind categories
  some ⟨byCats, overCats, exceptCats⟩

def unaryOp (t : Tree) : Option UnaryOp :=
  match unit t with
  | some "Neg" => some .neg
  | some "Not" => some .not
  | _ => none

def binaryOp (t : Tree) : Option BinaryOp :=
  match unit t with
  | some "Add" => some .add
  | some "Sub" => some .sub
  | some "Mul" => some .mul
  | some "Div" => some .div
  | some "And" => some .and
  | some "Or" => some .or
  | some "Eq" => some .eq
  | some "Ne" => some .ne
  | some "Lt" => some .lt
  | some "Le" => some .le
  | some "Gt" => some .gt
  | some "Ge" => some .ge
  | some "Pow" => some .pow
  | some "Concat" => some .concat
  | _ => none

def expr : Tree → Option Expr
  | .object [(name, body)] =>
    match name, body with
    | "Literal", v => (value date v).map .literal
    | "Ref", .array [m, s] => do some (.ref ⟨← nat m⟩ (← spec s))
    | "UnaryOp", .array [op, a] => do some (.unaryOp (← unaryOp op) (← expr a))
    | "BinaryOp", .array [op, a, b] => do
      some (.binaryOp (← binaryOp op) (← expr a) (← expr b))
    | "Call", .array [f, .array args] => do some (.call ⟨← nat f⟩ (← exprs args))
    | "Category", c => (nat c).map fun n => .category ⟨n⟩
    | _, _ => none
  | _ => none
where
  exprs : List Tree → Option (List Expr)
    | [] => some []
    | a :: as => do some ((← expr a) :: (← exprs as))

def formula (t : Tree) : Option Formula := ((field "expr" t).bind (expr date)).map .mk

def measureKind : Tree → Option MeasureKind
  | .object [("Derived", f)] => (formula date f).map .derived
  | t =>
    match unit t with
    | some "Input" => some .input
    | _ => none

/-- The measures' formulas and the lambdas' bodies of a saved model. -/
def savedFormulas (t : Tree) : Option (List MeasureKind × List Expr) := do
  let kinds ← (field "measures" t).bind (values fun m => (field "kind" m).bind (measureKind date))
  let lambdas ← fieldOr "lambdas" t
  let bodies ← match lambdas with
    | none => some []
    | some ls => values (fun l => (field "body" l).bind (expr date)) ls
  some (kinds, bodies)

end Dated

end Improv.CoreModel.Deserialized
