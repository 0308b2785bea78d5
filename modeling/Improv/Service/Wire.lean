import Improv.CoreModel.Model
import Improv.Engine.Session
/-!
# The wire

What a client sends the model service and what it is answered: cell values,
requests, and refusals with the status and body they map to.  Dates go over the
wire as text; the calendar library that prints and reads them is a parameter.
-/

namespace Improv.Service

open Improv.Lib Improv.CoreModel Improv.Engine

/-- The calendar library: dates as RFC 3339 text. -/
structure Chrono where
  toRfc3339 : DateTime → String
  parseFromRfc3339 : String → Except String DateTime
  fromTimestampMillis : Int → Option DateTime

/-- A cell's value on the wire. -/
inductive WireValue
  | number (n : F64)
  | bool (b : Bool)
  | text (s : String)
  | date (date : String)
  | error (error : String)
deriving DecidableEq

/-- The spreadsheet text of an error; Improv's own kinds show as `#ERR`. -/
def errorCode : ValueErrorKind → String
  | .null => "#NULL!"
  | .divisionByZero => "#DIV/0!"
  | .typeMismatch => "#VALUE!"
  | .ref => "#REF!"
  | .name => "#NAME?"
  | .num => "#NUM!"
  | .na => "#N/A"
  | .dimensionMismatch | .missingInput | .custom _ => "#ERR"

/-- The error an `ERROR.TYPE` number names. -/
def fromErrorType : Nat → Option ValueErrorKind
  | 1 => some .null
  | 2 => some .divisionByZero
  | 3 => some .typeMismatch
  | 4 => some .ref
  | 5 => some .name
  | 6 => some .num
  | 7 => some .na
  | _ => none

def typeName : ValueType → String
  | .number => "numbers"
  | .boolean => "true or false"
  | .text => "text"
  | .dateTime => "dates"
  | .enum => "enum indexes"

namespace WireValue

variable (chrono : Chrono)

/-- The model value this is, for a measure of type `ty`. -/
def toValue (w : WireValue) (ty : ValueType) : Except String Value :=
  match w, ty with
  | .number n, .number =>
    if n.isFinite then .ok (.number n) else .error "not a finite number"
  | .bool b, .boolean => .ok (.boolean b)
  | .text t, .text => .ok (.text t)
  | .date d, .dateTime =>
    match chrono.parseFromRfc3339 d with
    | .ok t => .ok (.dateTime t)
    | .error e => .error s!"not an RFC 3339 date: {e}"
  | _, ty => .error s!"this measure holds {typeName ty}"

/-- The wire form of a model value. -/
def fromValue : Value → WireValue
  | .number n => .number n
  | .boolean b => .bool b
  | .text t => .text t
  | .dateTime t => .date (chrono.toRfc3339 t)
  | .enum e => .number (.ofNat e)
  | .error e => .error (errorCode e.kind)

/-- An engine cell on the wire. -/
def ofCell : CellValue → WireValue
  | .num bits => .number (.ofBits bits)
  | .bool b => .bool b
  | .text t => .text t
  | .date ms => .date ((chrono.fromTimestampMillis ms).elim (toString ms) chrono.toRfc3339)
  | .err c => .error ((fromErrorType c).elim "#ERR" errorCode)

end WireValue

/-! ## Requests -/

/-- One cell edit: set it, or clear it. -/
structure CellEdit where
  measure : Nat
  coord : List (Nat × Nat)
  value : Option WireValue
deriving DecidableEq

/-- Edits applied together, or not at all. -/
structure EditReq where
  edits : List CellEdit

/-- A definition, or a new input measure. -/
structure DefineReq where
  definition : Option String
  name : Option String
  categories : Option (List Nat)
  valueType : Option ValueType

/-- Any of a new formula, name and format; a format of `none` clears it. -/
structure UpdateMeasureReq where
  formula : Option String
  name : Option String
  format : Option (Option NumberFormat)

structure NameReq where
  name : String

/-- A view's name and matrices, the first the primary one. -/
structure ViewReq where
  name : Option String
  matrices : Option (List MatrixPlacement)

/-- The items to show of each category; a category left out shows them all. -/
structure WindowReq where
  items : SortedMap Nat (List Nat)

/-- What a client asks the model service for. -/
inductive Request
  | readStructure
  | window (id : Nat) (w : WindowReq)
  | edit (e : EditReq)
  | define (d : DefineReq)
  | updateMeasure (id : Nat) (u : UpdateMeasureReq)
  | deleteMeasure (id : Nat)
  | addCategory (n : NameReq)
  | renameCategory (id : Nat) (n : NameReq)
  | deleteCategory (id : Nat)
  | addItem (category : Nat) (n : NameReq)
  | renameItem (id : Nat) (n : NameReq)
  | deleteItem (id : Nat)
  | saveView (v : ViewReq)
  | updateView (id : Nat) (v : ViewReq)
  | deleteView (id : Nat)
  | undo
  | redo

/-! ## Answers -/

/-- What a change did: the new version, a status line, and the id of what it
made. -/
structure Done where
  version : String
  message : String
  id : Option Nat
deriving DecidableEq

/-- An error located in formula text. -/
structure DiagnosticOut where
  span : Option (Nat × Nat)
  message : String
  hint : Option String
deriving DecidableEq

/-- A refused request's body. -/
structure Failure where
  error : String
  index : Option Nat
  diagnostic : Option DiagnosticOut
deriving DecidableEq

/-- A refused request: the status it maps to and the body. -/
structure Refusal where
  status : Nat
  body : Failure
deriving DecidableEq

namespace Refusal

def new (status : Nat) (error : String) : Refusal := ⟨status, error, none, none⟩

def bad (error : String) : Refusal := new 400 error

/-- A hidden thing and a missing one get exactly this. -/
def notFound (what : String) (id : Nat) : Refusal := new 404 s!"no {what} {id}"

def forbidden : Refusal := new 403 "not allowed"

def conflict (error : String) : Refusal := new 409 error

def internal (error : String) : Refusal := new 500 error

/-- The refusal with the index of the edit it is about. -/
def atIndex (r : Refusal) (index : Nat) : Refusal :=
  { r with body := { r.body with index := some index } }

def located (r : Refusal) (d : DiagnosticOut) : Refusal :=
  { r with body := { r.body with diagnostic := some d } }

/-- A refusal located in the formula after `Name = `: its span moved `offset`. -/
def shift (r : Refusal) (offset : Nat) : Refusal :=
  { r with
    body := { r.body with
      diagnostic := r.body.diagnostic.map fun d =>
        { d with span := d.span.map fun s => (s.1 + offset, s.2 + offset) } } }

end Refusal

/-- A changed cell: its new value, or none (it is now blank). -/
structure ChangedCell where
  measure : Nat
  coord : List (Nat × Nat)
  value : Option WireValue
deriving DecidableEq

/-- One event of the change feed: cells that changed, or a reload. -/
structure ChangeEvent where
  version : String
  cells : List ChangedCell
  reload : Bool
deriving DecidableEq

end Improv.Service
