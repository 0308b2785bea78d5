import Improv.Lib.ByteOffsets
import Improv.Lib.ListLemmas
import Improv.Lib.Json
import Improv.CoreModel.Model
/-!
# Values at a subprocess's boundary

A value as JSON and back, checked against a declared type, and the envelope that
a scripting runner's last line of output is.  A preview cuts a JSON text at byte
60, which panics inside a character.
-/

namespace Improv.ExtFn

open Improv.Lib Improv.CoreModel

/-- A number of a JSON text. -/
inductive Number
  | int (i : Int)
  | float (x : F64)
deriving DecidableEq

namespace Number

def asF64 : Number → F64
  | int i => .ofInt i
  | float x => x

def asU64 : Number → Option Nat
  | int i => if 0 ≤ i ∧ i < 2 ^ 64 then some i.toNat else none
  | float _ => none

end Number

/-- The libraries and the interpreters' own functions on numbers. -/
structure Outside where
  /-- A finite double as JSON. -/
  writeNumber : F64 → List Char
  readNumber : List Char → Option Number
  fromStr : List Char → Option (Json Number)
  /-- Why a text is no JSON. -/
  jsonError : List Char → List Char
  /-- A text in its debug form. -/
  debug : List Char → List Char
  toRfc3339 : DateTime → String
  parseRfc3339 : String → Except (List Char) DateTime
  /-- R's `as.numeric`. -/
  asNumeric : List Char → F64
  /-- R's `format` without an exponent: seven significant digits, or as many as the
  integer part has. -/
  format : F64 → List Char
  /-- Julia's `parse(Float64, _)`. -/
  parse : List Char → Option F64
  /-- Julia's `string` of a double. -/
  string : F64 → List Char
  /-- What Julia's error for a double that is no `Int` says. -/
  inexact : F64 → List Char

inductive Fault
  | panic
  | failed (message : List Char)
  | runtime (message stderr : List Char)
deriving DecidableEq

/-! ## JSON texts -/

def backspace : Char := .ofNat 8

def formFeed : Char := .ofNat 12

def isControl (c : Char) : Bool := c.toNat < 0x20

/-- A character inside a JSON string. -/
def escapeChar (c : Char) : List Char :=
  if c = '"' then ['\\', '"']
  else if c = '\\' then ['\\', '\\']
  else if c = '\n' then ['\\', 'n']
  else if c = '\t' then ['\\', 't']
  else if c = '\r' then ['\\', 'r']
  else if c = backspace then ['\\', 'b']
  else if c = formFeed then ['\\', 'f']
  else if isControl c then
    ['\\', 'u', '0', '0', Nat.digitChar (c.toNat / 16), Nat.digitChar (c.toNat % 16)]
  else [c]

def quoted (s : List Char) : List Char := '"' :: (s.flatMap escapeChar ++ ['"'])

/-- A whole number in digits. -/
def wholeText (i : Int) : List Char :=
  (if i < 0 then ['-'] else []) ++ Nat.toDigits 10 i.natAbs

def numberText (x : Outside) : Number → List Char
  | .int i => wholeText i
  | .float n => x.writeNumber n

/-- The compact text of a JSON tree. -/
def text (x : Outside) : Json Number → List Char
  | .null => "null".toList
  | .bool b => if b then "true".toList else "false".toList
  | .number n => numberText x n
  | .string s => quoted s.toList
  | .array items => '[' :: (items' true items ++ [']'])
  | .object fields => '\x7b' :: (fields' true fields ++ ['\x7d'])
where
  items' (first : Bool) : List (Json Number) → List Char
    | [] => []
    | j :: js => (if first then [] else [',']) ++ (text x j ++ items' false js)
  fields' (first : Bool) : List (String × Json Number) → List Char
    | [] => []
    | f :: fs => (if first then [] else [',']) ++ (field f ++ fields' false fs)
  field : String × Json Number → List Char
    | (k, j) => quoted k.toList ++ ':' :: text x j

def get (j : Json Number) (key : String) : Option (Json Number) :=
  match j with
  | .object fields => (fields.find? fun f => f.1 = key).map (·.2)
  | _ => none

def asStr : Json Number → Option String
  | .string s => some s
  | _ => none

def asU64 : Json Number → Option Nat
  | .number n => n.asU64
  | _ => none

/-! ## Marshalling -/

def errKindStr : ValueErrorKind → String
  | .typeMismatch => "type_mismatch"
  | .dimensionMismatch => "dimension_mismatch"
  | .divisionByZero => "division_by_zero"
  | .missingInput => "missing_input"
  | .custom _ => "custom"
  | .null => "null"
  | .ref => "ref"
  | .name => "name"
  | .num => "num"
  | .na => "na"

def errMessage : ValueErrorKind → String
  | .custom m => m
  | other => errKindStr other

def valueToJson (x : Outside) : Value → Json Number
  | .number n => if n.isFinite then .number (.float n) else .null
  | .boolean b => .bool b
  | .text s => .string s
  | .dateTime t =>
    .object [("__improv__", .string "datetime"), ("value", .string (x.toRfc3339 t))]
  | .enum i => .object [("__improv__", .string "enum"), ("value", .number (.int i))]
  | .error e => .object [("__improv__", .string "error"), ("kind", .string (errKindStr e.kind)),
      ("message", .string (errMessage e.kind))]

/-- A short preview of a JSON value. -/
def short (x : Outside) (j : Json Number) : Except Fault (List Char) :=
  let s := text x j
  if 60 < ByteOffsets.bytes s then
    match ByteOffsets.cutAt s 60 with
    | none => .error .panic
    | some (front, _) => .ok (front ++ ['…'])
  else .ok s

def unexpected (x : Outside) (what : String) (j : Json Number) : Except Fault Value :=
  short x j >>= fun preview => .error (.failed (what.toList ++ preview))

def tagged (j : Json Number) (tag : String) : Option (Json Number) :=
  if (get j "__improv__").bind asStr = some tag then get j "value" else none

/-- A JSON value of a declared type. -/
def jsonToValue (x : Outside) (j : Json Number) : ValueType → Except Fault Value
  | .number =>
    match j with
    | .number n => .ok (.number n.asF64)
    | _ => unexpected x "expected Number, got " j
  | .boolean =>
    match j with
    | .bool b => .ok (.boolean b)
    | _ => unexpected x "expected Boolean, got " j
  | .text =>
    match j with
    | .string s => .ok (.text s)
    | _ => unexpected x "expected Text, got " j
  | .dateTime =>
    match ((tagged j "datetime").bind asStr).or (asStr j) with
    | none => unexpected x "expected DateTime, got " j
    | some s =>
      match x.parseRfc3339 s with
      | .ok t => .ok (.dateTime t)
      | .error e =>
        .error (.failed ("invalid DateTime ".toList ++ x.debug s.toList ++ ": ".toList ++ e))
  | .enum =>
    match (((tagged j "enum").bind asU64).or (asU64 j)).filter (· ≤ u32Max) with
    | none => unexpected x "expected Enum index, got " j
    | some n => .ok (.enum n)

/-! ## The envelope -/

/-- A line without the carriage return before its end. -/
def stripCr (l : List Char) : List Char :=
  if l.getLast? = some '\r' then l.dropLast else l

/-- The lines of the rest of a text, `line` read of the first. -/
def linesFrom : (line : List Char) → List Char → List (List Char)
  | line, [] => if line = [] then [] else [line]
  | line, c :: s => if c = '\n' then stripCr line :: linesFrom [] s else linesFrom (line ++ [c]) s

/-- The last line that is not blank. -/
def lastLine (out : List Char) : List Char :=
  trimmed (((linesFrom [] out).reverse.find? fun l => trimmed l ≠ []).getD out)

/-- The `ok` value of an envelope. -/
def okValue (x : Outside) (out err : List Char) (runtimeName : String) :
    Except Fault (Json Number) :=
  let runtime (message : List Char) : Except Fault (Json Number) := .error (.runtime message err)
  let out := trimmed out
  if out = [] then runtime (runtimeName.toList ++ " produced no output".toList)
  else
    let last := lastLine out
    match x.fromStr last with
    | none =>
      runtime ("could not parse ".toList ++ runtimeName.toList ++ " output as JSON: ".toList ++
        x.jsonError last ++ " (output: ".toList ++ x.debug last ++ [')'])
    | some env =>
      match (get env "error").bind asStr with
      | some message => runtime message.toList
      | none =>
        match get env "ok" with
        | none => runtime (runtimeName.toList ++
            " envelope missing \x60ok\x60/\x60error\x60: ".toList ++ x.debug last)
        | some ok => .ok ok

def parseEnvelope (x : Outside) (out err : List Char) (returnType : ValueType)
    (runtimeName : String) : Except Fault Value := do
  let ok ← okValue x out err runtimeName
  match jsonToValue x ok returnType with
  | .ok v => .ok v
  | .error (.failed m) => .error (.runtime ("return type mismatch: ".toList ++ m) err)
  | .error e => .error e

end Improv.ExtFn
