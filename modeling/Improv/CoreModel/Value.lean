import Mathlib.Algebra.Group.Nat.Defs
import Mathlib.Order.Basic
import Improv.Lib.Binary64
/-!
# Identifiers and values

The opaque identifiers of a model and the runtime values of its cells.  An
error is a value like any other and flows through a formula's evaluation.
-/

namespace Improv.CoreModel

open Improv.Lib

/-- The largest `u32`. -/
def u32Max : Nat := 2 ^ 32 - 1

structure CategoryId where
  id : Nat
deriving DecidableEq

structure ItemId where
  id : Nat
deriving DecidableEq

structure MeasureId where
  id : Nat
deriving DecidableEq

instance : LinearOrder CategoryId :=
  LinearOrder.lift' CategoryId.id fun a b h => by cases a; cases b; simp_all

instance : LinearOrder ItemId :=
  LinearOrder.lift' ItemId.id fun a b h => by cases a; cases b; simp_all

instance : LinearOrder MeasureId :=
  LinearOrder.lift' MeasureId.id fun a b h => by cases a; cases b; simp_all

/-- The declared type of a measure. -/
inductive ValueType
  | number
  | boolean
  | text
  | dateTime
  | enum
deriving DecidableEq

/-- The kind of an error value: the spreadsheet errors and Improv's own
structural ones. -/
inductive ValueErrorKind
  | typeMismatch
  | dimensionMismatch
  | divisionByZero
  | missingInput
  | custom (text : String)
  | null
  | ref
  | name
  | num
  | na
deriving DecidableEq

/-- An error value with the measure it came from, when known. -/
structure ValueError where
  kind : ValueErrorKind
  sourceMeasure : Option MeasureId
deriving DecidableEq

/-- A UTC instant: a day number (days since 1970-01-01) and a time of day.  A
leap second is a fraction of a thousand million nanoseconds or more. -/
structure DateTime where
  days : Int
  secs : Nat
  nanos : Nat
  secs_lt : secs < 86400
  nanos_lt : nanos < 2000000000
deriving DecidableEq

/-- A runtime value in a cell. -/
inductive Value
  | number (n : F64)
  | boolean (b : Bool)
  | text (s : String)
  | dateTime (t : DateTime)
  | enum (i : Nat)
  | error (e : ValueError)
deriving DecidableEq

namespace Value

def typeOf : Value → Option ValueType
  | number _ => some .number
  | boolean _ => some .boolean
  | text _ => some .text
  | dateTime _ => some .dateTime
  | enum _ => some .enum
  | error _ => none

def isError : Value → Bool
  | error _ => true
  | _ => false

def asNumber : Value → Option F64
  | number n => some n
  | _ => none

theorem typeOf_eq_none_iff (v : Value) : v.typeOf = none ↔ v.isError = true := by
  cases v <;> simp [typeOf, isError]

end Value

end Improv.CoreModel
