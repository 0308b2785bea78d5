import Mathlib.Data.String.Basic
import Mathlib.Data.List.Lex
import Mathlib.Data.Prod.Lex
import Improv.CoreModel.Value
import Improv.Lib.SparseKey
/-!
# Cell values and coordinates

What a dataflow row holds: a coordinate, the items of its categories in
category order, and a value whose numbers are kept as bits so that values are
totally ordered.
-/

namespace Improv.Engine

open Improv.Lib Improv.CoreModel

/-- The value of a row.  An error is its spreadsheet number. -/
inductive CellValue
  | num (bits : UInt64)
  | bool (b : Bool)
  | text (s : String)
  | date (ms : Int)
  | err (code : Nat)
deriving DecidableEq

namespace CellValue

/-- Wraps a double. -/
def ofF64 (n : F64) : CellValue := .num n.toBits

def asNum : CellValue → Option F64
  | .num bits => some (F64.ofBits bits)
  | _ => none

def isErr : CellValue → Bool
  | .err _ => true
  | _ => false

/-- Variants in declaration order, then the payload. -/
def orderKey : CellValue → ℕ ×ₗ ℕ ×ₗ ℤ ×ₗ String
  | .num bits => toLex (0, toLex (bits.toNat, toLex (0, "")))
  | .bool b => toLex (1, toLex (if b then 1 else 0, toLex (0, "")))
  | .text s => toLex (2, toLex (0, toLex (0, s)))
  | .date ms => toLex (3, toLex (0, toLex (ms, "")))
  | .err code => toLex (4, toLex (code, toLex (0, "")))

theorem orderKey_injective : Function.Injective orderKey := by
  intro a b h
  cases a <;> cases b <;> simp_all [orderKey, UInt64.toNat_inj]
  split at h <;> split at h <;> simp_all

instance : LinearOrder CellValue := LinearOrder.lift' orderKey orderKey_injective

end CellValue

/-! ## Spreadsheet errors -/

/-- `ERROR.TYPE`'s number of an error kind, 0 for Improv's own kinds. -/
def errorType : ValueErrorKind → Nat
  | .null => 1
  | .divisionByZero => 2
  | .typeMismatch => 3
  | .ref => 4
  | .name => 5
  | .num => 6
  | .na => 7
  | .dimensionMismatch | .missingInput | .custom _ => 0

namespace Err

def DIV0 : Nat := 2

def VALUE : Nat := 3

def NUM : Nat := 6

def NA : Nat := 7

end Err

/-- Milliseconds since 1970, as a date cell holds them. -/
def timestampMillis (t : DateTime) : Int :=
  (t.days * 86400 + t.secs) * 1000 + (t.nanos / 1000000 : Nat)

/-- A model value as a cell feeds it. -/
def CellValue.fromModelValue : Value → CellValue
  | .number n => .ofF64 n
  | .boolean b => .bool b
  | .text s => .text s
  | .enum e => .ofF64 (.ofNat e)
  | .dateTime t => .date (timestampMillis t)
  | .error e => .err (errorType e.kind)

/-! ## Coordinates -/

/-- A coordinate: `(category, item)` pairs in category order. -/
abbrev CoordKey := List (Nat × Nat)

end Improv.Engine
