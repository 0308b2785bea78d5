import Mathlib.Data.List.DropRight
import Improv.CoreModel.Model
import Improv.Lib.Decimal
import Improv.Lib.Scientific
/-!
# Numbers as the front ends show them

Excel's General form, of at most 15 significant digits, and a measure's number
format: its decimals round the digits General shows, half away from zero, and
the locale's separators are written.
-/

namespace Improv.CoreModel

open Improv.Lib Improv.Lib.Decimal

/-- How a locale writes numbers. -/
structure Locale where
  /-- The decimal separator. -/
  decimal : Char

namespace Locale

def en : Locale := ⟨'.'⟩

def de : Locale := ⟨','⟩

/-- The group separator: the one of `,` and `.` that is not the decimal's. -/
def group (l : Locale) : Char := if l.decimal = ',' then '.' else ','

end Locale

namespace Number

/-! ## Text of the standard library -/

/-- A magnitude's first 15 digits and their exponent. -/
def fifteenDigits : F64 → Nat × Int
  | .finite _ u _ => Scientific.scientific 14 u F64.one
  | _ => (0, 0)

def isSignNegative : F64 → Bool
  | .finite s _ _ => s
  | .inf s => s
  | .nan => false

/-- A number of decimal digits. -/
def padded (k n : Nat) : List Char := (Nat.toDigits 10 n).leftpad k '0'

/-- A finite number as `{:.14e}` writes it. -/
def scientificText (n : F64) : List Char :=
  let (digits, exp) := fifteenDigits n
  (if isSignNegative n then ['-'] else []) ++
    (padded 15 digits).take 1 ++ '.' :: (padded 15 digits).drop 1 ++ 'e' :: (toString exp).toList

def parseI32 (s : List Char) : Option Int :=
  let (neg, ds) := sign s
  let x : Int := if neg then -(ofDigits ds : Int) else ofDigits ds
  if ds ≠ [] ∧ ds.all isDigit = true ∧ -2 ^ 31 ≤ x ∧ x < 2 ^ 31 then some x else none

/-! ## General -/

/-- A text without the characters `c` at its end. -/
def trimEnd (c : Char) (s : List Char) : List Char := s.rdropWhile (· = c)

variable (toText : F64 → List Char)

/-- A number in Excel's General form, where `toText` writes a number as the
shortest decimal that reads back as it. -/
def displayNumber (n : F64) : List Char :=
  if n.isFinite = false ∨ n.eq .zero = true then
    if n.eq .zero then ['0'] else toText n
  else
    let sci := scientificText n
    let (mantissa, exp) := (splitOnce 'e' sci).getD (sci, ['0'])
    let exp := (parseI32 exp).getD 0
    if -4 ≤ exp ∧ exp < 15 then toText ((parseF64 (.ofList sci)).getD n)
    else
      trimEnd '.' (trimEnd '0' mantissa) ++
        'E' :: (if exp < 0 then '-' else '+') :: padded 2 exp.natAbs

/-! ## A number of decimals -/

/-- The last place whose digit satisfies `p`. -/
def rposition (p : Nat → Bool) (ds : List Nat) : Option Nat :=
  (List.range ds.length).reverse.find? fun i => p (ds.getD i 0)

/-- One counted up in the last place, and the place of the point: a carry through
nines only puts a one in front of them. -/
def countUp (digits : List Nat) (point : Nat) : List Nat × Nat :=
  match rposition (· ≠ 9) digits with
  | some i =>
    (digits.take i ++ (digits.getD i 0 + 1) :: List.replicate (digits.length - (i + 1)) 0, point)
  | none => (1 :: List.replicate digits.length 0, point + 1)

/-- The digits to the place kept, rounded by the first digit cut off. -/
def keepDigits (digits : List Nat) (point keep : Nat) : List Nat × Nat :=
  if digits.length ≤ keep then (digits ++ List.replicate (keep - digits.length) 0, point)
  else if 5 ≤ digits.getD keep 0 then countUp (digits.take keep) point
  else (digits.take keep, point)

/-- The 15 significant digits rounded to `decimals` places: whether negative,
the integer digits, the fraction digits; none from `1E+15`. -/
def fixed (n : F64) (decimals : Nat) : Option (Bool × List Char × List Char) := do
  let (mantissa, exp) ← splitOnce 'e' (scientificText n.abs)
  let exp ← parseI32 exp
  if 15 ≤ exp then none
  else
    let digits := (mantissa.filter isDigit).map fun c => c.toNat - 48
    -- Below one, the zeros after the point and the one before it are digits too.
    let (digits, point) :=
      if exp < 0 then (List.replicate exp.natAbs 0 ++ digits, 1)
      else (digits, (exp + 1).toNat)
    let (digits, point) := keepDigits digits point (point + decimals)
    let neg := isSignNegative n && digits.any (· ≠ 0)
    let int := digits.take point
    let lead := (int.findIdx? (· ≠ 0)).getD (int.length - 1)
    some (neg, (int.drop lead).map Nat.digitChar, (digits.drop point).map Nat.digitChar)

/-- Integer digits with the separator wherever full groups of three follow. -/
def grouped (grouping : Bool) (sep : Char) (int : List Char) : List Char :=
  int.zipIdx.flatMap fun (c, i) =>
    if grouping ∧ 0 < i ∧ (int.length - i) % 3 = 0 then [sep, c] else [c]

/-- A number as a measure's format shows it. -/
def formatNumber (n : F64) (format : Option NumberFormat) (locale : Locale) : List Char :=
  let general := displayNumber toText n
  match format with
  | none => general
  | some f =>
    let digits :=
      if n.isFinite = false then none
      else
        match f.decimals with
        | some d => fixed n d
        | none =>
          if general.contains 'E' then none
          else
            let (int, frac) := (splitOnce '.' general).getD (general, [])
            match int with
            | '-' :: int => some (true, int, frac)
            | int => some (false, int, frac)
    match digits with
    | none => general.map fun c => if c = '.' then locale.decimal else c
    | some (neg, int, frac) =>
      (if neg then ['-'] else []) ++ grouped f.grouping locale.group int ++
        (if frac = [] then [] else locale.decimal :: frac)

end Number

end Improv.CoreModel
