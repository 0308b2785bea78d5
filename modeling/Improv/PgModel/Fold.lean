import Mathlib.Data.Fin.VecNotation
import Mathlib.Data.Prod.Lex
import Improv.CoreModel.Model
import Improv.Engine.CellValue
import Improv.Lib.Decimal
/-!
# Folds of rows

How the rows on one coordinate of an aggregated binding fold into its cell: row
counts, an exact total for `sum` and `avg`, and each distinct value's row count
for `min`, `max` and `count_distinct`.  Counts and nanos are integers.
-/

namespace Improv.PgModel

open Improv.Lib Improv.CoreModel Improv.Engine

/-- How the rows on one coordinate fold into its cell. -/
inductive Agg
  | sum
  | avg
  | min
  | max
  | count
  | countDistinct
deriving DecidableEq

/-- Why a batch cannot be applied cell by cell. -/
structure Rebuild where
  reason : String
deriving DecidableEq

/-- Compares two texts as Postgres does under one collation. -/
abbrev TextCmp := String → String → Ordering

/-- How a binding's text values compare: by a compare under which texts are
equal only when their bytes are, or as only Postgres can tell. -/
inductive Collation
  | deterministic (cmp : TextCmp)
  | nondeterministic

/-! ## Postgres types -/

def BPCHAR : Nat := 1042

def BOOL : Nat := 16

def FLOAT4 : Nat := 700

def FLOAT8 : Nat := 701

def NUMERIC : Nat := 1700

def isFloat (oid : Nat) : Bool := oid = FLOAT4 || oid = FLOAT8

def trimEndMatches (c : Char) (s : String) : String :=
  .ofList (s.toList.reverse.dropWhile (· = c)).reverse

/-! ## Values as text -/

/-- The calendar library: the formats a date is tried in, and the dates it can
hold. -/
structure Calendar where
  parseZoned : String → Option DateTime
  parseNaive : String → Option DateTime
  parseDay : String → Option DateTime
  fromTimestampMillis : Int → Option DateTime

/-- Where nothing is a date. -/
def noCalendar : Calendar := ⟨fun _ => none, fun _ => none, fun _ => none, fun _ => none⟩

def timestampMicros (t : DateTime) : Int :=
  (t.days * 86400 + t.secs) * 1000000 + (t.nanos / 1000 : Nat)

/-- A timestamp or date at the millisecond, rounded half away from zero. -/
def datetime (cal : Calendar) (s : String) : Option DateTime :=
  ((cal.parseZoned s).or ((cal.parseNaive s).or (cal.parseDay s))).bind fun t =>
    let us := timestampMicros t
    cal.fromTimestampMillis (us.tdiv 1000 + (us.tmod 1000).tdiv 500)

/-- The refusal of a text that is no value. -/
def unreadable : Rebuild := ⟨"value the loader would not read"⟩

/-- Value text as a value of a measure's type; `bpchar` text is padded. -/
def parse (cal : Calendar) (vt : ValueType) (s : String) (bpchar : Bool) :
    Except Rebuild Value :=
  let v :=
    match vt with
    | .number => (Decimal.parseF64 s).map Value.number
    | .boolean =>
      if s = "t" ∨ s = "true" then some (.boolean true)
      else if s = "f" ∨ s = "false" then some (.boolean false)
      else none
    | .text => some (.text (if bpchar then trimEndMatches ' ' s else s))
    | .dateTime => (datetime cal s).map Value.dateTime
    | .enum => none
  v.elim (.error unreadable) .ok

/-! ## Exact totals -/

/-- A summed number: exact nanos with the text's decimal places, or a float. -/
inductive Num
  | nanos (n : Int) (scale : Fin 10)
  | float (f : F64)
deriving DecidableEq

/-- One, in nanos. -/
def NANOS : Nat := 1000000000

/-- Plain decimal text, at most 20 integer digits and 9 decimals, as nanos and
its decimal places. -/
def nanos (s : String) : Option (Int × Fin 10) :=
  let (neg, body) := Decimal.sign s.toList
  let (int, frac) := (Decimal.splitOnce '.' body).getD (body, [])
  if (int = [] && frac = []) || 20 < int.length || !int.all Decimal.isDigit ||
      !frac.all Decimal.isDigit then none
  else if h : frac.length < 10 then
    let x : Nat := Decimal.ofDigits int * NANOS + Decimal.ofDigits frac * 10 ^ (9 - frac.length)
    some (if neg then -(x : Int) else x, ⟨frac.length, h⟩)
  else none

namespace Num

def isFinite : Num → Bool
  | nanos .. => true
  | float f => f.isFinite

def parse (s : String) (float : Bool) : Except Rebuild Num :=
  match (PgModel.nanos s).filter fun _ => !float with
  | some (n, scale) => .ok (.nanos n scale)
  | none => (Decimal.parseF64 s).elim (.error unreadable) fun f => .ok (.float f)

end Num

/-- The exact sum of finite floats: a two's-complement integer in units of the
least subnormal, over 64-bit limbs, the lowest first. -/
structure Exact where
  limbs : List UInt64
deriving DecidableEq

namespace Exact

def LIMBS : Nat := 36

def default : Exact := ⟨List.replicate LIMBS 0⟩

def overflowingAdd (a b : UInt64) : UInt64 × Bool := (a + b, 2 ^ 64 ≤ a.toNat + b.toNat)

def overflowingSub (a b : UInt64) : UInt64 × Bool := (a - b, a.toNat < b.toNat)

/-- A limb with a word and a carry added or taken away, and the carry out. -/
def limbStep (neg : Bool) (limb w : UInt64) (carry : Bool) : UInt64 × Bool :=
  let c : UInt64 := if carry then 1 else 0
  if neg then
    let (s, c1) := overflowingSub limb w
    let (s, c2) := overflowingSub s c
    (s, c1 || c2)
  else
    let (s, c1) := overflowingAdd limb w
    let (s, c2) := overflowingAdd s c
    (s, c1 || c2)

/-- The words added to the limbs from the `j`th after the first on. -/
def addWords (neg : Bool) : Nat → List UInt64 → Bool → List UInt64 → List UInt64
  | _, _, _, [] => []
  | j, words, carry, limb :: limbs =>
    let w := words.headD 0
    if w = 0 ∧ carry = false then
      if 2 ≤ j then limb :: limbs
      else limb :: addWords neg (j + 1) words.tail carry limbs
    else
      let (limb, carry) := limbStep neg limb w carry
      limb :: addWords neg (j + 1) words.tail carry limbs

/-- Adds `k` times a finite float. -/
def add (a : Exact) (x : F64) (k : Int) : Exact :=
  let bits := x.toBits.toNat
  let e := bits / 2 ^ 52 % 2 ^ 11
  let frac := bits % 2 ^ 52
  let (m, shift) := if e = 0 then (frac, 0) else (frac + 2 ^ 52, e - 1)
  let v := m * k.natAbs
  let first := shift / 64
  let off := shift % 64
  -- The product and the shift fill at most three words.
  let shifted := v * 2 ^ off
  let words : List UInt64 :=
    [.ofNat shifted, .ofNat (shifted / 2 ^ 64), .ofNat (shifted / 2 ^ 128)]
  let neg := (2 ^ 63 ≤ bits) != (k < 0)
  ⟨a.limbs.take first ++ addWords neg 0 words false (a.limbs.drop first)⟩

/-- The limbs of the negated number. -/
def negate : Bool → List UInt64 → List UInt64
  | _, [] => []
  | carry, l :: ls =>
    let (s, c) := overflowingAdd (~~~l) (if carry then 1 else 0)
    s :: negate c ls

def ofLimbs (limbs : List UInt64) : Nat := limbs.foldr (fun l n => l.toNat + 2 ^ 64 * n) 0

/-- A normal float below `2 ^ 64` times `2 ^ p`. -/
def pow2Scale (x : F64) (p : Int) : F64 :=
  let pow2 (p : Int) : F64 := .ofBits (.ofNat ((p + 1023).toNat * 2 ^ 52))
  if 1023 < p then .inf false
  else if p < -1022 then (x.mul (pow2 (-1022))).mul (pow2 (p + 1022))
  else x.mul (pow2 p)

/-- The sum, rounded once to the nearest float: its top 64 bits, with any bit
below them kept in the last. -/
def value (a : Exact) : F64 :=
  let neg := decide (2 ^ 63 ≤ (a.limbs.getLastD 0).toNat)
  let mag := ofLimbs (if neg then negate true a.limbs else a.limbs)
  let sign : F64 := .ofInt (if neg then -1 else 1)
  if mag = 0 then .zero
  else
    let len := mag.log2 + 1
    if len ≤ 64 then (sign.mul (.ofNat mag)).mul (.ofBits 1)
    else
      let low := len - 64
      let sticky := mag % 2 ^ low ≠ 0
      let top := mag / 2 ^ low
      let x : F64 := .ofNat (if sticky then top ||| 1 else top)
      sign.mul (pow2Scale x ((low : Int) - 1074))

end Exact

/-! ## Dividing a decimal sum -/

/-- The base-10000 position of a numeric's first digit, and that digit. -/
def weight (int frac9 : Nat) : Int × Nat :=
  if 0 < int then
    let w := Nat.log 10 int / 4
    (w, int / 10000 ^ w)
  else
    let f12 := frac9 * 1000
    ([((-1 : Int), f12 / 100000000), (-2, f12 / 10000 % 10000), (-3, f12 % 10000)].find?
      fun x => 0 < x.2).getD (0, 0)

/-- The first digits of `rem / d`, and what remains. -/
def divisionDigits (d : Nat) : Nat → Nat → List Nat × Nat
  | 0, rem => ([], rem)
  | k + 1, rem =>
    let (digits, rest) := divisionDigits d k (rem * 10 % d)
    (rem * 10 / d :: digits, rest)

/-- One added in the last place, and whether it carries out of the first. -/
def roundUp : List Nat → List Nat × Bool
  | [] => ([], true)
  | x :: xs =>
    let (ys, carry) := roundUp xs
    if carry then
      let y := (x + 1) % 10
      (y :: ys, y = 0)
    else (x :: ys, false)

/-- Postgres's `x / n` of a numeric `x` in nanos of a display scale, rounded to
its result scale and read as a float. -/
def numericDiv (x : Int) (scale : Nat) (n : Int) : F64 :=
  let a := x.natAbs
  let (w1, d1) := weight (a / NANOS) (a % NANOS)
  let (w2, d2) := weight n.toNat 0
  let qweight := w1 - w2 - if d1 ≤ d2 then 1 else 0
  let rscale := (max 0 (min (max (16 - 4 * qweight) scale) 1000)).toNat
  let d := NANOS * n.toNat
  let (digits, rem) := divisionDigits d rscale (a % d)
  let (digits, carry) := if 5 ≤ rem * 10 / d then roundUp digits else (digits, false)
  let int := a / d + if carry then 1 else 0
  let frac := String.ofList (digits.map Nat.digitChar)
  let sign := if x < 0 then "-" else ""
  (Decimal.parseF64 s!"{sign}{int}.{frac}0").getD .nan

/-- A total that removing a value undoes exactly: decimals in nanos, other
finite values exactly, the infinities and NaNs counted. -/
structure Total where
  nanos : Int
  /-- Rows summed in nanos, by decimal places. -/
  scales : Fin 10 → Int
  float : Option Exact
  /-- Rows summed as floats. -/
  floats : Int
  posInf : Int
  negInf : Int
  nan : Int

namespace Total

def default : Total := ⟨0, fun _ => 0, none, 0, 0, 0, 0⟩

/-- Counts `k` more rows of a number's kind without adding to the sum. -/
def count (t : Total) (x : Num) (k : Int) : Total :=
  match x with
  | .nanos _ scale => { t with scales := Function.update t.scales scale (t.scales scale + k) }
  | .float _ => { t with floats := t.floats + k }

def add (t : Total) (x : Num) (k : Int) : Total :=
  match x with
  | .nanos n scale =>
    { t with
      nanos := t.nanos + n * k
      scales := Function.update t.scales scale (t.scales scale + k) }
  | .float .nan => { t with nan := t.nan + k }
  | .float (.inf false) => { t with posInf := t.posInf + k }
  | .float (.inf true) => { t with negInf := t.negInf + k }
  | .float f =>
    { t with
      float := some ((t.float.getD .default).add f k)
      floats := t.floats + k }

def padNine (n : Nat) : String :=
  .ofList ((Nat.toDigits 10 n).leftpad 9 '0')

def value (t : Total) : F64 :=
  if 0 < t.nan then .nan
  else if 0 < t.posInf ∧ 0 < t.negInf then .nan
  else if 0 < t.posInf then .inf false
  else if 0 < t.negInf then .inf true
  else
    let q := t.nanos.tdiv NANOS
    let r := padNine (t.nanos.tmod NANOS).natAbs
    let sign := if t.nanos < 0 ∧ q = 0 then "-" else ""
    let exact := (Decimal.parseF64 s!"{sign}{q}.{r}").getD .nan
    t.float.elim exact fun f => exact.add f.value

/-- The mean of `n` rows: a float column's in floats, else as Postgres divides
a numeric. -/
def avg (t : Total) (n : Int) (float : Bool) : F64 :=
  let special := 0 < t.posInf || 0 < t.negInf || 0 < t.nan
  if float || special || 0 < t.floats then t.value.div (.ofInt n)
  else
    let scale := ((List.finRange 10).reverse.find? fun i => 0 < t.scales i).elim 0 Fin.val
    numericDiv t.nanos scale n

end Total

/-! ## Kept values -/

/-- A value as `min`, `max` and `count_distinct` order and compare it. -/
inductive Key
  | num (k : Int)
  | bool (b : Bool)
  | date (ms : Int)
  | text (s : String)
deriving DecidableEq

/-- A double's bits as a signed number in the order of the doubles. -/
def ordBits (x : F64) : Int :=
  let b := x.toBits.toNat
  if b < 2 ^ 63 then b else -(b - 2 ^ 63 : Nat) - 1

def ordBitsInverse (k : Int) : UInt64 :=
  if 0 ≤ k then .ofNat k.toNat else .ofNat (2 ^ 63 + (-k - 1).toNat)

namespace Key

/-- Variants in declaration order, then the payload. -/
def orderKey : Key → ℕ ×ₗ ℤ ×ₗ String
  | .num k => toLex (0, toLex (k, ""))
  | .bool b => toLex (1, toLex (if b then 1 else 0, ""))
  | .date ms => toLex (2, toLex (ms, ""))
  | .text s => toLex (3, toLex (0, s))

theorem orderKey_injective : Function.Injective orderKey := by
  intro a b h
  cases a <;> cases b <;> simp_all [orderKey]
  split at h <;> split at h <;> simp_all

instance : LinearOrder Key := LinearOrder.lift' orderKey orderKey_injective

/-- A value in `min`/`max` order; the two zeros are one key. -/
def order : Value → Except Rebuild Key
  | .number x => .ok (.num (ordBits (x.add .zero)))
  | .boolean b => .ok (.bool b)
  | .dateTime t => .ok (.date (timestampMillis t))
  | .text s => .ok (.text s)
  | _ => .error unreadable

def value (cal : Calendar) : Key → Option Value
  | .num k => some (.number (.ofBits (ordBitsInverse k)))
  | .bool b => some (.boolean b)
  | .date ms => (cal.fromTimestampMillis ms).map Value.dateTime
  | .text s => some (.text s)

end Key

/-- Whether a value is a better `min`, or `max`, than another: texts by the
compare, the rest by their key order. -/
def beats (agg : Agg) (cmp : TextCmp) (a b : Key) : Bool :=
  let o :=
    match a, b with
    | .text a, .text b => cmp a b
    | _, _ => compare a b
  if agg = .max then o.isGT else o.isLT

/-- A value's text, two values Postgres finds equal having the same. -/
def distinctText (oid : Nat) (s : String) : String :=
  if oid = BPCHAR then trimEndMatches ' ' s
  else if oid = BOOL then (s.toList.head?.filter fun c => c.toNat < 128).elim s String.singleton
  else if oid = NUMERIC ∧ '.' ∈ s.toList then trimEndMatches '.' (trimEndMatches '0' s)
  else if isFloat oid ∧ s = "-0" then "0"
  else s

/-- What one row adds to a fold. -/
inductive Part
  | null
  | count
  | total (x : Num)
  | key (k : Key)
deriving DecidableEq

/-- What a row whose value has a text adds to a fold. -/
def partOf (cal : Calendar) (agg : Agg) (vt : ValueType) (oid : Nat) (s : String) :
    Except Rebuild Part :=
  match agg with
  | .count => .ok .count
  | .countDistinct => .ok (.key (.text (distinctText oid s)))
  | .sum | .avg => (Num.parse s (isFloat oid)).map Part.total
  | .min | .max => do
    let v ← parse cal vt s (oid = BPCHAR)
    let k ← Key.order v
    .ok (.key k)

/-! ## Folds -/

/-- One coordinate's rows, as its aggregate needs them. -/
structure Fold where
  /-- Rows, NULL values included. -/
  rows : Int
  /-- Rows with a value. -/
  n : Int
  total : Total
  /-- Each value's row count. -/
  values : SortedMap Key Int
  /-- A text `min` or `max` under a collation, when known. -/
  best : Option Key

namespace Fold

def default : Fold := ⟨0, 0, .default, .empty, none⟩

/-- Adds, or removes, `k` rows of a part; false when that removes rows the fold
does not have. -/
def add (f : Fold) (p : Part) (k : Int) : Fold × Bool :=
  let f := { f with rows := f.rows + k }
  let counted (f : Fold) : Fold × Bool :=
    let f := { f with n := f.n + k }
    (f, 0 ≤ f.rows && 0 ≤ f.n)
  match p with
  | .null => (f, 0 ≤ f.rows)
  | .count => counted f
  | .total x => counted { f with total := f.total.add x k }
  | .key key =>
    let now := (f.values.get? key).getD 0 + k
    if now = 0 then counted { f with values := f.values.erase key }
    else
      let f := { f with values := f.values.insert key now }
      if now < 0 then (f, false) else counted f

/-- A part just added may be the new best. -/
def offer (f : Fold) (p : Part) (agg : Agg) (cmp : Option TextCmp) : Fold :=
  match p, cmp, f.best with
  | .key k, some cmp, some best => if beats agg cmp k best then { f with best := some k } else f
  | _, _, _ => f

/-- The best of some values, the earlier of two that tie. -/
def bestOf (agg : Agg) (cmp : TextCmp) : List Key → Option Key
  | [] => none
  | k :: ks => some (ks.foldl (fun b k => if beats agg cmp k b then k else b) k)

/-- The cell the rows make; a text's best is looked for anew only when it went. -/
def cell (cal : Calendar) (f : Fold) (agg : Agg) (oid : Nat) (cmp : Option TextCmp) :
    Option Value × Fold :=
  if f.rows ≤ 0 then (none, f)
  else
    match agg with
    | .count => (some (.number (.ofInt f.n)), f)
    | .countDistinct => (some (.number (.ofNat f.values.size)), f)
    | agg =>
      if f.n ≤ 0 then (none, f)
      else
        match agg with
        | .sum => (some (.number f.total.value), f)
        | .avg => (some (.number (f.total.avg f.n (isFloat oid))), f)
        | agg =>
          match cmp with
          | some cmp =>
            let f :=
              if f.best.any f.values.contains then f
              else { f with best := bestOf agg cmp f.values.keys }
            (f.best.bind (Key.value cal), f)
          | none =>
            let k := if agg = .min then f.values.keys.head? else f.values.keys.getLast?
            (k.bind (Key.value cal), f)

end Fold

end Improv.PgModel
