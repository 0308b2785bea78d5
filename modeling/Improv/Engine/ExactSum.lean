import Improv.Lib.Binary64
import Improv.Lib.SignedDigits
/-!
# Exact summation

The accumulator of `SUM` and `AVERAGE`: a fixed-point sum in units of the least
subnormal, held as 67 signed 32-bit digits with carries put off, its compact
canonical form, the sliding window over it, and the one rounding at the end.
An addition that leaves 64 bits, or an index past the digits, stops the
program: such a step has no result.
-/

namespace Improv.Engine

open Lib Lib.SignedDigits

/-- The accumulator's digits. -/
def DIGITS : Nat := 67

/-- Terms between carry passes. -/
def CARRY_EVERY : Nat := 2 ^ 20

/-- What joined a sum besides finite digits: a term other than -0.0, the two
infinities, a NaN. -/
structure SumFlags where
  notNegZero : Bool
  posInf : Bool
  negInf : Bool
  nan : Bool
deriving DecidableEq, Inhabited

namespace SumFlags

def none : SumFlags := ⟨false, false, false, false⟩

def or (f g : SumFlags) : SumFlags :=
  ⟨f.notNegZero || g.notNegZero, f.posInf || g.posInf, f.negInf || g.negInf, f.nan || g.nan⟩

end SumFlags

/-- An `i64` result, if it fits. -/
def i64 (x : Int) : Option Int := if -2 ^ 63 ≤ x ∧ x < 2 ^ 63 then some x else none

/-- A running exact sum. -/
structure ExactSum where
  d : List Int
  /-- The digits that may be nonzero: `lo..hi`. -/
  lo : Nat
  hi : Nat
  /-- Terms since the last carry pass. -/
  terms : Nat
  flags : SumFlags
deriving DecidableEq

/-- A compact exact sum: the balanced digits from the lowest nonzero one up. -/
structure Exact where
  lo : Nat
  d : List Int
  flags : SumFlags
deriving DecidableEq

/-- The sign bit, exponent and fraction of a double's bits. -/
def bitFields (x : F64) : Bool × Nat × Nat :=
  let bits := x.toBits.toNat
  (bits / 2 ^ 63 == 1, bits / 2 ^ 52 % 2 ^ 11, bits % 2 ^ 52)

/-- Whether a double's bits are those of -0.0. -/
def isNegZero (x : F64) : Bool := x.toBits == (F64.ofUnits true 0).toBits

namespace ExactSum

/-- The sum of nothing. -/
def default : ExactSum := ⟨List.replicate DIGITS 0, DIGITS, 0, 0, .none⟩

/-- `self.d[i] += w`. -/
def addDigit (d : List Int) (i : Nat) (w : Int) : Option (List Int) := do
  let x ← d[i]?
  let y ← i64 (x + w)
  some (d.set i y)

/-- `self.d[i + j] += w` for each of some digits in turn. -/
def addDigits (d : List Int) (i : Nat) : List Int → Option (List Int)
  | [] => some d
  | w :: ws => do
    let d ← addDigit d i w
    addDigits d (i + 1) ws

/-- What digit `i` carries to the next one when it holds `x`. -/
def carryOut (i : Nat) (x : Int) : Option Int :=
  if i + 1 = DIGITS then some 0 else (i64 (x + 2 ^ 31)).map (· / 2 ^ 32)

/-- The digits from `i` up after the carry loop enters digit `i` with carry
`c`, and where the loop stops. -/
def carryFrom (hi : Nat) (i : Nat) (c : Int) : List Int → Option (List Int × Nat)
  | [] => if i < hi ∨ c ≠ 0 then none else some ([], i)
  | x :: rest =>
    if i < hi ∨ c ≠ 0 then do
      let x ← i64 (x + c)
      let c ← carryOut i x
      let y ← i64 (x - c * 2 ^ 32)
      let (rest, j) ← carryFrom hi (i + 1) c rest
      some (y :: rest, j)
    else some (x :: rest, i)

/-- Bring every digit into `[-2 ^ 31, 2 ^ 31)`.  The last digit keeps its
carries. -/
def carry (a : ExactSum) : Option ExactSum := do
  let (upper, i) ← carryFrom a.hi a.lo 0 (a.d.drop a.lo)
  some { a with d := a.d.take a.lo ++ upper, hi := max a.hi i, terms := 0 }

def touch (a : ExactSum) (lo hi : Nat) : Option ExactSum :=
  let a := { a with lo := min a.lo lo, hi := max a.hi hi, terms := a.terms + 1 }
  if a.terms = CARRY_EVERY then a.carry else some a

/-- Add `x`. -/
def add (a : ExactSum) (x : F64) : Option ExactSum :=
  let a := if isNegZero x then a else { a with flags := { a.flags with notNegZero := true } }
  let (neg, e, frac) := bitFields x
  if e = 0x7ff then
    some { a with flags :=
      if frac ≠ 0 then { a.flags with nan := true }
      else if neg then { a.flags with negInf := true }
      else { a.flags with posInf := true } }
  else
    -- |x| = m * 2 ^ s units
    let (m, s) := if e = 0 then (frac, 0) else (frac + 2 ^ 52, e - 1)
    if m = 0 then some a
    else do
      let i := s / 32
      let v := m * 2 ^ (s % 32)
      let digits := [v % 2 ^ 32, v / 2 ^ 32 % 2 ^ 32, v / 2 ^ 64 % 2 ^ 32]
      let d ← addDigits a.d i (digits.map fun (w : Nat) => if neg then -(w : Int) else w)
      { a with d }.touch i (i + 3)

/-- Add a partial sum. -/
def addExact (a : ExactSum) (x : Exact) : Option ExactSum :=
  let a := { a with flags := a.flags.or x.flags }
  if x.d = [] then some a
  else do
    let d ← addDigits a.d x.lo x.d
    { a with d }.touch x.lo (x.lo + x.d.length)

/-- A digit forced into 32 bits. -/
def clampDigit (w : Int) : Int := max (-2 ^ 31) (min w (2 ^ 31 - 1))

/-- The sum so far, exactly, and the accumulator after its carry pass. -/
def exact (a : ExactSum) : Option (Exact × ExactSum) := do
  let a ← a.carry
  let (lo, digits) := trim a.lo ((a.d.take a.hi).drop a.lo)
  some ({ lo, d := digits.map clampDigit, flags := a.flags }, a)

end ExactSum

/-- The bits of a number up to its highest one. -/
def bitLength (w : Nat) : Nat := if w = 0 then 0 else w.log2 + 1

/-- `2 ^ p`, for `p` in -1022..=1023. -/
def pow2 (p : Int) : F64 := F64.ofBits (.ofNat ((p + 1023).toNat * 2 ^ 52))

namespace Exact

/-- The digits `d` from place `lo` up, rounded, when the last of them is `top`:
the top three digits as one integer, the sign of the rest, the top 64 bits with
a sticky bit, and the scaling. -/
def rounded (lo : Nat) (d : List Int) (top : Int) : F64 :=
  let sign : Int := if top < 0 then -1 else 1
  let dig := d.map (sign * ·)
  let base := dig.length - 3
  let w := (dig.drop base).foldr (fun x w => w * 2 ^ 32 + x) 0
  let r := ((dig.take base).reverse.find? (· ≠ 0)).getD 0
  let w := ((w - if r < 0 then 1 else 0) % 2 ^ 128).toNat
  let shift := bitLength w - 64
  let below := w % 2 ^ shift ≠ 0 ∨ r ≠ 0
  let x := F64.ofNat (w / 2 ^ shift % 2 ^ 64 ||| if below then 1 else 0)
  let p : Int := (shift + 32 * (lo + base) : Nat) - 1074
  let mag := if p < -1022 then (x.mul (pow2 (-1022))).mul (pow2 (p + 1022)) else x.mul (pow2 p)
  if sign < 0 then mag.neg else mag

/-- The sum rounded once: to the nearest double, ties to even, and as IEEE
addition treats infinities and NaNs. -/
def value (e : Exact) : F64 :=
  if e.flags.nan || (e.flags.posInf && e.flags.negInf) then .nan
  else if e.flags.posInf then .inf false
  else if e.flags.negInf then .inf true
  else match e.d.getLast? with
    | none => if e.flags.notNegZero then F64.zero else F64.zero.neg
    | some top => rounded e.lo e.d top

end Exact

/-! ## The sliding window -/

/-- How many of a window's terms are of each kind that a flag records. -/
structure SumCounts where
  notNegZero : Nat
  posInf : Nat
  negInf : Nat
  nan : Nat
deriving DecidableEq

/-- An exact sum over a sliding window. -/
structure WindowSum where
  /-- The finite terms' digits; a term leaves by adding its negation. -/
  sum : ExactSum
  n : SumCounts
deriving DecidableEq

namespace WindowSum

def default : WindowSum := ⟨.default, ⟨0, 0, 0, 0⟩⟩

/-- A `usize` counter one up or one down when `k` holds. -/
def countStep (join k : Bool) (n : Nat) : Option Nat :=
  if k then
    if join then if n + 1 < 2 ^ 64 then some (n + 1) else none
    else if n = 0 then none else some (n - 1)
  else some n

/-- A finite term joins the digits, or its negation does. -/
def stepSum (sum : ExactSum) (x : F64) (join : Bool) : Option ExactSum :=
  if x.isFinite then sum.add (if join then x else x.neg) else some sum

def step (w : WindowSum) (x : F64) (join : Bool) : Option WindowSum := do
  let n : SumCounts := {
    notNegZero := ← countStep join (!isNegZero x) w.n.notNegZero
    posInf := ← countStep join (x.eq (.inf false)) w.n.posInf
    negInf := ← countStep join (x.eq (.inf true)) w.n.negInf
    nan := ← countStep join x.isNaN w.n.nan }
  let sum ← stepSum w.sum x join
  some { sum, n }

/-- `x` joins the window. -/
def add (w : WindowSum) (x : F64) : Option WindowSum := w.step x true

/-- `x`, an earlier term, leaves the window. -/
def remove (w : WindowSum) (x : F64) : Option WindowSum := w.step x false

/-- The window's sum, rounded once, and the window after the carry pass. -/
def value (w : WindowSum) : Option (F64 × WindowSum) := do
  let (e, sum) ← w.sum.exact
  let flags : SumFlags := {
    notNegZero := 0 < w.n.notNegZero
    posInf := 0 < w.n.posInf
    negInf := 0 < w.n.negInf
    nan := 0 < w.n.nan }
  some ({ e with flags }.value, { w with sum })

end WindowSum

end Improv.Engine
