import Mathlib.Algebra.Group.Nat.Defs
import Mathlib.Data.Nat.Log
import Mathlib.Tactic.Common
/-!
# Binary64 numbers

Double-precision numbers as exact quantities: every finite double is a whole
number of units of `2 ^ (-1074)`, so a finite number is a sign and a count of
units that fits a 53-bit significand.  The sign of a zero is kept, since the
arithmetic of doubles distinguishes the two zeros; all NaNs are one value.
Every operation is the exact result rounded to the nearest double, ties to
even.
-/

namespace Improv.Lib

/-- A magnitude, in units of `2 ^ (-1074)`, that a double can hold: below the
overflow threshold and with at most 53 significant bits. -/
def representable (units : Nat) : Bool :=
  decide (units < 2 ^ 2098) && decide (units % 2 ^ (units.log2 - 52) = 0)

/-- A binary64 number. -/
inductive F64
  | nan
  | inf (neg : Bool)
  | finite (neg : Bool) (units : Nat) (fits : representable units = true)
deriving DecidableEq

namespace F64

theorem representable_zero : representable 0 = true := by
  decide +kernel

attribute [irreducible] representable

/-- Positive zero. -/
def zero : F64 := .finite false 0 representable_zero

instance : Inhabited F64 := ⟨zero⟩

/-! ## Rounding -/

/-- The multiple of the unit in the last place nearest to `num / den`, ties to
even. -/
def roundUnits (num den : Nat) : Nat :=
  let scale := 2 ^ ((num / den).log2 - 52)
  let quotient := num / (den * scale)
  let rest := 2 * (num % (den * scale))
  let up := den * scale < rest || (rest == den * scale && quotient % 2 == 1)
  (if up then quotient + 1 else quotient) * scale

/-- A magnitude with a sign; one past the largest finite number is infinite. -/
def ofUnits (neg : Bool) (units : Nat) : F64 :=
  if h : representable units then .finite neg units h else .inf neg

/-- One, in units. -/
def one : Nat := 2 ^ 1074

/-- The double nearest to `num / den`. -/
def ofRatio (neg : Bool) (num den : Nat) : F64 :=
  ofUnits neg (roundUnits (num * one) den)

def ofNat (n : Nat) : F64 := ofRatio false n 1

def ofInt (i : Int) : F64 := ofRatio (i < 0) i.natAbs 1

/-! ## Arithmetic and comparison -/

def isNaN : F64 → Bool
  | nan => true
  | _ => false

def neg : F64 → F64
  | nan => nan
  | inf s => inf !s
  | finite s u h => finite (!s) u h

def abs : F64 → F64
  | nan => nan
  | inf _ => inf false
  | finite _ u h => finite false u h

/-- The signed count of units of a finite number. -/
def signed (s : Bool) (u : Nat) : Int := if s then -(u : Int) else u

def add : F64 → F64 → F64
  | nan, _ | _, nan => nan
  | inf s, inf t => if s = t then inf s else nan
  | inf s, _ | _, inf s => inf s
  | finite s u _, finite t v _ =>
    let sum := signed s u + signed t v
    if sum = 0 then ofUnits (s && t) 0
    else ofUnits (sum < 0) (roundUnits sum.natAbs 1)

def sub (a b : F64) : F64 := a.add b.neg

def mul : F64 → F64 → F64
  | nan, _ | _, nan => nan
  | inf s, inf t => inf (s != t)
  | inf s, finite t v _ | finite t v _, inf s => if v = 0 then nan else inf (s != t)
  | finite s u _, finite t v _ => ofUnits (s != t) (roundUnits (u * v) one)

def div : F64 → F64 → F64
  | nan, _ | _, nan | inf _, inf _ => nan
  | inf s, finite t _ _ => inf (s != t)
  | finite s _ _, inf t => ofUnits (s != t) 0
  | finite s u _, finite t v _ =>
    if v = 0 then if u = 0 then nan else inf (s != t)
    else ofUnits (s != t) (roundUnits (u * one) v)

/-- `<` on doubles: false whenever a side is NaN. -/
def lt : F64 → F64 → Bool
  | nan, _ | _, nan => false
  | inf s, inf t => s && !t
  | inf s, finite .. => s
  | finite .., inf t => !t
  | finite s u _, finite t v _ => decide (signed s u < signed t v)

/-- `==` on doubles: NaN equals nothing and the two zeros are equal. -/
def eq : F64 → F64 → Bool
  | nan, _ | _, nan => false
  | inf s, inf t => s == t
  | inf _, finite .. | finite .., inf _ => false
  | finite s u _, finite t v _ => decide (signed s u = signed t v)

def le (a b : F64) : Bool := a.lt b || a.eq b

def isFinite : F64 → Bool
  | finite .. => true
  | _ => false

/-- The integer nearest to a finite number, ties away from zero; 0 for the
others. -/
def round : F64 → Int
  | finite s u _ => signed s ((2 * u + one) / (2 * one))
  | _ => 0

/-! ## Bits -/

/-- The bits of a double; NaN as the quiet one. -/
def toBits : F64 → UInt64
  | nan => .ofNat (0x7FF8 * 2 ^ 48)
  | inf s => .ofNat ((if s then 2 ^ 63 else 0) + 0x7FF * 2 ^ 52)
  | finite s u _ =>
    let e := u.log2 - 52
    .ofNat ((if s then 2 ^ 63 else 0) + e * 2 ^ 52 + u / 2 ^ e)

/-- The double that some bits are: sign, eleven bits of exponent, 52 of
fraction. -/
def ofBits (bits : UInt64) : F64 :=
  let n := bits.toNat
  let s := decide (2 ^ 63 ≤ n)
  let exponent := n / 2 ^ 52 % 2 ^ 11
  let fraction := n % 2 ^ 52
  if exponent = 0x7FF then if fraction = 0 then inf s else nan
  else if exponent = 0 then ofUnits s fraction
  else ofUnits s ((2 ^ 52 + fraction) * 2 ^ (exponent - 1))

end F64

end Improv.Lib
