import Improv.Engine.Plan
/-!
# Cell operations

The operations the engine maps over cells.  The built-in functions of a cell,
the reductions of a group and the texts of numbers and dates are parameters:
the evaluators call them and do nothing else with them.
-/

namespace Improv.Engine

open Improv.Lib Improv.CoreModel

/-- One group's rows, in item order: the positions of each row's items, its
values, and how many cells the reduced categories could hold. -/
structure Rows where
  pos : List (List Nat)
  vals : List (List CellValue)
  capacity : Nat
deriving DecidableEq

/-- The functions the engine applies to cells and to groups of rows. -/
structure Kernels where
  /-- A built-in function of its arguments' cells. -/
  eval : FuncId → List CellValue → CellValue
  /-- A group's single result. -/
  reduce : FuncId → Rows → List CellValue → CellValue
  /-- A group's list of results. -/
  array : FuncId → Rows → List CellValue → List CellValue
  /-- A group's results per row. -/
  perItem : FuncId → Rows → List CellValue → List CellValue
  /-- A group's results per row over a window. -/
  windows : FuncId → Rows → List CellValue → Window → List CellValue
  /-- A block of rows reduced, as bytes. -/
  part : FuncId → Rows → List Nat
  /-- The result of a group's blocks, in block order. -/
  finish : FuncId → List (List Nat) → CellValue
  /-- `x ^ y` on doubles. -/
  powf : F64 → F64 → F64
  displayNumber : F64 → String
  displayDate : Int → String
  toLowercase : String → String

namespace Kernels

/-- A number result; an infinity or NaN is `#NUM!`. -/
def num (x : F64) : CellValue :=
  if x.isFinite then .ofF64 x else .err Err.NUM

/-- The longest text a formula makes, in characters. -/
def maxText : Nat := 32767

def okText (s : String) : Except Nat CellValue :=
  if maxText < s.utf8ByteSize && maxText < s.length then .error Err.VALUE else .ok (.text s)

variable (K : Kernels)

def textOf : CellValue → Except Nat String
  | .text s => .ok s
  | .num bits => .ok (K.displayNumber (.ofBits bits))
  | .bool true => .ok "TRUE"
  | .bool false => .ok "FALSE"
  | .date ms => .ok (K.displayDate ms)
  | .err c => .error c

/-- The dates a timestamp in milliseconds can be. -/
def validMillis (ms : Int) : Bool :=
  decide (-8334601228800000 ≤ ms) && decide (ms ≤ 8210266876799999)

def datePlusDays (d : Int) (days : F64) : CellValue :=
  let ms := days.mul (.ofNat 86400000)
  if !ms.isFinite || (F64.ofNat (10 ^ 17)).lt ms.abs then .err Err.NUM
  else
    let v := d + ms.round
    if validMillis v then .date v else .err Err.NUM

/-- Whether a finite number has a fractional part. -/
def hasFraction : F64 → Bool
  | .finite _ u _ => u % F64.one != 0
  | _ => true

/-- `x ^ y` with the spreadsheet edge cases. -/
def power (x y : F64) : CellValue :=
  if x.eq .zero && y.lt .zero then .err Err.DIV0
  else if x.lt .zero && hasFraction y then .err Err.NUM
  else num (K.powf x y)

/-- Truthiness for the logical operators; errors are false. -/
def truthy : CellValue → Bool
  | .bool b => b
  | .num bits => !(F64.ofBits bits).eq .zero
  | .text s => !s.isEmpty
  | .date ms => ms != 0
  | .err _ => false

def applyUnary : UnaryOp → CellValue → CellValue
  | _, .err c => .err c
  | .neg, v =>
    match v.asNum with
    | some x => num x.neg
    | none => .err Err.VALUE
  | .not, v => .bool !truthy v

/-- Whether two values are equal: numbers as numbers, others exactly. -/
def same (a b : CellValue) : Bool :=
  match a.asNum, b.asNum with
  | some x, some y => x.eq y
  | _, _ => decide (a = b)

/-- How two values of one ordered type compare, numbers aside. -/
def compareSame : CellValue → CellValue → Option Ordering
  | .text x, .text y => some (compare x y)
  | .date x, .date y => some (compare x y)
  | .bool x, .bool y => some (compare x y)
  | _, _ => none

/-- `a & b`. -/
def concat (a b : CellValue) : CellValue :=
  match K.textOf a, K.textOf b with
  | .ok x, .ok y =>
    match okText (x ++ y) with
    | .ok v => v
    | .error c => .err c
  | .error c, _ | .ok _, .error c => .err c

/-- A comparison of two values that are not both numbers. -/
def compareResult (op : BinaryOp) (o : Option Ordering) : CellValue :=
  match op, o with
  | .lt, some o => .bool o.isLT
  | .le, some o => .bool o.isLE
  | .gt, some o => .bool o.isGT
  | .ge, some o => .bool o.isGE
  | _, _ => .err Err.VALUE

/-- Arithmetic and comparison of two numbers. -/
def applyNumbers (op : BinaryOp) (x y : F64) : CellValue :=
  match op with
  | .add => num (x.add y)
  | .sub => num (x.sub y)
  | .mul => num (x.mul y)
  | .div => if y.eq .zero then .err Err.DIV0 else num (x.div y)
  | .pow => K.power x y
  | .lt => .bool (x.lt y)
  | .le => .bool (x.le y)
  | .gt => .bool (y.lt x)
  | .ge => .bool (y.le x)
  | .eq | .ne | .and | .or | .concat => .err Err.VALUE

/-- Milliseconds in a day. -/
def dayMs : F64 := .ofNat 86400000

/-- Arithmetic and ordering of two values, dates included. -/
def applyOrdered (op : BinaryOp) (a b : CellValue) : CellValue :=
  match op, a, b with
  | .add, .date d, .num bits => datePlusDays d (.ofBits bits)
  | .sub, .date d, .num bits => datePlusDays d (F64.ofBits bits).neg
  | .add, .num bits, .date d => datePlusDays d (.ofBits bits)
  | .sub, .date x, .date y => .ofF64 ((F64.ofInt (x - y)).div dayMs)
  | op, a, b =>
    match a.asNum, b.asNum with
    | some x, some y => K.applyNumbers op x y
    | _, _ => compareResult op (compareSame a b)

/-- A binary operator on two cells; an error operand propagates, the left one
first. -/
def applyBinary (op : BinaryOp) (a b : CellValue) : CellValue :=
  match a, b with
  | .err c, _ => .err c
  | _, .err c => .err c
  | a, b =>
    match op with
    | .eq => .bool (same a b)
    | .ne => .bool !(same a b)
    | .and => .bool (truthy a && truthy b)
    | .or => .bool (truthy a || truthy b)
    | .concat => K.concat a b
    | op => K.applyOrdered op a b

end Kernels

end Improv.Engine
