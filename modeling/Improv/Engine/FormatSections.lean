import Improv.Lib.ListLemmas
import Improv.CoreModel.Number
import Improv.Engine.CellValue
/-!
# Sections of a number format

A format code is read as sections of tokens, and a section without a date lays
out the digits of a number: its placeholders take the integer digits from the
right, the surplus at the leftmost, then the fraction digits.  An index out of
range panics.
-/

namespace Improv.Engine.Sections

open Improv.Lib Improv.Lib.Decimal Improv.CoreModel Improv.CoreModel.Number

/-- A token of a format code. -/
inductive Tok
  | lit (l : List Char)
  /-- Outside quotes: a date separator, or a fraction. -/
  | slash
  /-- A digit placeholder: `0`, `#` or `?`. -/
  | dig (c : Char)
  | point
  | comma
  | pct
  /-- `E+` or `E-` and its digit placeholders. -/
  | exp (c : Char) (plus : Bool) (width : Nat)
  | atSign
  | general
  | year (n : Nat)
  | month (n : Nat)
  | day (n : Nat)
  | hour (n : Nat)
  | minute (n : Nat)
  | second (n : Nat)
  /-- `AM/PM` or `A/P`, lowercase when written so. -/
  | amPm (full lower : Bool)
deriving DecidableEq

inductive Fault
  | panic
  | err (code : Nat)
deriving DecidableEq

/-! ## Reading a format -/

def colors : List String :=
  ["black", "blue", "cyan", "green", "magenta", "red", "white", "yellow"]

/-- What the next characters of a format are. -/
inductive Piece
  | section
  | skip
  | tok (t : Tok)

/-- The number of characters at the front that are one letter, in any case. -/
def run (ch : Char) (c : List Char) : Nat :=
  (c.takeWhile fun x => x.toLower = ch.toLower).length

def starts (w : String) (c : List Char) : Bool :=
  eqIgnoreAsciiCase (.ofList (c.take w.length)) w

/-- A character in brackets: a colour, which a text does not show. -/
def bracketed (rest : List Char) : Except Fault (Piece × Nat) :=
  match rest.findIdx? (· = ']') with
  | none => .error (.err Err.VALUE)
  | some n =>
    let inner := String.ofList (rest.take n)
    if colors.any (eqIgnoreAsciiCase inner) ∨ (toAsciiLowercase inner).startsWith "color" then
      .ok (.skip, n + 2)
    else .error (.err Err.VALUE)

def dateTok (ch : Char) (n : Nat) : Tok :=
  match ch.toLower with
  | 'y' => .year n
  | 'm' => .month n
  | 'd' => .day n
  | 'h' => .hour n
  | _ => .second n

/-- The piece at a character, and how many characters it takes. -/
def nextPiece (ch : Char) (rest : List Char) : Except Fault (Piece × Nat) :=
  if ch = ';' then .ok (.section, 1)
  else if ch = '"' then
    match rest.findIdx? (· = '"') with
    | none => .error (.err Err.VALUE)
    | some n => .ok (.tok (.lit (rest.take n)), n + 2)
  else if ch = '\\' ∨ ch = '_' ∨ ch = '*' then
    match rest with
    | [] => .error (.err Err.VALUE)
    | next :: _ =>
      let piece := if ch = '\\' then .tok (.lit [next])
        else if ch = '_' then .tok (.lit [' '])
        else .skip
      .ok (piece, 2)
  else if ch = '[' then bracketed rest
  else if ch = '0' ∨ ch = '#' ∨ ch = '?' then .ok (.tok (.dig ch), 1)
  else if ch = '.' then .ok (.tok .point, 1)
  else if ch = ',' then .ok (.tok .comma, 1)
  else if ch = '%' then .ok (.tok .pct, 1)
  else if ch = '@' then .ok (.tok .atSign, 1)
  else if ch = '/' then .ok (.tok .slash, 1)
  else if (ch = 'E' ∨ ch = 'e') ∧ (rest.head? = some '+' ∨ rest.head? = some '-') then
    let width := ((rest.drop 1).takeWhile fun x => x = '0' ∨ x = '#').length
    .ok (.tok (.exp ch (rest.head? = some '+') width), 2 + width)
  else if (ch = 'G' ∨ ch = 'g') ∧ starts "general" (ch :: rest) then .ok (.tok .general, 7)
  else if (ch = 'A' ∨ ch = 'a') ∧ starts "am/pm" (ch :: rest) then
    .ok (.tok (.amPm true (ch = 'a')), 5)
  else if (ch = 'A' ∨ ch = 'a') ∧ starts "a/p" (ch :: rest) then
    .ok (.tok (.amPm false (ch = 'a')), 3)
  else if ch.toLower ∈ ['y', 'm', 'd', 'h', 's'] then
    let n := run ch (ch :: rest)
    .ok (.tok (dateTok ch n), n)
  else if ch.isAlpha then .error (.err Err.VALUE)
  else .ok (.tok (.lit [ch]), 1)

/-- The sections of the rest of a format, `skip` characters of it read already. -/
def sectionsFrom : (skip : Nat) → List Char → List (List Tok) → Except Fault (List (List Tok))
  | _, [], out => .ok out
  | skip + 1, _ :: c, out => sectionsFrom skip c out
  | 0, ch :: c, out => do
    let (piece, n) ← nextPiece ch c
    sectionsFrom (n - 1) c <|
      match piece with
      | .section => out ++ [[]]
      | .skip => out
      | .tok t => out.modify (out.length - 1) (· ++ [t])

/-- The `;`-separated sections of a format. -/
def sections (f : List Char) : Except Fault (List (List Tok)) := do
  let out ← sectionsFrom 0 f [[]]
  if 4 < out.length then .error (.err Err.VALUE) else return out

/-! ## Rounding -/

/-- The powers and logarithms of the standard library, and the shortest text of a
number that reads back as it. -/
structure Floats where
  powi : F64 → Int → F64
  /-- The logarithm's floor, as an `i32`. -/
  log10 : F64 → Int
  toText : F64 → List Char

/-- A number rounded to a whole one, and zeros beyond 15 significant digits. -/
def wholeText (y : F64) : Except Fault (List Char) :=
  if y.lt (.ofNat (10 ^ 15)) then
    let y := (parseF64 (.ofList (scientificText y))).getD y
    .ok ((if isSignNegative y then ['-'] else []) ++ Nat.toDigits 10 y.round.natAbs)
  else
    match splitOnce 'e' (scientificText y) with
    | none => .error .panic
    | some (m, exp) =>
      match parseI32 exp with
      | none => .error .panic
      | some exp =>
        if exp < 14 then .error .panic
        else .ok (m.filter (· ≠ '.') ++ List.replicate (exp - 14).toNat '0')

/-- A number rounded half away from zero: the integer digits without leading
zeros, and `dec` fraction digits. -/
def roundDigits (fl : Floats) (x : F64) (dec : Nat) : Except Fault (List Char × List Char) := do
  let y := x.mul (fl.powi (.ofNat 10) (min dec 400 : Nat))
  if y.isFinite = false then .error (.err Err.VALUE)
  else
    let s ← wholeText y
    let s := if s.length ≤ dec then List.replicate (dec + 1 - s.length) '0' ++ s else s
    return ((s.take (s.length - dec)).dropWhile (· = '0'), s.drop (s.length - dec))

/-! ## Laying out -/

def digs (sec : List Tok) : List Char :=
  sec.filterMap fun t => match t with
    | .dig c => some c
    | _ => none

def isDig : Tok → Bool
  | .dig _ => true
  | _ => false

def isExp : Tok → Bool
  | .exp .. => true
  | _ => false

/-- A missing digit. -/
def placeholder (c : Char) : List Char :=
  if c = '0' then ['0'] else if c = '?' then [' '] else []

/-- Commas between the digits of a text, of `total` digits of which `seen` came
already. -/
def groupFrom (total : Nat) : (seen : Nat) → List Char → List Char
  | _, [] => []
  | seen, c :: s =>
    if isDigit c then
      (if 0 < seen ∧ (total - seen) % 3 = 0 then [','] else []) ++
        c :: groupFrom total (seen + 1) s
    else c :: groupFrom total seen s

/-- Commas between the digits of a text, which may hold literals. -/
def groupMixed (s : List Char) : List Char := groupFrom (s.countP isDigit) 0 s

/-- What the commas before the exponent do: one after the last placeholder scales
by a thousand, one between integer placeholders groups. -/
def commaStep (sec : List Tok) (stop point : Nat) (s : F64 × Bool) (p : Tok × Nat) : F64 × Bool :=
  let (t, i) := p
  if t ≠ .comma then s
  else
    match (List.range stop).reverse.find? fun k => (sec[k]?.map isDig).getD false with
    | none => s
    | some l =>
      if l < i then (s.1.div (.ofNat 1000), s.2)
      else if i < point ∧ (sec.take i).any isDig then (s.1, true)
      else s

/-- The digits of a number with an exponent, and the exponent: one integer digit,
or an exponent that is a multiple of the integer placeholders. -/
def exponentDigits (fl : Floats) (ip fp : List Char) (x : F64) :
    Except Fault (Int × List Char × List Char) := do
  let k := max ip.length 1
  let pick (mag : Int) : Int :=
    if 1 < k ∧ '#' ∈ ip then mag / k * k else mag - (k - 1)
  let mag : Int := if x.eq .zero then k - 1 else fl.log10 x
  let e : Int := if x.eq .zero then 0 else pick mag
  let r ← roundDigits fl (x.div (fl.powi (.ofNat 10) e)) fp.length
  if k < r.1.length then
    -- Rounding carried into a new digit.
    let e := pick (mag + 1)
    let r ← roundDigits fl (x.div (fl.powi (.ofNat 10) e)) fp.length
    return (e, r)
  else return (e, r)

/-- What the placeholders of a section are filled with. -/
structure Digits where
  ip : List Char
  int : List Char
  frac : List Char
  point : Nat
  stop : Nat
  e : Int

/-- The place of the last fraction digit that is not zero. -/
def Digits.lastFrac (d : Digits) : Option Nat :=
  (List.range d.frac.length).reverse.find? fun k => d.frac.getD k '0' ≠ '0'

/-- The text so far: the integer region, the rest, and the placeholders filled. -/
structure Lay where
  head : List Char
  out : List Char
  ii : Nat
  fi : Nat
deriving DecidableEq

def Lay.empty : Lay := ⟨[], [], 0, 0⟩

def Lay.push (s : Lay) (inHead : Bool) (l : List Char) : Lay :=
  if inHead then { s with head := s.head ++ l } else { s with out := s.out ++ l }

/-- An integer placeholder takes the digit at its place from the right; the
leftmost also takes every digit beyond the placeholders. -/
def integerDigit (d : Digits) (s : Lay) (c : Char) : Except Fault Lay :=
  if d.ip.length < s.ii + 1 then .error .panic
  else
    let r := d.ip.length - 1 - s.ii
    let surplus := if s.ii = 0 ∧ d.ip.length < d.int.length then
      d.int.take (d.int.length - d.ip.length) else []
    if d.int.length < r + 1 then
      .ok { s with head := s.head ++ surplus ++ placeholder c, ii := s.ii + 1 }
    else
      match d.int[d.int.length - (r + 1)]? with
      | none => .error .panic
      | some x => .ok { s with head := s.head ++ surplus ++ [x], ii := s.ii + 1 }

def fractionDigit (d : Digits) (s : Lay) (c : Char) : Except Fault Lay :=
  if d.lastFrac.any (fun l => s.fi ≤ l) ∨ c = '0' then
    match d.frac[s.fi]? with
    | none => .error .panic
    | some x => .ok { s with out := s.out ++ [x], fi := s.fi + 1 }
  else .ok { s with out := s.out ++ placeholder c, fi := s.fi + 1 }

def place (d : Digits) (s : Lay) (p : Tok × Nat) : Except Fault Lay :=
  let (t, i) := p
  match t with
  | .lit l => .ok (s.push (i < d.point) l)
  | .pct => .ok (s.push (i < d.point) ['%'])
  | .comma | .general | .atSign | .slash => .ok s
  | .point =>
    .ok { s with head := if d.ip = [] then s.head ++ d.int else s.head, out := s.out ++ ['.'] }
  | .dig c =>
    if i < d.point then integerDigit d s c
    else if i < d.stop then fractionDigit d s c
    else .error (.err Err.VALUE)
  | .exp c plus width =>
    let mark := if d.e < 0 then ['-'] else if plus then ['+'] else []
    .ok { s with out := s.out ++ c :: mark ++ padded width d.e.natAbs }
  | _ => .error (.err Err.VALUE)

/-- The number in its General form, between literals. -/
def generalSection (fl : Floats) (sec : List Tok) (g : Nat) (x : F64) :
    Except Fault (List Char) :=
  sec.zipIdx.foldlM (fun s p => match p.1 with
    | .lit l => .ok (s ++ l)
    | _ => if p.2 = g then .ok (s ++ displayNumber fl.toText x) else .error (.err Err.VALUE)) []

/-- A section applied to a number that is not negative, after a minus sign or
none. -/
def numberSection (fl : Floats) (sec : List Tok) (x : F64) (minus : Bool) :
    Except Fault (List Char) := do
  let sign := if minus then ['-'] else []
  if .slash ∈ sec ∨ .atSign ∈ sec then .error (.err Err.VALUE)
  else
    match sec.findIdx? (· = .general) with
    | some g => return sign ++ (← generalSection fl sec g x)
    | none =>
      let stop := (sec.findIdx? isExp).getD sec.length
      let point := ((sec.take stop).findIdx? (· = .point)).getD stop
      let ip := digs (sec.take point)
      let fp := digs ((sec.take stop).drop point)
      let (x, grouped) := ((sec.take stop).zipIdx).foldl (commaStep sec stop point) (x, false)
      let x := x.mul (fl.powi (.ofNat 100) (sec.count .pct))
      let (e, int, frac) ←
        if sec.any isExp then exponentDigits fl ip fp x
        else (roundDigits fl x fp.length).map fun r => (0, r)
      let s ← sec.zipIdx.foldlM (place ⟨ip, int, frac, point, stop, e⟩) .empty
      return sign ++ (if grouped then groupMixed s.head else s.head) ++ s.out

end Improv.Engine.Sections
