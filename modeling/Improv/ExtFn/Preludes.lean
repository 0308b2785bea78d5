import Improv.ExtFn.Marshal
/-!
# The preludes of the R and Julia runners

A program is a prelude, the arguments as a JSON text inside a string literal of
the host language, and the body between.  The preludes read and write JSON by
hand; the two do it alike, but for their functions on numbers, nulls in a list,
and what they do with a dictionary.
-/

namespace Improv.ExtFn

open Improv.Lib Improv.CoreModel

inductive Lang
  | r
  | julia
deriving DecidableEq

def Lang.name : Lang → String
  | r => "R"
  | julia => "julia"

/-! ## Literals -/

def rStrLiteral (s : List Char) : List Char := quoted s

/-- `$` would interpolate. -/
def jlStrLiteral (s : List Char) : List Char :=
  (quoted s).flatMap fun c => if c = '$' then ['\\', '$'] else [c]

def strLiteral : Lang → List Char → List Char
  | .r => rStrLiteral
  | .julia => jlStrLiteral

/-- What the host language reads the rest of a string literal as; none where it is
refused, or interpolates, or has an escape of another kind than these. -/
def readLiteral (lang : Lang) : List Char → Option (List Char)
  | [] => none
  | c :: s =>
    if c = '"' then if s = [] then some [] else none
    else if c = '\\' then
      match s with
      | [] => none
      | e :: s =>
        if e = '"' ∨ e = '\\' ∨ lang = .julia ∧ e = '$' then (readLiteral lang s).map (e :: ·)
        else none
    else if lang = .julia ∧ c = '$' then none
    else (readLiteral lang s).map (c :: ·)

/-- A string literal of the host language. -/
def evalLiteral (lang : Lang) : List Char → Option (List Char)
  | [] => none
  | c :: s => if c = '"' then readLiteral lang s else none

/-! ## Reading -/

/-- A value of the host language. -/
inductive Item
  | null
  | bool (b : Bool)
  | num (n : F64)
  | str (s : List Char)
  | list (items : List Item)
  | dict (fields : List (List Char × Item))

def isBlank (c : Char) : Bool := c = ' ' || c = '\t' || c = '\n' || c = '\r'

def skipWs (s : List Char) : List Char := s.dropWhile isBlank

def isNumberChar (c : Char) : Bool :=
  c = '-' || c = '+' || c = '.' || c = 'e' || c = 'E' || c.isDigit

/-- What the character after a backslash stands for. -/
def unescape (e : Char) : Char :=
  if e = 'n' then '\n' else if e = 't' then '\t' else if e = 'r' then '\r' else e

/-- A string after its opening quote, which may stay open. -/
def parseStr : List Char → Option (List Char × List Char)
  | [] => some ([], [])
  | c :: s =>
    if c = '"' then some ([], s)
    else if c = '\\' then
      match s with
      | [] => none
      | e :: s => (parseStr s).map fun p => (unescape e :: p.1, p.2)
    else (parseStr s).map fun p => (c :: p.1, p.2)

/-- A text as a number of the host language. -/
def toNumber (x : Outside) : Lang → List Char → Option F64
  | .r, s => some (x.asNumeric s)
  | .julia, s => x.parse s

def parseNum (x : Outside) (lang : Lang) (s : List Char) : Option (Item × List Char) :=
  let digits := s.takeWhile isNumberChar
  if digits = [] then none
  else (toNumber x lang digits).map fun n => (.num n, s.drop digits.length)

/-- A list with a value more: in R a null adds nothing. -/
def push (lang : Lang) (out : List Item) (v : Item) : List Item :=
  match lang, v with
  | .r, .null => out
  | _, v => out ++ [v]

/-- A dictionary with a value put at a key: in R a null takes the key away. -/
def assign (lang : Lang) (out : List (List Char × Item)) (k : List Char) (v : Item) :
    List (List Char × Item) :=
  match lang, v with
  | .r, .null => out.filter fun f => f.1 ≠ k
  | _, v =>
    if out.any fun f => f.1 = k then out.map fun f => if f.1 = k then (k, v) else f
    else out ++ [(k, v)]

mutual

/-- A value, read with some fuel; none where an index is past the end. -/
def parseVal (x : Outside) (lang : Lang) : Nat → List Char → Option (Item × List Char)
  | 0, _ => none
  | fuel + 1, s =>
    match skipWs s with
    | [] => none
    | c :: r =>
      if c = '\x7b' then
        match skipWs r with
        | [] => none
        | d :: r' => if d = '\x7d' then some (.dict [], r') else parseObj x lang fuel [] (d :: r')
      else if c = '[' then
        match skipWs r with
        | [] => none
        | d :: r' => if d = ']' then some (.list [], r') else parseArr x lang fuel [] (d :: r')
      else if c = '"' then (parseStr r).map fun p => (.str p.1, p.2)
      else if c = 't' then some (.bool true, r.drop 3)
      else if c = 'f' then some (.bool false, r.drop 4)
      else if c = 'n' then some (.null, r.drop 3)
      else parseNum x lang (c :: r)

/-- The items of an array from one on. -/
def parseArr (x : Outside) (lang : Lang) :
    Nat → List Item → List Char → Option (Item × List Char)
  | 0, _, _ => none
  | fuel + 1, out, s => do
    let (v, r) ← parseVal x lang fuel s
    let out := push lang out v
    match skipWs r with
    | [] => none
    | c :: r' =>
      if c = ',' then parseArr x lang fuel out r'
      else if c = ']' then some (.list out, r')
      else parseArr x lang fuel out (c :: r')

/-- The fields of an object from one on. -/
def parseObj (x : Outside) (lang : Lang) :
    Nat → List (List Char × Item) → List Char → Option (Item × List Char)
  | 0, _, _ => none
  | fuel + 1, out, s => do
    let (k, r) ← parseStr ((skipWs s).drop 1)
    let (v, r) ← parseVal x lang fuel ((skipWs r).drop 1)
    let out := assign lang out k v
    match skipWs r with
    | [] => none
    | c :: r' =>
      if c = ',' then parseObj x lang fuel out r'
      else if c = '\x7d' then some (.dict out, r')
      else parseObj x lang fuel out (c :: r')

end

def fromJson (x : Outside) (lang : Lang) (s : List Char) : Option Item :=
  (parseVal x lang s.length s).map (·.1)

/-! ## Writing -/

/-- One character of a text replaced. -/
def gsub (c : Char) (by' s : List Char) : List Char := s.flatMap fun d => if d = c then by' else [d]

/-- R replaces one character after another, Julia all at once. -/
def escapeText : Lang → List Char → List Char
  | .r, s => gsub '\n' ['\\', 'n'] (gsub '"' ['\\', '"'] (gsub '\\' ['\\', '\\'] s))
  | .julia, s => s.flatMap fun c =>
    if c = '\\' then ['\\', '\\'] else if c = '"' then ['\\', '"']
    else if c = '\n' then ['\\', 'n'] else [c]

/-- The whole number that a double is. -/
def wholeOf : F64 → Option Int
  | .finite s u _ => if u % F64.one = 0 then some (F64.signed s (u / F64.one)) else none
  | _ => none

/-- A number of the host language as text: none where it is refused. -/
def writeNum (x : Outside) : Lang → F64 → Option (List Char)
  | .r, n => some (x.format n)
  | .julia, n =>
    match wholeOf n with
    | some i => if -2 ^ 63 ≤ i ∧ i < 2 ^ 63 then some (wholeText i) else none
    | none => some (x.string n)

/-- A value of the host language as JSON; the text of its error where Julia has one. -/
def toJson (x : Outside) (lang : Lang) : Item → Except (List Char) (List Char)
  | .null => .ok "null".toList
  | .bool b => .ok (if b then "true".toList else "false".toList)
  | .num n =>
    match writeNum x lang n with
    | some t => .ok t
    | none => .error (x.inexact n)
  | .str s => .ok ('"' :: (escapeText lang s ++ ['"']))
  | .list items => (items' true items).map fun t => '[' :: (t ++ [']'])
  | .dict fields =>
    if lang = .r ∧ fields.isEmpty then .ok "[]".toList
    else (fields' true fields).map fun t => '\x7b' :: (t ++ ['\x7d'])
where
  items' (first : Bool) : List Item → Except (List Char) (List Char)
    | [] => .ok []
    | v :: vs => do
      let t ← toJson x lang v
      let ts ← items' false vs
      return (if first then [] else [',']) ++ (t ++ ts)
  fields' (first : Bool) : List (List Char × Item) → Except (List Char) (List Char)
    | [] => .ok []
    | f :: fs => do
      let t ← field f
      let ts ← fields' false fs
      return (if first then [] else [',']) ++ (t ++ ts)
  field : List Char × Item → Except (List Char) (List Char)
    | (k, v) => (toJson x lang v).map fun t => '"' :: (k ++ '"' :: ':' :: t)

/-! ## The program -/

def payload (x : Outside) (args : List Value) : List Char :=
  text x (.object [("args", .array (args.map (valueToJson x)))])

def okLine (t : List Char) : List Char := "\x7b\"ok\":".toList ++ (t ++ ['\x7d', '\n'])

def errorLine (t : List Char) : List Char := "\x7b\"error\":".toList ++ (t ++ ['\x7d', '\n'])

/-- What a program prints whose body sets `result` from the arguments; nothing where
it fails outside the body. -/
def runProgram (x : Outside) (lang : Lang) (body : List Item → Except (List Char) Item)
    (payload : List Char) : List Char :=
  match (evalLiteral lang (strLiteral lang payload)).bind (fromJson x lang) with
  | some (Item.dict fields) =>
    match (fields.find? fun f => f.1 = "args".toList).map (·.2) with
    | some (Item.list args) =>
      match body args with
      | .error e => errorLine ('"' :: (escapeText lang e ++ ['"']))
      | .ok .null => errorLine "\"function body did not set \x60result\x60\"".toList
      | .ok result =>
        match toJson x lang result with
        | .ok t => okLine t
        | .error e => errorLine ('"' :: (escapeText lang e ++ ['"']))
    | _ => []
  | _ => []

/-- A function of some arguments run by an interpreter. -/
def eval (x : Outside) (lang : Lang) (body : List Item → Except (List Char) Item)
    (args : List Value) (returnType : ValueType) (stderr : List Char) : Except Fault Value :=
  parseEnvelope x (runProgram x lang body (payload x args)) stderr returnType lang.name

/-- The body that sets `result` to the argument at a place. -/
def argument (k : Nat) (args : List Item) : Except (List Char) Item :=
  match args[k]? with
  | some v => .ok v
  | none => .error "subscript out of bounds".toList

end Improv.ExtFn
