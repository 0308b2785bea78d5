import Improv.CoreModel.Functions
import Improv.CoreModel.Number
import Improv.Lib.ListLemmas
import Improv.Lib.Shortest
import Improv.Lib.Utf8
/-!
# The tokenizer of formulas

A formula's text read byte by byte into names, literals and punctuation, each with
the byte it begins at.  The text is sliced at byte offsets, which panics inside a
character.  The classes of the characters past ASCII, the texts of dates and the
quoting of a text in an error are the libraries'.
-/

namespace Improv.CoreModel

open Improv.Lib Improv.Lib.Decimal
open ByteOffsets (sliceFrom slice)
open Utf8 (encode byte)

/-- The functions a name, canonical or alias, can mean. -/
def Registry.byName (r : Registry) (name : String) : List FnDef :=
  r.all.filter fun d =>
    eqIgnoreAsciiCase d.name name || d.aliases.any fun a => eqIgnoreAsciiCase a name

/-- A formula that cannot be read, and where in its text. -/
structure ParseError where
  message : String
  position : Option Nat
deriving DecidableEq

namespace Parser

inductive Tok
  | ident (w : String)
  /-- A single-quoted name, which is never a keyword or a function. -/
  | qIdent (w : String)
  | number (n : F64)
  | str (s : String)
  | date (t : DateTime)
  /-- Punctuation. -/
  | op (o : String)
deriving DecidableEq

/-- A token and the byte it begins at. -/
structure Spanned where
  tok : Tok
  pos : Nat
deriving DecidableEq

/-- How reading ends without tokens: a slice inside a character, a loop that has not
ended, or an error. -/
inductive Stop
  | panic
  | diverges
  | refused (e : ParseError)
deriving DecidableEq

abbrev Run (α : Type) := Except Stop α

/-- What the tokenizer and the printer ask of the libraries they use. -/
structure Library where
  isAlphabetic : Char → Bool
  isNumeric : Char → Bool
  parseFromRfc3339 : String → Option DateTime
  /-- The day a text in the form `%Y-%m-%d` names. -/
  parseYmd : String → Option Int
  toRfc3339 : DateTime → String
  /-- A text and a character as the debug format quotes them. -/
  debug : String → String
  debugChar : Char → String
  alphabetic_ascii : ∀ c : Char, c.toNat < 128 → isAlphabetic c = c.isAlpha
  numeric_ascii : ∀ c : Char, c.toNat < 128 → isNumeric c = c.isDigit
  not_whitespace : ∀ c : Char, isWhitespace c = true → isAlphabetic c = false ∧ isNumeric c = false

namespace Library

variable (lib : Library)

/-- A character of a name, past its first. -/
def isWord (c : Char) : Bool := lib.isAlphabetic c || lib.isNumeric c || c = '_'

/-- The inside of a date literal: an RFC 3339 timestamp, or a bare date at
midnight UTC. -/
def parseDateLiteral (raw : List Char) : Option DateTime :=
  let raw := String.ofList (trimmed raw)
  match lib.parseFromRfc3339 raw with
  | some t => some t
  | none => (lib.parseYmd raw).map fun days => ⟨days, 0, 0, by decide, by decide⟩

end Library

/-- A number as a literal that reads back as it, with an exponent below 1e-6 or from
1e21 up; none that has a sign or is not finite. -/
def numberLiteral (n : F64) : Option String :=
  if n.isFinite = false ∨ Number.isSignNegative n = true then none
  else
    some (.ofList
      (if n.eq .zero = false ∧
          ¬((F64.ofRatio false 1 1000000).le n = true ∧ n.lt (.ofNat (10 ^ 21)) = true) then
        Shortest.lowerExp n
      else Shortest.display n))

/-! ## Slices -/

def refuse {α : Type} (message : String) (pos : Nat) : Run α :=
  .error (.refused ⟨message, some pos⟩)

section Slices

variable (text : List Char)

/-- The bytes of the text. -/
def len : Nat := (encode text).length

def byteAt (i : Nat) : Option UInt8 := (encode text)[i]?

/-- `text[i..]`. -/
def restAt (i : Nat) : Run (List Char) := ((sliceFrom text i).map .ok).getD (.error .panic)

/-- `text[i..j]`. -/
def between (i j : Nat) : Run (List Char) := ((slice text i j).map .ok).getD (.error .panic)

/-- The character at a byte. -/
def charAt (i : Nat) : Run Char := do
  match ← restAt text i with
  | c :: _ => .ok c
  | [] => .error .panic

/-- The first byte from one on that a test fails at. -/
def skipWhile (p : UInt8 → Bool) (i : Nat) : Nat := i + (((encode text).drop i).takeWhile p).length

end Slices

def isAsciiDigit (b : UInt8) : Bool := byte '0' ≤ b && b ≤ byte '9'

/-! ## Literals -/

section Literals

variable (text : List Char) (start : Nat)

/-- A string to its closing quote, from an offset inside it on. -/
def readString : (fuel i : Nat) → List Char → Run (List Char × Nat)
  | 0, _, _ => .error .diverges
  | fuel + 1, s0, s =>
    let i := skipWhile text (· ≠ byte '"') s0
    if len text ≤ i then refuse "unterminated string literal" start
    else do
      let s := s ++ (← between text s0 i)
      let i := i + 1
      if byteAt text i ≠ some (byte '"') then .ok (s, i)
      else readString fuel (i + 1) (s ++ ['"'])

/-- A quoted name to its closing quote, from an offset inside it on. -/
def readQuotedName : (fuel i : Nat) → List Char → Run (List Char × Nat)
  | 0, _, _ => .error .diverges
  | fuel + 1, i, name =>
    if i < len text then do
      let c ← charAt text i
      let i := i + c.utf8Size
      if c = '\'' then
        if (← restAt text i).head? = some '\'' then readQuotedName fuel (i + 1) (name ++ ['\''])
        else .ok (name, i)
      else readQuotedName fuel i (name ++ [c])
    else refuse "unterminated quoted name" start

def readDate (lib : Library) : Run (Tok × Nat) :=
  let s0 := start + 1
  let i := skipWhile text (· ≠ byte '#') s0
  if len text ≤ i then refuse "unterminated date literal" start
  else do
    let raw ← between text s0 i
    match lib.parseDateLiteral raw with
    | some t => .ok (.date t, i + 1)
    | none => refuse s!"invalid date: {lib.debug (.ofList raw)}" start

/-- How many bytes are digits, or points before a digit. -/
def digitRunBytes : List UInt8 → Nat
  | [] => 0
  | b :: bs =>
    if isAsciiDigit b || (b = byte '.' && bs.head?.any isAsciiDigit) then digitRunBytes bs + 1
    else 0

/-- The end of the exponent at an offset, if there is one. -/
def exponentEnd (i : Nat) : Run Nat :=
  if byteAt text i = some (byte 'e') ∨ byteAt text i = some (byte 'E') then
    let i := i + 1
    let i := if byteAt text i = some (byte '+') ∨ byteAt text i = some (byte '-') then i + 1 else i
    let digits := i
    let i := skipWhile text isAsciiDigit i
    if i = digits then do
      let raw ← between text start i
      refuse s!"exponent without digits: {String.ofList raw}" start
    else .ok i
  else .ok i

def readNumber : Run (Tok × Nat) := do
  let i := start + digitRunBytes ((encode text).drop start)
  let i ← exponentEnd text start i
  let raw ← between text start i
  match parseF64 (.ofList raw) with
  | none => refuse s!"invalid number: {String.ofList raw}" start
  | some (.inf _) =>
    refuse s!"number out of range: {String.ofList raw} (the largest is about 1.8e308)" start
  | some n => .ok (.number n, i)

end Literals

/-! ## Names -/

section Names

variable (lib : Library) (fns : Registry) (text : List Char) (start : Nat)

def wordEnd : (fuel i : Nat) → Run Nat
  | 0, _ => .error .diverges
  | fuel + 1, i =>
    if i < len text then do
      let b ← charAt text i
      if lib.isWord b then wordEnd fuel (i + b.utf8Size) else .ok i
    else .ok i

/-- The end of the longest run of `.part`s from an offset on that names a function
before a parenthesis. -/
def dottedEnd : (parts j : Nat) → Option Nat → Run (Option Nat)
  | 0, _, best => .ok best
  | parts + 1, j, best => do
    if (← restAt text j).head? = some '.' then
      if (← restAt text (j + 1)).head?.any lib.isWord then
        let j ← wordEnd lib text (len text + 1) (j + 1)
        let rest := (← restAt text j).dropWhile isWhitespace
        if rest.head? = some '(' then
          let name ← between text start j
          if fns.byName (.ofList name) ≠ [] then dottedEnd parts j (some j)
          else dottedEnd parts j best
        else dottedEnd parts j best
      else .ok best
    else .ok best

/-- Whether a character at an offset begins a name. -/
def startsWord (i : Nat) (c : Char) : Run Bool :=
  if lib.isAlphabetic c || c = '_' then .ok true
  else if c = '@' then do
    let rest ← restAt text (i + 1)
    .ok (rest.head?.any lib.isAlphabetic)
  else .ok false

def readWord (c : Char) : Run (Tok × Nat) := do
  let i ← wordEnd lib text (len text + 1) (start + c.utf8Size)
  let best ← dottedEnd lib fns text start 3 i none
  let i := best.getD i
  let w ← between text start i
  .ok (.ident (.ofList w), i)

end Names

/-! ## Punctuation -/

/-- The operators of two characters. -/
def twoCharOps : List String := ["<=", ">=", "<>", "==", "!=", "=>"]

def singleOps : List Char := "+-*/^=<>()[],.&%".toList

def readOp (lib : Library) (text : List Char) (i : Nat) (c : Char) : Run (Tok × Nat) :=
  match (slice text i (i + 2)).map String.ofList with
  | some two =>
    if two ∈ twoCharOps then .ok (.op two, i + 2)
    else if c ∈ singleOps then .ok (.op (.ofList [c]), i + c.utf8Size)
    else refuse s!"unexpected character: {lib.debugChar c}" i
  | none =>
    if c ∈ singleOps then .ok (.op (.ofList [c]), i + c.utf8Size)
    else refuse s!"unexpected character: {lib.debugChar c}" i

/-! ## The loop -/

section Loop

variable (lib : Library) (fns : Registry) (text : List Char)

/-- What the text at an offset begins with, a token unless it is whitespace, and
where the rest begins. -/
def stepAt (start : Nat) : Run (Option Tok × Nat) := do
  let c ← charAt text start
  if isWhitespace c then .ok (none, start + c.utf8Size)
  else if c = '"' then
    let (s, i) ← readString text start (len text + 1) (start + 1) []
    .ok (some (.str (.ofList s)), i)
  else if c = '#' then
    let (tok, i) ← readDate text start lib
    .ok (some tok, i)
  else if isDigit c then
    let (tok, i) ← readNumber text start
    .ok (some tok, i)
  else if c = '\'' then
    let (name, i) ← readQuotedName text start (len text + 1) (start + 1) []
    if name = [] then refuse "empty quoted name: '' names nothing" start
    else .ok (some (.qIdent (.ofList name)), i)
  else if ← startsWord lib text start c then
    let (tok, i) ← readWord lib fns text start c
    .ok (some tok, i)
  else
    let (tok, i) ← readOp lib text start c
    .ok (some tok, i)

/-- The tokens from an offset on, after those read. -/
def tokenizeFrom : (fuel i : Nat) → List Spanned → Run (List Spanned)
  | 0, i, out => if i < len text then .error .diverges else .ok out
  | fuel + 1, i, out =>
    if i < len text then do
      let (tok, j) ← stepAt lib fns text i
      tokenizeFrom fuel j (out ++ (tok.map fun t => ⟨t, i⟩).toList)
    else .ok out

end Loop

/-- The tokens of a text. -/
def tokenize (lib : Library) (fns : Registry) (text : String) : Run (List Spanned) :=
  tokenizeFrom lib fns text.toList (len text.toList) 0 []

end Parser

end Improv.CoreModel
