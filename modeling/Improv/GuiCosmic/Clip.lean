import Mathlib.Algebra.Group.Nat.Defs
import Improv.Lib.ByteOffsets
import Improv.Lib.ListLemmas
/-!
# A range of cells on the clipboard

Written as tab-separated text and as an HTML table, read back from either.  A
field of the tab-separated text is quoted only when it holds a tab, a newline, a
carriage return or a quote; in HTML each cell's text is escaped, and on paste
the cells are read from their elements, tags inside them dropped and entities
decoded.  The HTML reader cuts texts at byte offsets; nothing comes of a cut
inside a character, or of a loop that does not end.
-/

namespace Improv.GuiCosmic.Clip

open Improv.Lib Improv.Lib.ByteOffsets

abbrev Text := List Char

/-! ## Tab-separated text -/

/-- A field holds a character that has to be quoted. -/
def special (c : Char) : Bool := c = '\t' || c = '\n' || c = '\r' || c = '\x22'

def field (s : Text) : Text :=
  if s.any special then
    '\x22' :: (s.flatMap fun c => if c = '\x22' then ['\x22', '\x22'] else [c]) ++ ['\x22']
  else s

/-- Rows of cell texts as TSV. -/
def toTsv (rows : List (List Text)) : Text :=
  ['\n'].intercalate (rows.map fun r => ['\t'].intercalate (r.map field))

/-- What the reader holds between two characters. -/
structure Scan where
  rows : List (List Text)
  row : List Text
  cell : Text
  quoted : Bool
  atStart : Bool
deriving DecidableEq

namespace Scan

def push (st : Scan) (c : Char) : Scan := { st with cell := st.cell ++ [c], atStart := false }

def endCell (st : Scan) : Scan :=
  { st with row := st.row ++ [st.cell], cell := [], atStart := true }

def endRow (st : Scan) : Scan :=
  { st with rows := st.rows ++ [st.row ++ [st.cell]], row := [], cell := [], atStart := true }

/-- The rows of the characters left. -/
def run : List Char → Scan → List (List Text)
  | [], st => st.rows ++ [st.row ++ [st.cell]]
  | c :: cs, st =>
    if c = '\x22' ∧ st.atStart = true ∧ st.quoted = false then
      run cs { st with quoted := true, atStart := false }
    else if c = '\x22' ∧ st.quoted = true then
      match cs with
      | '\x22' :: cs => run cs (st.push '\x22')
      | cs => run cs { st with quoted := false, atStart := false }
    else if c = '\t' ∧ st.quoted = false then run cs st.endCell
    else if c = '\r' ∧ st.quoted = false ∧ cs.head? = some '\n' then
      run cs { st with atStart := false }
    else if c = '\n' ∧ st.quoted = false then run cs st.endRow
    else run cs (st.push c)

end Scan

/-- What is before a text at the end of another. -/
def stripSuffix? (suffix s : Text) : Option Text :=
  if suffix <:+ s then some (s.take (s.length - suffix.length)) else none

/-- TSV text as rows of cell texts; a trailing newline ends the last row. -/
def fromTsv (s : Text) : List (List Text) :=
  let s := ((stripSuffix? ['\r', '\n'] s).or (stripSuffix? ['\n'] s)).getD s
  Scan.run s ⟨[], [], [], false, true⟩

/-! ## Entities -/

def replace (c : Char) (sub : Text) (s : Text) : Text :=
  s.flatMap fun d => if d = c then sub else [d]

def escape (s : Text) : Text :=
  replace '\x22' "&quot;".toList
    (replace '>' "&gt;".toList (replace '<' "&lt;".toList (replace '&' "&amp;".toList s)))

/-- A number below 2^32 written in a base, a plus sign before it at most. -/
def parseU32 (base : Nat) (s : Text) : Option Nat :=
  let digits := if s.head? = some '+' then s.tail else s
  let value (c : Char) : Option Nat :=
    if '0' ≤ c ∧ c ≤ '9' then some (c.toNat - 48)
    else if 'a' ≤ c ∧ c ≤ 'z' then some (c.toNat - 87)
    else if 'A' ≤ c ∧ c ≤ 'Z' then some (c.toNat - 55)
    else none
  if digits = [] then none
  else
    digits.foldl (fun n c => do
      let n ← n
      let d ← value c
      if d < base ∧ n * base + d < 2 ^ 32 then some (n * base + d) else none) (some 0)

def charFromU32 (n : Nat) : Option Char :=
  if h : n.isValidChar then some (Char.ofNatAux n h) else none

def stripPrefix? (pre s : Text) : Option Text :=
  if pre <+: s then some (s.drop pre.length) else none

/-- The character that an entity's name stands for. -/
def entity (name : Text) : Option Char :=
  if name = "amp".toList then some '&'
  else if name = "lt".toList then some '<'
  else if name = "gt".toList then some '>'
  else if name = "quot".toList then some '\x22'
  else if name = "apos".toList then some '\x27'
  else if name = "nbsp".toList then some '\u00A0'
  else
    ((((stripPrefix? "#x".toList name).or (stripPrefix? "#X".toList name)).bind (parseU32 16)).or
      ((stripPrefix? ['#'] name).bind (parseU32 10))).bind charFromU32

/-- The character that the ampersand at the front stands for, with its entity or
alone, and the text after it. -/
def decodeAmp (rest : Text) : Option (Char × Text) :=
  match (find [';'] rest).filter (· ≤ 10) with
  | none => do return ('&', ← sliceFrom rest 1)
  | some stop => do
    match entity (← slice rest 1 stop) with
    | some c => return (c, ← sliceFrom rest (stop + 1))
    | none => return ('&', ← sliceFrom rest 1)

/-- A text with its entities decoded; `fuel` bounds the ampersands. -/
def unescapeFrom : (fuel : Nat) → Text → Option Text
  | 0, _ => none
  | fuel + 1, rest =>
    match find ['&'] rest with
    | none => some rest
    | some i => do
      let before ← slice rest 0 i
      let (c, rest) ← decodeAmp (← sliceFrom rest i)
      let after ← unescapeFrom fuel rest
      return before ++ c :: after

def unescape (s : Text) : Option Text := unescapeFrom (bytes s + 1) s

/-! ## HTML -/

/-- Rows of cell texts as an HTML table: the first row's cells in `<th>` when
`header`, the rest in `<td>`. -/
def toHtml (rows : List (List Text)) (header : Bool) : Text :=
  "<meta charset=\"utf-8\"><table>\n".toList ++
    (rows.zipIdx.flatMap fun p =>
      let tag := if header = true ∧ p.2 = 0 then "th".toList else "td".toList
      "<tr>".toList ++
        (p.1.flatMap fun c =>
          '<' :: tag ++ '>' :: escape c ++ "</".toList ++ tag ++ ['>']) ++ "</tr>\n".toList) ++
    "</table>".toList

/-- The words of a text. -/
def splitWhitespace (s : Text) : List Text := (s.splitOnP isWhitespace).filter (· ≠ [])

/-- A text without its tags. -/
def dropTags : Text → (inTag : Bool) → Text
  | [], _ => []
  | c :: cs, inTag =>
    if c = '<' then dropTags cs true
    else if c = '>' then dropTags cs false
    else if inTag then dropTags cs true
    else c :: dropTags cs false

/-- A text without its tags, a run of whitespace as one space. -/
def stripTags (s : Text) : Text := [' '].intercalate (splitWhitespace (dropTags s false))

/-- The cells of a row from an offset on; `rowl` is the row in lower case. -/
def cellsFrom (row rowl : Text) : (fuel : Nat) → (c : Nat) → Option (List Text)
  | 0, _ => none
  | fuel + 1, c => do
    let rest ← sliceFrom rowl c
    match least (["<td".toList, "<th".toList].map (find · rest)) with
    | none => return []
    | some o =>
      let start := c + o
      match find ['>'] (← sliceFrom rowl start) with
      | none => return []
      | some gt =>
        let body := start + gt + 1
        let rest ← sliceFrom rowl body
        let close := (least (["</td".toList, "</th".toList, "<td".toList, "<th".toList].map
          (find · rest))).elim (bytes row) (body + ·)
        let cell ← unescape (trimmed (stripTags (← slice row body close)))
        let cells ← cellsFrom row rowl fuel close
        return cell :: cells

/-- The rows of a table from an offset on. -/
def rowsFrom (t tl : Text) : (fuel : Nat) → (pos : Nat) → Option (List (List Text))
  | 0, _ => none
  | fuel + 1, pos => do
    match find "<tr".toList (← sliceFrom tl pos) with
    | none => return []
    | some r =>
      let r0 := pos + r
      let r1 := (find "<tr".toList (← sliceFrom tl (r0 + 3))).elim (bytes t) (r0 + 3 + ·)
      let row ← slice t r0 r1
      let rowl ← slice tl r0 r1
      let cells ← cellsFrom row rowl (bytes row + 1) 0
      let rows ← rowsFrom t tl fuel r1
      return cells :: rows

/-- The cells of the first table in a text, row by row; none without one. -/
def fromHtml (html : Text) : Option (Option (List (List Text))) := do
  let lower := html.map Char.toLower
  match find "<table".toList lower with
  | none => return none
  | some start =>
    let stop := (find "</table>".toList (← sliceFrom lower start)).elim (bytes html) (start + ·)
    let t ← slice html start stop
    let tl ← slice lower start stop
    let rows ← rowsFrom t tl (bytes t + 1) 0
    return some rows

end Improv.GuiCosmic.Clip
