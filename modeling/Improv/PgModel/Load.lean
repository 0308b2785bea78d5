import Improv.PgModel.Live
/-!
# Loading bound rows

The rows of bound tables turned into input cells: existing items keep their ids,
new dimension values are minted an item above the highest, a NULL value is no
cell, a NULL dimension skips its row, and two rows on one coordinate are an
error.  Item ids are not bounded here.
-/

namespace Improv.PgModel

open Improv.Lib Improv.CoreModel Improv.Engine

/-- The rows of one bound input measure as read from its table: a dimension
value each, and the value as the measure's type reads it. -/
structure BoundRows where
  measureId : Nat
  rows : List (List (Option String) × Option CellValue)

inductive LoadError
  | unknownMeasure (id : Nat)
  | dimensions (measure : String) (expected got : Nat)
  | outOfRange (measure : String) (v : CellValue)
  | duplicateCoordinate (measure : String) (coord : List (Option String))
deriving DecidableEq

/-- What a load did. -/
structure Loaded where
  /-- Items minted for values the model had no item for. -/
  newItems : List Item
  cells : Nat
  /-- Rows skipped because a dimension value was NULL. -/
  nullDimRows : Nat

/-! ## Interning names -/

/-- Items by name, and the id the next one minted gets. -/
structure ItemInterner where
  nextItem : Nat
  map : Items

namespace ItemInterner

/-- The highest id of a model's items. -/
def maxId (m : Model) : Nat := (m.items.values.map fun it => it.id.id).foldl max 0

def seededFrom (m : Model) (base : Nat) : ItemInterner :=
  ⟨max base (maxId m + 1), .ofModel m⟩

/-- A name's item, minted where it has none. -/
def intern (it : ItemInterner) (c : CategoryId) (name : String) : ItemInterner × ItemId :=
  match it.map.find c name with
  | some id => (it, id)
  | none => (⟨it.nextItem + 1, it.map.add c name ⟨it.nextItem⟩⟩, ⟨it.nextItem⟩)

/-- The interned names with their items. -/
def pairs (it : ItemInterner) : List (CategoryId × String × ItemId) :=
  it.map.entries.flatMap fun p => p.2.entries.map fun q => (p.1, q.1, q.2)

/-- An interned item put into a model that does not have it, and listed in its
category. -/
def registerItem (m : Model) (p : CategoryId × String × ItemId) : Model :=
  let (c, name, id) := p
  { m with
    items := if m.items.contains id then m.items else m.items.insert id ⟨id, c, name⟩
    categories := m.categories.map fun k x =>
      if k = c ∧ id ∉ x.items then { x with items := x.items ++ [id] } else x }

/-- Every interned item put into the model. -/
def register (it : ItemInterner) (m : Model) : Model := it.pairs.foldl registerItem m

end ItemInterner

/-! ## Loading -/

/-- An engine cell as a model value; none for an error, or a date that cannot be
held. -/
def toValue (cal : Calendar) : CellValue → Option Value
  | .num bits => some (.number (.ofBits bits))
  | .bool b => some (.boolean b)
  | .text s => some (.text s)
  | .date ms => (cal.fromTimestampMillis ms).map Value.dateTime
  | .err _ => none

/-- The distinct dimension values of each category. -/
abbrev Distinct := SortedMap (CategoryId ×ₗ String) Unit

/-- A row's non-NULL dimension values added. -/
def distinctRow (cats : List CategoryId) (dims : List (Option String)) (d : Distinct) : Distinct :=
  (cats.zip dims).foldl (fun d p =>
    match p.2 with
    | some name => d.insert (toLex (p.1, name)) ()
    | none => d) d

/-- One binding's rows checked against its measure. -/
def shapeRows (m : Model) (d : Distinct) (b : BoundRows) :
    Except LoadError (Measure × Distinct) :=
  match m.measures.get? ⟨b.measureId⟩ with
  | none => .error (.unknownMeasure b.measureId)
  | some x =>
    match b.rows.find? fun row => row.1.length ≠ x.categories.length with
    | some row => .error (.dimensions x.name x.categories.length row.1.length)
    | none => .ok (x, b.rows.foldl (fun d row => distinctRow x.categories row.1 d) d)

/-- A binding checked after some others. -/
def shapeStep (m : Model) (s : List (BoundRows × Measure) × Distinct) (b : BoundRows) :
    Except LoadError (List (BoundRows × Measure) × Distinct) :=
  (shapeRows m s.2 b).map fun x => (s.1 ++ [(b, x.1)], x.2)

/-- The bindings with their measures, and the distinct dimension values. -/
def shape (m : Model) (bound : List BoundRows) :
    Except LoadError (List (BoundRows × Measure) × Distinct) :=
  bound.foldlM (shapeStep m) ([], .empty)

/-- A row's dimension values, none where one is NULL. -/
def rowNames (dims : List (Option String)) : Option (List String) := dims.mapM id

/-- The cells of one row added, and whether it was skipped for a NULL dimension.
Every name has been interned. -/
def loadRow (cal : Calendar) (it : ItemInterner) (b : BoundRows) (x : Measure)
    (s : SortedMap Cell Value × Nat) (row : List (Option String) × Option CellValue) :
    Except LoadError (SortedMap Cell Value × Nat) :=
  match rowNames row.1, row.2 with
  | none, _ => .ok (s.1, s.2 + 1)
  | some _, none => .ok s
  | some names, some v =>
    match toValue cal v with
    | none => .error (.outOfRange x.name v)
    | some v =>
      let coord := Coordinate.fromPairs
        ((x.categories.zip names).map fun p => (p.1, (it.intern p.1 p.2).2))
      let k : Cell := ⟨⟨b.measureId⟩, coord⟩
      if s.1.contains k then .error (.duplicateCoordinate x.name row.1)
      else .ok (s.1.insert k v, s.2)

def loadCells (cal : Calendar) (it : ItemInterner) (shaped : List (BoundRows × Measure)) :
    Except LoadError (SortedMap Cell Value × Nat) :=
  shaped.foldlM (fun s b => b.1.rows.foldlM (loadRow cal it b.1 b.2) s) (.empty, 0)

/-- Bound rows as input cells of a model. -/
def loadInputs (cal : Calendar) (m : Model) (bound : List BoundRows) :
    Except LoadError (Model × Loaded) := do
  let (shaped, distinct) ← shape m bound
  let it := distinct.keys.foldl (fun it k => (it.intern (ofLex k).1 (ofLex k).2).1)
    (ItemInterner.seededFrom m 1)
  let (cells, nullDimRows) ← loadCells cal it shaped
  let registered := it.register m
  let newItems := (registered.items.filter fun k _ => !m.items.contains k).values
  .ok ({ registered with inputs := cells.entries.foldl (fun ins p => ins.insert p.1 p.2) m.inputs },
    ⟨newItems, cells.size, nullDimRows⟩)

end Improv.PgModel
