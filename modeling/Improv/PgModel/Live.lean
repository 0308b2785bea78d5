import Improv.Lib.SortedMap
import Improv.PgModel.Fold
import Improv.PgModel.PgOutput
import Improv.Service.Authority
/-!
# Row changes onto cells

Decoded row changes mapped to edits of input cells: a binding without an
aggregate takes each change as a cell removed and a cell set, an aggregated one
folds the rows of each coordinate.  A batch that cannot be applied cell by cell
asks for a rebuild, and what it had changed is dropped.
-/

namespace Improv.PgModel

open Improv.Lib Improv.CoreModel Improv.Engine

/-- How one input measure is bound to the columns of a relation. -/
structure Binding where
  measure : MeasureId
  valueCol : String
  /-- One category and column per dimension. -/
  dims : List (CategoryId × String)
  agg : Option Agg
deriving DecidableEq

/-- Each cell a batch touched, with its value before the batch. -/
abbrev Touched := SortedMap Cell (Option Value)

def Touched.orInsert (t : Touched) (k : Cell) (before : Option Value) : Touched :=
  if t.contains k then t else t.insert k before

/-- Item ids per category, by name. -/
abbrev Items := SortedMap CategoryId (SortedMap String ItemId)

def Items.find (items : Items) (c : CategoryId) (name : String) : Option ItemId :=
  (items.get? c).bind fun m => m.get? name

def Items.add (items : Items) (c : CategoryId) (name : String) (id : ItemId) : Items :=
  items.insert c (((items.get? c).getD .empty).insert name id)

/-- A model's items by name. -/
def Items.ofModel (m : Model) : Items :=
  m.items.values.foldl (fun items it => items.add it.category it.name it.id) .empty

/-- A Postgres snapshot: which transactions a query saw. -/
structure Snap where
  xmin : Nat
  xmax : Nat
  xip : List Nat
deriving DecidableEq

/-- Whether a committed transaction, by the 32 bits of its number, was visible
to a snapshot within 2³¹ of it. -/
def Snap.sees (s : Snap) (xid : UInt32) : Bool :=
  let d : Int := (xid - .ofNat s.xmax).toInt32.toInt
  let full : Int := s.xmax + d
  full < s.xmin || (full < s.xmax && full.toNat ∉ s.xip)

/-! ## Sharing a batch out -/

/-- The relations a message changes. -/
def Message.rels : Message → List Nat
  | .insert rel _ | .update rel _ _ | .delete rel _ => [rel]
  | .truncate rels => rels
  | .control => []

/-- The models a message reaches, each once, in order. -/
def hit (models : SortedMap Nat (List Int)) (c : Message) : List Int :=
  ((c.rels.flatMap fun r => (models.get? r).getD []).dedup).mergeSort (· ≤ ·)

/-- One transaction's changes by model. -/
def routeChanges (models : SortedMap Nat (List Int)) (changes : List Message) :
    SortedMap Int (List Message) :=
  changes.foldl (fun per c => (hit models c).foldl (fun per m => per.push m c) per) .empty

/-- A decoded batch split by model: each gets, in commit order, the transactions
that changed a relation it binds, holding only those changes. -/
def route (txns : List Txn) (models : SortedMap Nat (List Int)) : SortedMap Int (List Txn) :=
  txns.foldl (fun out t =>
    (routeChanges models t.changes).entries.foldl (fun out p =>
      out.push p.1 { t with changes := p.2 }) out) .empty

/-- The number of leading transactions that end before a position, found as a
binary search finds it in a batch of increasing ends. -/
def partitionPoint (done : List Txn) (first : Nat) : Nat :=
  (done.takeWhile fun t => t.endLsn < first).length

/-- How far the shared slot may move while models still apply batches, each
yet to apply the transaction ending at one of `firsts`. -/
def slotHold (target : Nat) (done : List Txn) (firsts : List Nat) : Nat :=
  (firsts.map fun first =>
    match partitionPoint done first with
    | 0 => 0
    | i + 1 => (done[i]?).elim 0 Txn.endLsn).foldl min target

/-! ## The mapper -/

/-- The folds of each aggregated measure, by coordinate. -/
abbrev Folds := SortedMap MeasureId (SortedMap Coordinate Fold)

/-- Maps row changes of bound relations to edits of input cells. -/
structure Mapper where
  /-- Bindings per relation oid. -/
  bindings : SortedMap Nat (List Binding)
  items : Items
  folds : Folds
  /-- The snapshot each aggregated measure's folds were seeded with. -/
  seeded : SortedMap MeasureId Snap
  collations : SortedMap MeasureId Collation

namespace Mapper

def new (m : Model) (bindings : SortedMap Nat (List Binding)) : Mapper :=
  ⟨bindings, .ofModel m, .empty, .empty, .empty⟩

def binds (mp : Mapper) (oid : Nat) : Bool := mp.bindings.contains oid

/-- An item minted by the caller. -/
def addItem (mp : Mapper) (c : CategoryId) (name : String) (id : ItemId) : Mapper :=
  { mp with items := mp.items.add c name id }

end Mapper

/-! ## Reading a tuple -/

/-- A dimension column as the loader reads it; none for NULL. -/
def dimName (r : Relation) (col : String) (t : Tuple) : Except Rebuild (Option String) :=
  match r.get t col with
  | none => .error ⟨"bound column missing"⟩
  | some .null => .ok none
  | some .unchanged => .error ⟨"unchanged TOAST value"⟩
  | some (.text s) =>
    let oid := r.oidOf col
    .ok (some (
      if oid = BOOL ∧ s = "t" then "true"
      else if oid = BOOL ∧ s = "f" then "false"
      else if oid = BPCHAR then trimEndMatches ' ' s
      else s))

/-- The coordinate of dimension values; none when one is NULL. -/
def coordOf (items : Items) (b : Binding) (names : List (Option String)) :
    Except Rebuild (Option Coordinate) :=
  go (b.dims.zip names) []
where
  go : List ((CategoryId × String) × Option String) → List (CategoryId × ItemId) →
      Except Rebuild (Option Coordinate)
    | [], pairs => .ok (some (.fromPairs pairs))
    | (_, none) :: _, _ => .ok none
    | ((c, _), some name) :: rest, pairs =>
      match items.find c name with
      | none => .error ⟨"new item"⟩
      | some i => go rest (pairs ++ [(c, i)])

/-- The coordinate of a tuple; none when a dimension is NULL. -/
def coord (items : Items) (r : Relation) (b : Binding) (t : Tuple) :
    Except Rebuild (Option Coordinate) := do
  let names ← b.dims.mapM fun d => dimName r d.2 t
  coordOf items b names

/-- The text of a tuple's value column; none for NULL. -/
def text (r : Relation) (b : Binding) (t : Tuple) : Except Rebuild (Option String) :=
  match r.get t b.valueCol with
  | none => .error ⟨"bound column missing"⟩
  | some .null => .ok none
  | some .unchanged => .error ⟨"unchanged TOAST value"⟩
  | some (.text s) => .ok (some s)

/-- The Postgres type of a binding's value column. -/
def valueOid (r : Relation) (b : Binding) : Nat := r.oidOf b.valueCol

/-- The value of a tuple; none for NULL. -/
def value (cal : Calendar) (r : Relation) (b : Binding) (t : Tuple) (vt : ValueType) :
    Except Rebuild (Option Value) := do
  match ← text r b t with
  | none => .ok none
  | some s => (parse cal vt s (valueOid r b = BPCHAR)).map some

/-- What a tuple's value adds to a fold. -/
def part (cal : Calendar) (agg : Agg) (r : Relation) (b : Binding) (t : Tuple)
    (vt : ValueType) : Except Rebuild Part := do
  match ← text r b t with
  | none => .ok .null
  | some s => partOf cal agg vt (valueOid r b) s

def valueType (m : Model) (measure : MeasureId) : Except Rebuild ValueType :=
  (m.measures.get? measure).elim (.error ⟨"unknown measure"⟩) fun x => .ok x.valueType

def vtOf (m : Model) (b : Binding) : ValueType :=
  (m.measures.get? b.measure).elim .number Measure.valueType

/-! ## Changes without an aggregate -/

/-- Whether the replica identity key is exactly the dimension columns. -/
def keyed (r : Relation) (b : Binding) : Bool :=
  let keys := (r.columns.filter Column.key).map Column.name
  keys.all (· ∈ b.dims.map (·.2)) && (b.dims.map (·.2)).all (· ∈ keys)

/-- The old row of a change, and whether its value is known: a full one, or the
key's, which an update that does not change it leaves to the new row. -/
def oldRow (r : Relation) (b : Binding) (old : Option (Option Tuple)) (new : Option Tuple) :
    Except Rebuild (Option (Tuple × Bool)) :=
  match old with
  | none => .ok none
  | some t =>
    if r.replicaIdentity = 'f' then
      t.elim (.error ⟨"old row not replicated"⟩) fun t => .ok (some (t, true))
    else if keyed r b then
      (t.or new).elim (.error ⟨"no row"⟩) fun t => .ok (some (t, false))
    else .error ⟨"old row not replicated"⟩

/-- Takes the old row's cell away, unless the row is known to have had no
value. -/
def retract (cal : Calendar) (items : Items) (r : Relation) (b : Binding) (vt : ValueType)
    (old : Option (Tuple × Bool)) (m : Model) (touched : Touched) :
    Except Rebuild (Model × Touched) :=
  match old with
  | none => .ok (m, touched)
  | some (t, valueKnown) => do
    match ← coord items r b t with
    | none => .ok (m, touched)
    | some c =>
      let gone ← if valueKnown then (value cal r b t vt).map Option.isSome else .ok true
      if gone then
        let k : Cell := ⟨b.measure, c⟩
        .ok ({ m with inputs := m.inputs.erase k }, touched.orInsert k (m.inputs.get? k))
      else .ok (m, touched)

/-- Sets the new row's cell. -/
def assert (cal : Calendar) (items : Items) (r : Relation) (b : Binding) (vt : ValueType)
    (replay : Bool) (new : Option Tuple) (m : Model) (touched : Touched) :
    Except Rebuild (Model × Touched) :=
  match new with
  | none => .ok (m, touched)
  | some t => do
    let c ← coord items r b t
    let v ← value cal r b t vt
    match c, v with
    | some c, some v =>
      let k : Cell := ⟨b.measure, c⟩
      if !replay && m.inputs.contains k then .error ⟨"two rows on one coordinate"⟩
      else
        .ok ({ m with inputs := m.inputs.insert k v }, touched.orInsert k (m.inputs.get? k))
    | _, _ => .ok (m, touched)

/-- One row change: the old row's cell taken away, then the new row's set. -/
def row (cal : Calendar) (items : Items) (r : Relation) (b : Binding)
    (old : Option (Option Tuple)) (new : Option Tuple) (replay : Bool) (m : Model)
    (touched : Touched) : Except Rebuild (Model × Touched) := do
  let vt ← valueType m b.measure
  let old ← oldRow r b old new
  let (m, touched) ← retract cal items r b vt old m touched
  assert cal items r b vt replay new m touched

/-! ## Changes with an aggregate -/

/-- Why an aggregate keeps no fold. -/
def unfoldable (agg : Agg) (vt : ValueType) (c : Option Collation) : Option Rebuild :=
  match agg, c with
  | .min, some .nondeterministic | .max, some .nondeterministic
  | .countDistinct, some .nondeterministic => some ⟨"nondeterministic collation"⟩
  | .min, none | .max, none => if vt = .text then some ⟨"min or max of text"⟩ else none
  | _, _ => none

def textCmp : Option Collation → Option TextCmp
  | some (.deterministic cmp) => some cmp
  | _ => none

/-- One tuple taken out of its coordinate's fold, or put into it, and the cell
set to the fold's. -/
def foldPart (cal : Calendar) (items : Items) (cmp : Option TextCmp) (agg : Agg) (r : Relation)
    (b : Binding) (vt : ValueType) (t : Tuple) (k : Int)
    (s : SortedMap Coordinate Fold × Model × Touched) :
    Except Rebuild (SortedMap Coordinate Fold × Model × Touched) := do
  let (folds, m, touched) := s
  match ← coord items r b t with
  | none => .ok s
  | some c =>
    let p ← part cal agg r b t vt
    let (f, ok) := ((folds.get? c).getD .default).add p k
    if !ok then .error ⟨"a fold went out of step"⟩
    else
      let f := if 0 < k then f.offer p agg cmp else f
      let (cell, f) := f.cell cal agg (valueOid r b) cmp
      let folds := if f.rows = 0 then folds.erase c else folds.insert c f
      let key : Cell := ⟨b.measure, c⟩
      .ok (folds, { m with inputs := m.inputs.write key cell },
        touched.orInsert key (m.inputs.get? key))

/-- The old row of a change, where it is sent whole. -/
def wholeRow (r : Relation) : Option (Option Tuple) → Except Rebuild (Option Tuple)
  | none => .ok none
  | some (some t) =>
    if r.replicaIdentity = 'f' then .ok (some t) else .error ⟨"old row not replicated"⟩
  | some none => .error ⟨"old row not replicated"⟩

/-- One row change through an aggregated binding: the old row out, the new row
in. -/
def foldRow (cal : Calendar) (items : Items) (cmp : Option TextCmp) (r : Relation) (b : Binding)
    (old : Option (Option Tuple)) (new : Option Tuple)
    (s : SortedMap Coordinate Fold × Model × Touched) :
    Except Rebuild (SortedMap Coordinate Fold × Model × Touched) := do
  let agg ← b.agg.elim (.error ⟨"not an aggregated binding"⟩) .ok
  let vt ← valueType s.2.1 b.measure
  let old ← wholeRow r old
  let s ← old.elim (.ok s) fun t => foldPart cal items cmp agg r b vt t (-1) s
  new.elim (.ok s) fun t => foldPart cal items cmp agg r b vt t 1 s

namespace Mapper

variable (cal : Calendar)

/-! ## A batch -/

/-- Whether an aggregated binding's seed already saw a transaction. -/
def loaded (mp : Mapper) (m : Model) (b : Binding) (xid : UInt32) : Except Rebuild Bool :=
  match mp.seeded.get? b.measure with
  | some s => .ok (s.sees xid)
  | none =>
    .error ((b.agg.bind fun a => unfoldable a (vtOf m b) (mp.collations.get? b.measure)).getD
      ⟨"fold not seeded"⟩)

/-- What a change is applied to: the mapper, the model and the cells touched. -/
abbrev State := Mapper × Model × Touched

/-- A row change through one binding. -/
def changeRow (r : Relation) (old : Option (Option Tuple)) (new : Option Tuple) (replay : Bool)
    (xid : UInt32) (b : Binding) (s : State) : Except Rebuild State := do
  let (mp, m, touched) := s
  if b.agg = none then
    let (m, touched) ← row cal mp.items r b old new replay m touched
    .ok (mp, m, touched)
  else if ← mp.loaded m b xid then .ok s
  else
    let folds := (mp.folds.get? b.measure).getD .empty
    let cmp := textCmp (mp.collations.get? b.measure)
    let (folds, m, touched) ← foldRow cal mp.items cmp r b old new (folds, m, touched)
    .ok ({ mp with folds := mp.folds.insert b.measure folds }, m, touched)

/-- A measure's cells taken away. -/
def clear (m : Model) (touched : Touched) (measure : MeasureId) : Model × Touched :=
  let gone := m.inputs.keys.filter fun k => k.measure = measure
  ({ m with inputs := m.inputs.filter fun k _ => k.measure ≠ measure },
    gone.foldl (fun touched k => touched.orInsert k (m.inputs.get? k)) touched)

/-- A TRUNCATE through one binding. -/
def truncateBinding (replay : Bool) (xid : UInt32) (b : Binding) (s : State) :
    Except Rebuild State := do
  let (mp, m, touched) := s
  if b.agg ≠ none then
    if ← mp.loaded m b xid then .ok s
    else
      .ok ({ mp with folds := mp.folds.erase b.measure }, clear m touched b.measure)
  else if replay then .error ⟨"truncate"⟩
  else .ok (mp, clear m touched b.measure)

/-- The bindings of a relation, none for one the mapper does not bind. -/
def bound (mp : Mapper) (rel : Nat) : List Binding := (mp.bindings.get? rel).getD []

/-- TRUNCATE of one relation: every cell its bindings feed goes. -/
def truncate (replay : Bool) (xid : UInt32) (s : State) (rel : Nat) : Except Rebuild State :=
  (s.1.bound rel).foldlM (fun s b => truncateBinding replay xid b s) s

/-- A row change of one relation, through each of its bindings. -/
def changeRel (rels : SortedMap Nat Relation) (replay : Bool) (xid : UInt32) (rel : Nat)
    (old : Option (Option Tuple)) (new : Option Tuple) (s : State) : Except Rebuild State :=
  match s.1.bindings.get? rel with
  | none => .ok s
  | some bindings =>
    match rels.get? rel with
    | none => .error ⟨"undescribed relation"⟩
    | some r => bindings.foldlM (fun s b => changeRow cal r old new replay xid b s) s

/-- One decoded change. -/
def change (rels : SortedMap Nat Relation) (replay : Bool) (xid : UInt32) (s : State) :
    Message → Except Rebuild State
  | .insert rel new => changeRel cal rels replay xid rel none (some new) s
  | .update rel old new => changeRel cal rels replay xid rel (some old) (some new) s
  | .delete rel old => changeRel cal rels replay xid rel (some (some old)) none s
  | .truncate gone => gone.foldlM (truncate replay xid) s
  | .control => .ok s

/-- One transaction's changes; replayed where it ended by `replayUntil`. -/
def txn (rels : SortedMap Nat Relation) (replayUntil : Nat) (s : State) (t : Txn) :
    Except Rebuild State :=
  t.changes.foldlM (change cal rels (t.endLsn ≤ replayUntil) t.xid) s

/-- One edit per touched cell whose value, as the engine holds it, changed. -/
def edits (m : Model) (touched : Touched) : List Edit :=
  touched.entries.filterMap fun p =>
    let now := (m.inputs.get? p.1).map CellValue.fromModelValue
    if now ≠ p.2.map CellValue.fromModelValue then
      some ⟨p.1.measure, Service.encodeCoord p.1.coord, now⟩
    else none

/-- The changes of some transactions applied to a model's input cells, with the
edits they make. -/
def map (mp : Mapper) (m : Model) (rels : SortedMap Nat Relation) (txns : List Txn)
    (replayUntil : Nat) : Except Rebuild (List Edit × Mapper × Model) := do
  let (mp, m, touched) ← txns.foldlM (txn cal rels replayUntil) (mp, m, .empty)
  .ok (edits m touched, mp, m)

end Mapper

end Improv.PgModel
