import Improv.CoreModel.Number
import Improv.Engine.CellValue
import Improv.Lib.Columns
import Improv.Lib.ExceptLemmas
import Improv.PgModel.Live
/-!
# Result-table statements

The statements that turn a result table's rows into others: at most one batched
upsert of the new and changed rows and one batched delete of the vanished ones,
their rows as column arrays.  What the statements mean to a database is written
beside their text.
-/

namespace Improv.PgModel.ResultTable

open Improv.Lib Improv.Lib.Columns Improv.CoreModel Improv.Engine

/-- The rows of a result table: the items of its dimensions by name, and a value. -/
abbrev ResultRows := SortedMap (List String) CellValue

/-- What the standard library and the date library write. -/
structure Writing where
  /-- A number as the shortest decimal that reads back as it. -/
  number : F64 → List Char
  /-- A timestamp of some milliseconds as RFC 3339 text; none out of range. -/
  rfc3339 : Int → Option String

/-! ## Types of values -/

def valueTypeName : ValueType → String
  | .number => "number"
  | .boolean => "boolean"
  | .text => "text"
  | .dateTime => "datetime"
  | .enum => "enum"

def sqlType : ValueType → Except String String
  | .number => .ok "double precision"
  | .boolean => .ok "boolean"
  | .text => .ok "text"
  | .dateTime => .ok "timestamp with time zone"
  | .enum => .error "enum measures have no Postgres column type yet"

/-- The code of a spreadsheet error's number. -/
def errorText : Nat → String
  | 1 => "#NULL!"
  | 2 => "#DIV/0!"
  | 3 => "#VALUE!"
  | 4 => "#REF!"
  | 5 => "#NAME?"
  | 6 => "#NUM!"
  | 7 => "#N/A"
  | _ => "#ERR"

def display (w : Writing) : CellValue → String
  | .num bits => .ofList (Number.displayNumber w.number (F64.ofBits bits))
  | .bool b => toString b
  | .text t => t
  | .date ms => (w.rfc3339 ms).getD s!"date({ms})"
  | .err c => errorText c

/-- A value as the text Postgres reads back as a value of the type. -/
def sqlText (w : Writing) : ValueType → CellValue → Option String
  | .boolean, .bool b => some (toString b)
  | .text, .text t => some t
  | .dateTime, .date ms => w.rfc3339 ms
  | _, _ => none

/-- The bits of the number a value is. -/
def asNumBits : CellValue → Option UInt64
  | .num bits => some bits
  | _ => none

/-! ## Statements -/

/-- An upsert's value parameter: doubles, by their bits, or texts. -/
inductive Values
  | number (bits : List UInt64)
  | text (texts : List String)
deriving DecidableEq

/-- What a statement says of a table, its dimension columns and their values. -/
inductive Sql
  | upsert (table : String) (cols : List String) (vt : ValueType)
  | replace (table : String) (vt : ValueType)
  | deleteIn (table : String) (cols : List String)
  | deleteAll (table : String)
deriving DecidableEq

/-- Array parameters: a text array for each dimension column, then the values. -/
structure Statement where
  sql : Sql
  dims : List (List String)
  values : Option Values
deriving DecidableEq

def quoteIdent (s : String) : String :=
  .ofList ('\"' :: s.toList.flatMap (fun c => if c = '\"' then ['\"', '\"'] else [c]) ++ ['\"'])

def quotedList (cols : List String) : String := ", ".intercalate (cols.map quoteIdent)

/-- The value parameter's type. -/
def paramType : ValueType → String
  | .number => "float8[]"
  | vt =>
    let cast := (sqlType vt).toOption.getD ""
    s!"text[]::{cast}[]"

def unnestText (n : Nat) (extra : String) : String :=
  let params := ", ".intercalate ((List.range n).map fun i => s!"${i + 1}::text[]")
  s!"unnest({params}{extra})"

/-- The text of a statement. -/
def Sql.render : Sql → String
  | .upsert table cols vt =>
    let names := quotedList cols
    let rows := unnestText cols.length s!", ${cols.length + 1}::{paramType vt}"
    s!"INSERT INTO {table} ({names}, value) SELECT * FROM {rows} " ++
      s!"ON CONFLICT ({names}) DO UPDATE SET value = EXCLUDED.value"
  | .replace table vt =>
    s!"WITH gone AS (DELETE FROM {table}) " ++
      s!"INSERT INTO {table} (value) SELECT * FROM unnest($1::{paramType vt})"
  | .deleteIn table cols =>
    let rows := unnestText cols.length ""
    s!"DELETE FROM {table} WHERE ({quotedList cols}) IN (SELECT * FROM {rows})"
  | .deleteAll table => s!"DELETE FROM {table}"

/-- The rows a statement changes. -/
def Statement.rows (st : Statement) : Nat :=
  match st.dims, st.values with
  | d :: _, _ => d.length
  | [], some (.number v) => v.length
  | [], some (.text v) => v.length
  | [], none => 1

/-- The value parameter of some changed rows, or the first value that is none. -/
def valuesOf (w : Writing) (table : String) (vt : ValueType) (vs : List CellValue) :
    Except String Values :=
  let bad := fun v => s!"{table}: {display w v} is not a {valueTypeName vt}"
  match vt with
  | .number => .number <$> vs.mapM fun v => (asNumBits v).elim (.error (bad v)) .ok
  | vt => do
    let texts ← vs.mapM fun v => (sqlText w vt v).elim (.error (bad v)) .ok
    let _ ← sqlType vt
    return .text texts

/-- The rows of `new` that are not in `old` as they are. -/
def changedRows (old new : ResultRows) : List (List String × CellValue) :=
  new.entries.filter fun r => old.get? r.1 ≠ some r.2

/-- The rows of `old` that `new` lacks. -/
def goneRows (old new : ResultRows) : List (List String) :=
  old.keys.filter fun k => !new.contains k

/-- The statements that turn `old` into `new`. -/
def diffStatements (w : Writing) (table : String) (dimCols : List String) (vt : ValueType)
    (old new : ResultRows) : Except String (List Statement) := do
  let n := dimCols.length
  let changed := changedRows old new
  let upserts ←
    if changed = [] then pure []
    else do
      let values ← valuesOf w table vt (changed.map (·.2))
      let sql := if n = 0 then Sql.replace table vt else .upsert table dimCols vt
      pure [(⟨sql, columns n (changed.map (·.1)), some values⟩ : Statement)]
  let gone := goneRows old new
  let deletes :=
    if gone = [] then []
    else
      let sql := if n = 0 then Sql.deleteAll table else .deleteIn table dimCols
      [(⟨sql, columns n gone, none⟩ : Statement)]
  return upserts ++ deletes

/-- The cells of `new` that differ from `old`, and those of `old` that `new`
lacks, in key order. -/
def cellChanges (old new : ResultRows) : List (List String × Option CellValue) :=
  let out := (changedRows old new).map (fun r => (r.1, some r.2)) ++
    (goneRows old new).map fun k => (k, none)
  out.mergeSort fun a b => a.1 ≤ b.1

end Improv.PgModel.ResultTable

/-!
## What a change can do

One lemma a step of the mapper: through a binding without an aggregate a change
leaves the mapper alone, through an aggregated one it changes that measure's
folds; either way what the mapper binds and names stays.
-/

namespace Improv.PgModel

open Improv.Lib Improv.CoreModel Improv.Engine

namespace Mapper

variable {cal : Calendar} {rels : SortedMap Nat Relation} {replay : Bool} {xid : UInt32}
  {s s' : State} {b : Binding}

/-- A mapper but for its folds. -/
structure SameNames (a b : Mapper) : Prop where
  bindings : a.bindings = b.bindings
  items : a.items = b.items
  seeded : a.seeded = b.seeded
  collations : a.collations = b.collations

theorem SameNames.refl (a : Mapper) : SameNames a a := ⟨rfl, rfl, rfl, rfl⟩

theorem SameNames.trans {a b c : Mapper} (h : SameNames a b) (h' : SameNames b c) :
    SameNames a c :=
  ⟨h.bindings.trans h'.bindings, h.items.trans h'.items, h.seeded.trans h'.seeded,
    h.collations.trans h'.collations⟩

/-- A row change through a binding without an aggregate is a row change of the
model's cells. -/
theorem changeRow_of_none {r : Relation} {old : Option (Option Tuple)} {new : Option Tuple}
    (hb : b.agg = none) (mp : Mapper) (m : Model) (touched : Touched) :
    changeRow cal r old new replay xid b (mp, m, touched) =
      (row cal mp.items r b old new replay m touched).map fun x => (mp, x) := by
  unfold changeRow
  simp only [if_pos hb]
  cases row cal mp.items r b old new replay m touched <;> rfl

theorem changeRow_cases {r : Relation} {old : Option (Option Tuple)} {new : Option Tuple}
    (h : changeRow cal r old new replay xid b s = .ok s') :
    (b.agg = none ∧ s'.1 = s.1 ∧ row cal s.1.items r b old new replay s.2.1 s.2.2 = .ok s'.2) ∨
      (b.agg ≠ none ∧ s.1.loaded s.2.1 b xid = .ok true ∧ s' = s) ∨
      (b.agg ≠ none ∧ s.1.loaded s.2.1 b xid = .ok false ∧ ∃ folds,
        foldRow cal s.1.items (textCmp (s.1.collations.get? b.measure)) r b old new
          ((s.1.folds.get? b.measure).getD .empty, s.2) = .ok (folds, s'.2) ∧
        s'.1 = { s.1 with folds := s.1.folds.insert b.measure folds }) := by
  obtain ⟨mp, m, touched⟩ := s
  by_cases hb : b.agg = none
  · rw [changeRow_of_none hb] at h
    cases hrow : row cal mp.items r b old new replay m touched with
    | error e =>
        rw [hrow] at h
        cases h
    | ok x =>
        rw [hrow] at h
        cases h
        exact .inl ⟨hb, rfl, rfl⟩
  · unfold changeRow at h
    simp only [if_neg hb, bind_eq_ok_iff] at h
    obtain ⟨saw, hsaw, h⟩ := h
    cases saw with
    | true =>
        cases h
        exact .inr (.inl ⟨hb, hsaw, rfl⟩)
    | false =>
        simp only [Bool.false_eq_true, if_false, bind_eq_ok_iff] at h
        obtain ⟨⟨folds, m', touched'⟩, hfold, h⟩ := h
        cases h
        exact .inr (.inr ⟨hb, hsaw, folds, hfold, rfl⟩)

theorem truncateBinding_cases (h : truncateBinding replay xid b s = .ok s') :
    (b.agg = none ∧ replay = false ∧ s' = (s.1, clear s.2.1 s.2.2 b.measure)) ∨
      (b.agg ≠ none ∧ s.1.loaded s.2.1 b xid = .ok true ∧ s' = s) ∨
      (b.agg ≠ none ∧ s.1.loaded s.2.1 b xid = .ok false ∧
        s' = ({ s.1 with folds := s.1.folds.erase b.measure },
          clear s.2.1 s.2.2 b.measure)) := by
  obtain ⟨mp, m, touched⟩ := s
  unfold truncateBinding at h
  by_cases hb : b.agg = none
  · simp only [hb, ne_eq, not_true_eq_false, if_false, ite_error_eq_ok_iff] at h
    obtain ⟨hreplay, h⟩ := h
    cases h
    exact .inl ⟨hb, by simpa using hreplay, rfl⟩
  · simp only [ne_eq, hb, not_false_eq_true, if_true, bind_eq_ok_iff] at h
    obtain ⟨saw, hsaw, h⟩ := h
    cases saw with
    | true =>
        cases h
        exact .inr (.inl ⟨hb, hsaw, rfl⟩)
    | false =>
        cases h
        exact .inr (.inr ⟨hb, hsaw, rfl⟩)

theorem changeRow_sameNames {r : Relation} {old : Option (Option Tuple)} {new : Option Tuple}
    (h : changeRow cal r old new replay xid b s = .ok s') : SameNames s.1 s'.1 := by
  rcases changeRow_cases h with ⟨_, heq, _⟩ | ⟨_, _, rfl⟩ | ⟨_, _, _, _, heq⟩
  · rw [heq]
    exact .refl _
  · exact .refl _
  · rw [heq]
    exact ⟨rfl, rfl, rfl, rfl⟩

theorem truncateBinding_sameNames (h : truncateBinding replay xid b s = .ok s') :
    SameNames s.1 s'.1 := by
  rcases truncateBinding_cases h with ⟨_, _, rfl⟩ | ⟨_, _, rfl⟩ | ⟨_, _, rfl⟩
  · exact .refl _
  · exact .refl _
  · exact ⟨rfl, rfl, rfl, rfl⟩

/-- What steps that keep the names reach keeps them. -/
theorem foldlM_sameNames {α : Type} {f : State → α → Except Rebuild State}
    (hf : ∀ s a s', f s a = .ok s' → SameNames s.1 s'.1) {as : List α}
    (h : as.foldlM f s = .ok s') : SameNames s.1 s'.1 :=
  foldlM_invariant (P := fun t => SameNames s.1 t.1)
    (fun _ a _ ht hstep => ht.trans (hf _ a _ hstep)) (.refl _) h

theorem change_sameNames {c : Message} (h : change cal rels replay xid s c = .ok s') :
    SameNames s.1 s'.1 := by
  have hrel : ∀ {rel old new}, changeRel cal rels replay xid rel old new s = .ok s' →
      SameNames s.1 s'.1 := by
    intro rel old new h
    unfold changeRel at h
    split at h
    · cases h
      exact .refl _
    · split at h
      · cases h
      · exact foldlM_sameNames (fun _ _ _ hstep => changeRow_sameNames hstep) h
  cases c with
  | insert rel new => exact hrel h
  | update rel old new => exact hrel h
  | delete rel old => exact hrel h
  | truncate gone =>
      refine foldlM_sameNames (fun t rel t' ht => ?_) h
      exact foldlM_sameNames (fun _ _ _ hstep => truncateBinding_sameNames hstep) ht
  | control =>
      cases h
      exact .refl _

theorem txn_sameNames {replayUntil : Nat} {t : Txn}
    (h : txn cal rels replayUntil s t = .ok s') : SameNames s.1 s'.1 :=
  foldlM_sameNames (fun _ _ _ hstep => change_sameNames hstep) h

end Mapper

end Improv.PgModel
