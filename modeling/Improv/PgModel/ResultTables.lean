import Mathlib.Data.List.Sort
import Improv.PgModel.Statements
/-!
# Result tables hold the engine's rows

Run on a table of the old rows, the statements leave exactly the new ones; each
row that differs is named once, by the upsert or by the delete, and no other row
is.  Values are compared and stored by their bits.
-/

namespace Improv.PgModel.ResultTable

open Improv.Lib Improv.Lib.Columns Improv.CoreModel Improv.Engine

/-! ## What a statement means -/

/-- A text as Postgres reads it as a value of a column type, a timestamp by
`readTimestamp`. -/
def readText (readTimestamp : String → Option Int) (vt : ValueType) (t : String) :
    Option CellValue :=
  match vt with
  | .boolean =>
    if t = "true" then some (.bool true) else if t = "false" then some (.bool false) else none
  | .text => some (.text t)
  | .dateTime => (readTimestamp t).map .date
  | .number | .enum => none

/-- The values of a value parameter. -/
def Values.read (readTimestamp : String → Option Int) (vt : ValueType) :
    Values → Option (List CellValue)
  | .number bits => if vt = .number then some (bits.map .num) else none
  | .text texts => if vt = .number then none else texts.mapM (readText readTimestamp vt)

/-- The rows an upsert inserts: a null is refused. -/
def insertedRows (rows : List (List (Option String) × Option CellValue)) :
    Option (List (List String × CellValue)) :=
  rows.mapM fun r =>
    match r.1.mapM id, r.2 with
    | some k, some v => some (k, v)
    | _, _ => none

/-- The rows of a table after a statement; none where it fails. -/
def Statement.execute (readTimestamp : String → Option Int) (st : Statement) (t : ResultRows) :
    Option ResultRows :=
  match st.sql, st.values with
  | .upsert _ cols vt, some values => do
    let vals ← values.read readTimestamp vt
    if st.dims.length = cols.length then upsert t (← insertedRows (unnestWith st.dims vals))
    else none
  | .replace _ vt, some values => do
    let vals ← values.read readTimestamp vt
    upsert .empty (vals.map fun v => ([], v))
  | .deleteIn _ cols, none =>
    if st.dims.length = cols.length then
      some (deleteIn t ((unnest st.dims).filterMap fun k => k.mapM id))
    else none
  | .deleteAll _, none => some .empty
  | _, _ => none

/-- The rows of a table after some statements in order. -/
def run (readTimestamp : String → Option Int) (sts : List Statement) (t : ResultRows) :
    Option ResultRows :=
  sts.foldlM (fun t st => st.execute readTimestamp t) t

/-- The rows a statement names; without dimension columns, the one row. -/
def Statement.named (st : Statement) : List (List String) :=
  if st.dims = [] then List.replicate st.rows []
  else (unnest st.dims).filterMap fun k => k.mapM id

/-! ## The difference -/

/-- Keys of as many dimensions as a table has. -/
def HasWidth (n : Nat) (rows : ResultRows) : Prop := ∀ k ∈ rows.keys, k.length = n

theorem mem_changedRows {old new : ResultRows} {k : List String} {v : CellValue} :
    (k, v) ∈ changedRows old new ↔ new.get? k = some v ∧ old.get? k ≠ some v := by
  unfold changedRows
  rw [List.mem_filter, decide_eq_true_eq, ← SortedMap.get?_eq_some_iff]

theorem mem_goneRows {old new : ResultRows} {k : List String} :
    k ∈ goneRows old new ↔ (∃ v, old.get? k = some v) ∧ new.get? k = none := by
  unfold goneRows
  rw [List.mem_filter, SortedMap.mem_keys_iff, SortedMap.contains, SortedMap.contains,
    Option.isSome_iff_exists, Bool.not_eq_true', Option.isSome_eq_false_iff,
    Option.isNone_iff_eq_none]

theorem nodup_changedRows (old new : ResultRows) : ((changedRows old new).map (·.1)).Nodup :=
  new.nodup_keys.sublist (List.Sublist.map _ List.filter_sublist)

theorem nodup_goneRows (old new : ResultRows) : (goneRows old new).Nodup :=
  old.nodup_keys.sublist List.filter_sublist

theorem changedRows_self (rows : ResultRows) : changedRows rows rows = [] := by
  rw [List.eq_nil_iff_forall_not_mem]
  intro r hr
  exact (mem_changedRows.mp hr).2 (mem_changedRows.mp hr).1

theorem goneRows_self (rows : ResultRows) : goneRows rows rows = [] := by
  rw [List.eq_nil_iff_forall_not_mem]
  intro k hk
  obtain ⟨⟨v, hv⟩, hnone⟩ := mem_goneRows.mp hk
  rw [hnone] at hv
  cases hv

/-- The changed and the vanished rows are the difference, each once. -/
theorem difference_spec (old new : ResultRows) :
    ((changedRows old new).map (·.1) ++ goneRows old new).Nodup ∧
      ∀ k, k ∈ (changedRows old new).map (·.1) ++ goneRows old new ↔
        old.get? k ≠ new.get? k := by
  have hmem : ∀ k, k ∈ (changedRows old new).map (·.1) ↔
      ∃ v, new.get? k = some v ∧ old.get? k ≠ some v := by
    intro k
    rw [List.mem_map]
    constructor
    · rintro ⟨⟨k, v⟩, hr, rfl⟩
      exact ⟨v, mem_changedRows.mp hr⟩
    · rintro ⟨v, hv⟩
      exact ⟨(k, v), mem_changedRows.mpr hv, rfl⟩
  constructor
  · apply List.Nodup.append (nodup_changedRows old new) (nodup_goneRows old new)
    intro k hk hgone
    obtain ⟨v, hv, -⟩ := (hmem k).mp hk
    rw [(mem_goneRows.mp hgone).2] at hv
    cases hv
  · intro k
    rw [List.mem_append, hmem, mem_goneRows]
    cases hnew : new.get? k with
    | none =>
        cases old.get? k with
        | none => simp
        | some u => simp
    | some v =>
        simp

theorem length_of_mem_difference {n : Nat} {old new : ResultRows} (hold : HasWidth n old)
    (hnew : HasWidth n new) :
    (∀ r ∈ changedRows old new, r.1.length = n) ∧ ∀ k ∈ goneRows old new, k.length = n := by
  constructor
  · intro r hr
    exact hnew r.1 (SortedMap.mem_keys_of_get? (mem_changedRows.mp hr).1)
  · intro k hk
    obtain ⟨⟨v, hv⟩, -⟩ := mem_goneRows.mp hk
    exact hold k (SortedMap.mem_keys_of_get? hv)

/-! ## Parameters read back -/

/-- A value a statement can carry for a type: one of the type, a timestamp with a
text. -/
def Carries (w : Writing) : ValueType → CellValue → Prop
  | .number, .num _ => True
  | .boolean, .bool _ => True
  | .text, .text _ => True
  | .dateTime, .date ms => w.rfc3339 ms ≠ none
  | _, _ => False

/-- The timestamps of the years 1 to 9999. -/
def FourDigitYear (ms : Int) : Prop := -62135596800000 ≤ ms ∧ ms < 253402300800000

/-- A value whose text Postgres reads: not a timestamp of another year. -/
def Readable : CellValue → Prop
  | .date ms => FourDigitYear ms
  | _ => True

theorem mapM_elim {α β γ : Type} (f : α → Option β) (bad : α → γ) (as : List α) :
    (as.mapM fun a => (f a).elim (Except.error (bad a)) .ok) =
      match as.find? fun a => (f a).isNone with
      | some a => .error (bad a)
      | none => .ok (as.filterMap f) := by
  induction as with
  | nil => rfl
  | cons a as ih =>
      rw [List.mapM_cons, ih]
      cases hf : f a with
      | none => simp [hf]; rfl
      | some b =>
          rw [List.find?_cons_of_neg (by simp [hf]), List.filterMap_cons_some hf]
          cases as.find? fun a => (f a).isNone <;> rfl

theorem mapM_id_map_some {α : Type} (as : List α) : (as.map some).mapM id = some as := by
  induction as with
  | nil => rfl
  | cons a as ih =>
      rw [List.map_cons, List.mapM_cons, ih]
      rfl

variable {w : Writing} {readTimestamp : String → Option Int}

theorem asNumBits_isSome {v : CellValue} : (asNumBits v).isSome = true ↔ Carries w .number v := by
  cases v <;> simp [asNumBits, Carries]

theorem sqlText_isSome {vt : ValueType} {v : CellValue} (h : vt ≠ .number) :
    (sqlText w vt v).isSome = true ↔ Carries w vt v := by
  cases vt with
  | number => exact absurd rfl h
  | dateTime => cases v <;> simp [sqlText, Carries, Option.isSome_iff_ne_none]
  | _ => cases v <;> simp [sqlText, Carries]

theorem valuesOf_text {vt : ValueType} (h : vt ≠ .number) (table : String)
    (vs : List CellValue) : valuesOf w table vt vs = do
      let texts ← vs.mapM fun v =>
        (sqlText w vt v).elim (.error s!"{table}: {display w v} is not a {valueTypeName vt}") .ok
      let _ ← sqlType vt
      return .text texts := by
  cases vt with
  | number => exact absurd rfl h
  | _ => rfl

/-- A value a statement cannot carry is an error. -/
theorem valuesOf_error {vt : ValueType} {vs : List CellValue} {v : CellValue} (table : String)
    (hv : v ∈ vs) (hbad : ¬Carries w vt v) : ∃ e, valuesOf w table vt vs = .error e := by
  have hfind : ∀ {β : Type} (f : CellValue → Option β), (f v).isSome = false →
      ∃ u, (vs.find? fun u => (f u).isNone) = some u := by
    intro β f hf
    have hsome : (vs.find? fun u => (f u).isNone).isSome = true := by
      rw [List.find?_isSome]
      exact ⟨v, hv, by rw [← Option.not_isSome, hf]; rfl⟩
    exact Option.isSome_iff_exists.mp hsome
  by_cases hnum : vt = .number
  · rw [hnum] at hbad ⊢
    obtain ⟨u, hu⟩ := hfind asNumBits (Bool.eq_false_iff.mpr fun h =>
      hbad (asNumBits_isSome.mp h))
    refine ⟨s!"{table}: {display w u} is not a {valueTypeName .number}", ?_⟩
    unfold valuesOf
    simp only [mapM_elim, hu]
    rfl
  · obtain ⟨u, hu⟩ := hfind (sqlText w vt) (Bool.eq_false_iff.mpr fun h =>
      hbad ((sqlText_isSome hnum).mp h))
    refine ⟨s!"{table}: {display w u} is not a {valueTypeName vt}", ?_⟩
    rw [valuesOf_text hnum]
    simp only [mapM_elim, hu]
    rfl

/-- A text is read back as the value it was written from. -/
theorem readText_sqlText
    (hdates : ∀ ms s, FourDigitYear ms → w.rfc3339 ms = some s → readTimestamp s = some ms)
    {vt : ValueType} {v : CellValue} {s : String} (hv : Readable v) (h : sqlText w vt v = some s) :
    readText readTimestamp vt s = some v := by
  unfold sqlText at h
  split at h
  · next b =>
      rw [← Option.some.inj h]
      cases b <;> rfl
  · next t => exact congrArg (fun t => some (CellValue.text t)) (Option.some.inj h).symm
  · next ms => exact congrArg (Option.map CellValue.date) (hdates ms s hv h)
  · cases h

theorem mapM_filterMap {α β : Type} {f : α → Option β} {g : β → Option α} {as : List α}
    (hf : ∀ a ∈ as, (f a).isSome = true) (hg : ∀ a ∈ as, ∀ b, f a = some b → g b = some a) :
    (as.filterMap f).mapM g = some as := by
  induction as with
  | nil => rfl
  | cons a as ih =>
      obtain ⟨b, hb⟩ := Option.isSome_iff_exists.mp (hf a List.mem_cons_self)
      rw [List.filterMap_cons_some hb, List.mapM_cons, hg a List.mem_cons_self b hb,
        ih (fun x hx => hf x (List.mem_cons_of_mem _ hx))
          fun x hx => hg x (List.mem_cons_of_mem _ hx)]
      rfl

/-- The value parameter of values a statement carries. -/
def paramOf (w : Writing) (vt : ValueType) (vs : List CellValue) : Values :=
  if vt = .number then .number (vs.filterMap asNumBits) else .text (vs.filterMap (sqlText w vt))

/-- A statement's values are as many as its rows. -/
def Values.HasLength (n : Nat) : Values → Prop
  | .number bits => bits.length = n
  | .text texts => texts.length = n

theorem length_filterMap {α β : Type} {f : α → Option β} {as : List α}
    (h : ∀ a ∈ as, (f a).isSome = true) : (as.filterMap f).length = as.length := by
  rw [List.length_filterMap_eq_countP, List.countP_eq_length]
  exact h

theorem find_isNone {α β : Type} {f : α → Option β} {as : List α}
    (h : ∀ a ∈ as, (f a).isSome = true) : (as.find? fun a => (f a).isNone) = none := by
  rw [List.find?_eq_none]
  intro a ha
  rw [← Option.not_isSome, h a ha]
  decide

section

variable {vt : ValueType} {vs : List CellValue}

theorem isSome_of_carries (h : ∀ v ∈ vs, Carries w vt v) :
    (vt = .number → ∀ v ∈ vs, (asNumBits v).isSome = true) ∧
      (vt ≠ .number → ∀ v ∈ vs, (sqlText w vt v).isSome = true) := by
  constructor
  · intro hnum v hv
    rw [hnum] at h
    exact asNumBits_isSome.mpr (h v hv)
  · intro hnum v hv
    exact (sqlText_isSome hnum).mpr (h v hv)

theorem valuesOf_ok (table : String) (hne : vs ≠ []) (h : ∀ v ∈ vs, Carries w vt v) :
    valuesOf w table vt vs = .ok (paramOf w vt vs) := by
  obtain ⟨hbits, htext⟩ := isSome_of_carries h
  unfold paramOf
  by_cases hnum : vt = .number
  · have hfind := find_isNone (hbits hnum)
    rw [if_pos hnum, hnum]
    unfold valuesOf
    simp only [mapM_elim, hfind]
    rfl
  · have hfind := find_isNone (htext hnum)
    rw [if_neg hnum, valuesOf_text hnum]
    simp only [mapM_elim, hfind]
    cases vt with
    | enum =>
        obtain ⟨v, hv⟩ := List.exists_mem_of_ne_nil vs hne
        exact absurd (h v hv) (by cases v <;> simp [Carries])
    | number => exact absurd rfl hnum
    | _ => rfl

theorem hasLength_paramOf (h : ∀ v ∈ vs, Carries w vt v) :
    (paramOf w vt vs).HasLength vs.length := by
  obtain ⟨hbits, htext⟩ := isSome_of_carries h
  unfold paramOf
  by_cases hnum : vt = .number
  · rw [if_pos hnum]
    exact length_filterMap (hbits hnum)
  · rw [if_neg hnum]
    exact length_filterMap (htext hnum)

/-- Values a statement carries are read back from its parameter. -/
theorem read_paramOf
    (hdates : ∀ ms s, FourDigitYear ms → w.rfc3339 ms = some s → readTimestamp s = some ms)
    (h : ∀ v ∈ vs, Carries w vt v) (hr : ∀ v ∈ vs, Readable v) :
    (paramOf w vt vs).read readTimestamp vt = some vs := by
  obtain ⟨hbits, htext⟩ := isSome_of_carries h
  unfold paramOf
  by_cases hnum : vt = .number
  · have hall : ∀ v ∈ vs, (asNumBits v).map CellValue.num = some v := by
      intro v hv
      obtain ⟨bits, hb⟩ := Option.isSome_iff_exists.mp (hbits hnum v hv)
      cases v with
      | num b => rfl
      | _ => cases hb
    rw [if_pos hnum]
    simp only [Values.read, if_pos hnum]
    rw [List.map_filterMap, List.filterMap_congr hall, List.filterMap_some]
  · rw [if_neg hnum]
    simp only [Values.read, if_neg hnum]
    exact mapM_filterMap (htext hnum) fun v hv s hs => readText_sqlText hdates (hr v hv) hs

end

/-! ## Running the statements -/

/-- The statement of some changed rows. -/
def upsertOf (table : String) (dimCols : List String) (vt : ValueType)
    (changed : List (List String × CellValue)) (vals : Values) : Statement :=
  ⟨if dimCols.length = 0 then .replace table vt else .upsert table dimCols vt,
    columns dimCols.length (changed.map (·.1)), some vals⟩

/-- The statement of some vanished rows. -/
def deleteOf (table : String) (dimCols : List String) (gone : List (List String)) : Statement :=
  ⟨if dimCols.length = 0 then .deleteAll table else .deleteIn table dimCols,
    columns dimCols.length gone, none⟩

/-- The upsert, where there is one, then the delete, where there is one. -/
def statements (table : String) (dimCols : List String) (vt : ValueType) (vals : Values)
    (old new : ResultRows) : List Statement :=
  (if changedRows old new = [] then []
    else [upsertOf table dimCols vt (changedRows old new) vals]) ++
  if goneRows old new = [] then [] else [deleteOf table dimCols (goneRows old new)]

theorem diffStatements_nil {table : String} {dimCols : List String} {vt : ValueType}
    {old new : ResultRows} (h : changedRows old new = []) (vals : Values) :
    diffStatements w table dimCols vt old new = .ok (statements table dimCols vt vals old new) := by
  unfold diffStatements statements
  simp only [h, if_true]
  rfl

theorem diffStatements_ok {table : String} {dimCols : List String} {vt : ValueType}
    {old new : ResultRows} {vals : Values} (h : changedRows old new ≠ [])
    (hvals : valuesOf w table vt ((changedRows old new).map (·.2)) = .ok vals) :
    diffStatements w table dimCols vt old new = .ok (statements table dimCols vt vals old new) := by
  unfold diffStatements statements
  simp only [if_neg h, hvals]
  rfl

theorem diffStatements_error {table : String} {dimCols : List String} {vt : ValueType}
    {old new : ResultRows} {e : String} (h : changedRows old new ≠ [])
    (hvals : valuesOf w table vt ((changedRows old new).map (·.2)) = .error e) :
    diffStatements w table dimCols vt old new = .error e := by
  unfold diffStatements
  simp only [if_neg h, hvals]
  rfl

/-- The changed rows inserted and the vanished ones deleted, a table is the new. -/
theorem apply_difference (old new : ResultRows) :
    deleteIn ((changedRows old new).foldl (fun t r => t.insert r.1 r.2) old) (goneRows old new) =
      new := by
  apply SortedMap.ext
  intro k
  rw [get?_deleteIn]
  cases hnew : new.get? k with
  | none =>
      by_cases hgone : k ∈ goneRows old new
      · exact if_pos hgone
      · have hold : old.get? k = none := by
          cases hold : old.get? k with
          | none => rfl
          | some u => exact absurd (mem_goneRows.mpr ⟨⟨u, hold⟩, hnew⟩) hgone
        have hkey : k ∉ (changedRows old new).map (·.1) := by
          intro hk
          obtain ⟨⟨k', v⟩, hr, heq⟩ := List.mem_map.mp hk
          have hv := (mem_changedRows.mp hr).1
          rw [show k' = k from heq, hnew] at hv
          cases hv
        rw [if_neg hgone, get?_foldl_insert_of_notMem _ hkey, hold]
  | some v =>
      have hgone : k ∉ goneRows old new := by
        intro hk
        rw [(mem_goneRows.mp hk).2] at hnew
        cases hnew
      rw [if_neg hgone]
      by_cases hold : old.get? k = some v
      · have hkey : k ∉ (changedRows old new).map (·.1) := by
          intro hk
          obtain ⟨⟨k', u⟩, hr, heq⟩ := List.mem_map.mp hk
          obtain ⟨hu, hne⟩ := mem_changedRows.mp hr
          rw [show k' = k from heq] at hu hne
          exact hne (hold.trans (hnew.symm.trans hu))
        rw [get?_foldl_insert_of_notMem _ hkey, hold]
      · exact get?_foldl_insert_of_mem _ (nodup_changedRows old new)
          (mem_changedRows.mpr ⟨hnew, hold⟩)

theorem insertedRows_eq (rows : List (List String × CellValue)) :
    insertedRows (rows.map fun r => (r.1.map some, some r.2)) = some rows := by
  unfold insertedRows
  induction rows with
  | nil => rfl
  | cons r rows ih =>
      rw [List.map_cons, List.mapM_cons, ih]
      simp only [mapM_id_map_some]
      rfl

theorem filterMap_mapM_id (keys : List (List String)) :
    (keys.map (·.map some)).filterMap (fun k => k.mapM id) = keys := by
  rw [List.filterMap_map]
  have hall : ∀ k ∈ keys, ((fun k : List (Option String) => k.mapM id) ∘ (·.map some)) k =
      some k := fun k _ => mapM_id_map_some k
  rw [List.filterMap_congr hall, List.filterMap_some]

theorem execute_upsert {table : String} {dimCols : List String} {vt : ValueType}
    {changed : List (List String × CellValue)} {vals : Values} (t : ResultRows)
    (hn : dimCols.length ≠ 0) (hlen : ∀ r ∈ changed, r.1.length = dimCols.length)
    (hnodup : (changed.map (·.1)).Nodup)
    (hread : vals.read readTimestamp vt = some (changed.map (·.2))) :
    (upsertOf table dimCols vt changed vals).execute readTimestamp t =
      some (changed.foldl (fun t r => t.insert r.1 r.2) t) := by
  have hcols : (columns dimCols.length (changed.map (·.1))).length = dimCols.length :=
    (columns_spec fun row hrow => by
      obtain ⟨r, hr, rfl⟩ := List.mem_map.mp hrow
      exact hlen r hr).1
  unfold upsertOf Statement.execute
  simp only [if_neg hn, hread, Option.bind_eq_bind, Option.bind_some, hcols, if_true]
  rw [unnestWith_columns hn hlen, insertedRows_eq, Option.bind_some]
  exact if_pos hnodup

theorem execute_deleteIn {table : String} {dimCols : List String} {gone : List (List String)}
    (t : ResultRows) (hn : dimCols.length ≠ 0) (hlen : ∀ k ∈ gone, k.length = dimCols.length) :
    (deleteOf table dimCols gone).execute readTimestamp t = some (deleteIn t gone) := by
  obtain ⟨hcols, -, hunnest⟩ := columns_spec hlen
  unfold deleteOf Statement.execute
  simp only [if_neg hn, hcols, if_true]
  rw [hunnest hn, filterMap_mapM_id]

/-- Without dimension columns a table has at most the one row. -/
theorem keys_eq_of_width_zero {keys : List (List String)} (hnodup : keys.Nodup)
    (h : ∀ k ∈ keys, k.length = 0) (hne : keys ≠ []) : keys = [[]] := by
  obtain ⟨k, ks, rfl⟩ := List.exists_cons_of_ne_nil hne
  have hk : k = [] := List.length_eq_zero_iff.mp (h k List.mem_cons_self)
  have hks : ks = [] := by
    rw [List.eq_nil_iff_forall_not_mem]
    intro j hj
    have hj0 : j = [] := List.length_eq_zero_iff.mp (h j (List.mem_cons_of_mem _ hj))
    rw [List.nodup_cons, hk] at hnodup
    exact hnodup.1 (hj0 ▸ hj)
  rw [hk, hks]

/-- The statements run on the old rows leave the new ones. -/
theorem run_statements {table : String} {dimCols : List String} {vt : ValueType} {vals : Values}
    {old new : ResultRows} (hold : HasWidth dimCols.length old)
    (hnew : HasWidth dimCols.length new)
    (hread : changedRows old new ≠ [] →
      vals.read readTimestamp vt = some ((changedRows old new).map (·.2))) :
    run readTimestamp (statements table dimCols vt vals old new) old = some new := by
  obtain ⟨hchanged, hgone⟩ := length_of_mem_difference hold hnew
  have happly := apply_difference old new
  have hkeys := nodup_changedRows old new
  have hdeleteNil : ∀ t : ResultRows, deleteIn t [] = t := by
    intro t
    apply SortedMap.ext
    intro k
    rw [get?_deleteIn, if_neg List.not_mem_nil]
  unfold run statements
  by_cases hn : dimCols.length = 0
  · -- The one row is replaced, or deleted, or as it was.
    by_cases hnil : changedRows old new = []
    · rw [hnil] at happly
      rw [if_pos hnil, List.nil_append]
      by_cases hg : goneRows old new = []
      · rw [hg, List.foldl_nil, hdeleteNil] at happly
        rw [if_pos hg, ← happly]
        rfl
      · have hone := keys_eq_of_width_zero (nodup_goneRows old new)
          (fun k hk => (hgone k hk).trans hn) hg
        have hempty : SortedMap.empty = new := by
          apply SortedMap.ext
          intro k
          rw [← happly, get?_deleteIn, List.foldl_nil, hone, SortedMap.get?_empty]
          cases hk : old.get? k with
          | none => rw [ite_self]
          | some v =>
              have hk0 := (hold k (SortedMap.mem_keys_of_get? hk)).trans hn
              rw [List.length_eq_zero_iff.mp hk0, if_pos (List.mem_singleton_self _)]
        rw [if_neg hg, List.foldlM_cons]
        unfold deleteOf Statement.execute
        simp only [if_pos hn]
        exact congrArg some hempty
    · have hone := keys_eq_of_width_zero hkeys (by
        intro k hk
        obtain ⟨r, hr, rfl⟩ := List.mem_map.mp hk
        exact (hchanged r hr).trans hn) (by simpa using hnil)
      obtain ⟨v, hv⟩ : ∃ v, changedRows old new = [([], v)] := by
        obtain ⟨r, hr⟩ := List.length_eq_one_iff.mp (by
          rw [← List.length_map (f := (·.1)), hone]
          rfl : (changedRows old new).length = 1)
        rw [hr, List.map_singleton, List.singleton_inj] at hone
        exact ⟨r.2, by rw [hr, ← hone]⟩
      have hnewRow : new.get? [] = some v := (mem_changedRows.mp (by rw [hv]; simp)).1
      have hg : goneRows old new = [] := by
        rw [List.eq_nil_iff_forall_not_mem]
        intro k hk
        have hnone := (mem_goneRows.mp hk).2
        rw [List.length_eq_zero_iff.mp ((hgone k hk).trans hn), hnewRow] at hnone
        cases hnone
      have hrow : SortedMap.insert .empty [] v = new := by
        apply SortedMap.ext
        intro k
        rw [SortedMap.get?_insert, SortedMap.get?_empty]
        by_cases hk : k = []
        · rw [if_pos hk, hk, hnewRow]
        · rw [if_neg hk]
          cases hget : new.get? k with
          | none => rfl
          | some u =>
              have hk0 := (hnew k (SortedMap.mem_keys_of_get? hget)).trans hn
              exact absurd (List.length_eq_zero_iff.mp hk0) hk
      have hvals := hread hnil
      rw [if_neg hnil, if_pos hg, List.append_nil, List.foldlM_cons]
      unfold upsertOf Statement.execute
      simp only [if_pos hn, hvals, hv, Option.bind_eq_bind, Option.bind_some]
      unfold upsert
      rw [if_pos (by simp)]
      exact congrArg some hrow
  · have hdelete : ∀ t : ResultRows,
        (if goneRows old new = [] then [] else [deleteOf table dimCols (goneRows old new)]).foldlM
          (fun t st => Statement.execute readTimestamp st t) t =
            some (deleteIn t (goneRows old new)) := by
      intro t
      by_cases hg : goneRows old new = []
      · rw [if_pos hg, hg, hdeleteNil]
        rfl
      · rw [if_neg hg, List.foldlM_cons, execute_deleteIn t hn hgone]
        rfl
    rw [List.foldlM_append]
    by_cases hnil : changedRows old new = []
    · rw [hnil, List.foldl_nil] at happly
      rw [if_pos hnil]
      change (_ >>= _ : Option ResultRows) = _
      rw [List.foldlM_nil, Option.pure_def, Option.bind_eq_bind, Option.bind_some, hdelete, happly]
    · rw [if_neg hnil, List.foldlM_cons, execute_upsert old hn hchanged hkeys (hread hnil)]
      simp only [List.foldlM_nil, Option.pure_def, Option.bind_eq_bind, Option.bind_some]
      rw [hdelete, happly]

/-! ## The rows named -/

theorem columns_zero {keys : List (List String)} (h : ∀ k ∈ keys, k.length = 0) :
    columns 0 keys = [] :=
  List.length_eq_zero_iff.mp (columns_spec h).1

theorem named_columns {n : Nat} {keys : List (List String)} {sql : Sql} {values : Option Values}
    (hn : n ≠ 0) (h : ∀ k ∈ keys, k.length = n) :
    (⟨sql, columns n keys, values⟩ : Statement).named = keys := by
  obtain ⟨hlen, -, hunnest⟩ := columns_spec h
  have hne : columns n keys ≠ [] := by
    intro hnil
    rw [hnil] at hlen
    exact hn hlen.symm
  unfold Statement.named
  rw [if_neg hne, hunnest hn, filterMap_mapM_id]

theorem named_zero {keys : List (List String)} {sql : Sql} {values : Option Values}
    (h : ∀ k ∈ keys, k.length = 0) (hrows : (⟨sql, [], values⟩ : Statement).rows = keys.length) :
    (⟨sql, columns 0 keys, values⟩ : Statement).named = keys := by
  rw [columns_zero h]
  unfold Statement.named
  rw [if_pos rfl, hrows]
  symm
  rw [List.eq_replicate_iff]
  exact ⟨rfl, fun k hk => List.length_eq_zero_iff.mp (h k hk)⟩

theorem named_statements {table : String} {dimCols : List String} {vt : ValueType} {vals : Values}
    {old new : ResultRows} (hold : HasWidth dimCols.length old)
    (hnew : HasWidth dimCols.length new)
    (hvals : changedRows old new ≠ [] → vals.HasLength (changedRows old new).length) :
    (statements table dimCols vt vals old new).flatMap Statement.named =
      (changedRows old new).map (·.1) ++ goneRows old new := by
  obtain ⟨hchanged, hgone⟩ := length_of_mem_difference hold hnew
  have hkeys : ∀ k ∈ (changedRows old new).map (·.1), k.length = dimCols.length := by
    intro k hk
    obtain ⟨r, hr, rfl⟩ := List.mem_map.mp hk
    exact hchanged r hr
  have hupsert : changedRows old new ≠ [] →
      (upsertOf table dimCols vt (changedRows old new) vals).named =
        (changedRows old new).map (·.1) := by
    intro hne
    unfold upsertOf
    by_cases hn : dimCols.length = 0
    · rw [hn] at hkeys ⊢
      apply named_zero hkeys
      have hlen := hvals hne
      rw [List.length_map]
      cases vals with
      | number bits => exact hlen
      | text texts => exact hlen
    · exact named_columns hn hkeys
  have hdelete : goneRows old new ≠ [] →
      (deleteOf table dimCols (goneRows old new)).named = goneRows old new := by
    intro hne
    unfold deleteOf
    by_cases hn : dimCols.length = 0
    · rw [hn] at hgone ⊢
      apply named_zero hgone
      rw [keys_eq_of_width_zero (nodup_goneRows old new) hgone hne]
      rfl
    · exact named_columns hn hgone
  unfold statements
  rw [List.flatMap_append]
  congr 1
  · by_cases hnil : changedRows old new = []
    · rw [if_pos hnil, hnil]
      rfl
    · rw [if_neg hnil, List.flatMap_singleton, hupsert hnil]
  · by_cases hnil : goneRows old new = []
    · rw [if_pos hnil, hnil]
      rfl
    · rw [if_neg hnil, List.flatMap_singleton, hdelete hnil]

/-! ## Cell changes -/

/-- The changes reported are the difference in key order. -/
theorem cellChanges_spec (old new : ResultRows) :
    ((cellChanges old new).map (·.1)).Perm
        ((changedRows old new).map (·.1) ++ goneRows old new) ∧
      (cellChanges old new).Pairwise (fun a b => a.1 ≤ b.1) ∧
      ∀ k c, (k, c) ∈ cellChanges old new ↔ old.get? k ≠ new.get? k ∧ c = new.get? k := by
  have hperm := List.mergeSort_perm
    ((changedRows old new).map (fun r => (r.1, some r.2)) ++
      (goneRows old new).map fun k => (k, none)) fun a b => decide (a.1 ≤ b.1)
  refine ⟨?_, ?_, fun k c => ?_⟩
  · have hmap := hperm.map (·.1)
    rw [List.map_append, List.map_map, List.map_map] at hmap
    have hid : (goneRows old new).map ((·.1) ∘ fun k => (k, (none : Option CellValue))) =
        goneRows old new := List.map_id _
    rw [hid] at hmap
    exact hmap
  · have hsorted := @List.pairwise_mergeSort _
      (fun a b : List String × Option CellValue => decide (a.1 ≤ b.1))
      (fun a b c hab hbc => decide_eq_true ((of_decide_eq_true hab).trans (of_decide_eq_true hbc)))
      (fun a b => by
        rw [Bool.or_eq_true, decide_eq_true_eq, decide_eq_true_eq]
        exact le_total a.1 b.1)
      ((changedRows old new).map (fun r => (r.1, some r.2)) ++
        (goneRows old new).map fun k => (k, none))
    exact hsorted.imp fun h => of_decide_eq_true h
  · unfold cellChanges
    rw [hperm.mem_iff, List.mem_append, List.mem_map, List.mem_map]
    constructor
    · rintro (⟨⟨k', v⟩, hr, heq⟩ | ⟨k', hk, heq⟩)
      · obtain ⟨rfl, rfl⟩ := Prod.mk.inj heq
        obtain ⟨hv, hne⟩ := mem_changedRows.mp hr
        exact ⟨fun h => hne (h.trans hv), hv.symm⟩
      · obtain ⟨rfl, rfl⟩ := Prod.mk.inj heq
        obtain ⟨⟨v, hv⟩, hnone⟩ := mem_goneRows.mp hk
        refine ⟨fun h => ?_, hnone.symm⟩
        rw [hnone, hv] at h
        cases h
    · rintro ⟨hne, rfl⟩
      cases hnew : new.get? k with
      | some v => exact Or.inl ⟨(k, v), mem_changedRows.mpr ⟨hnew, hnew ▸ hne⟩, rfl⟩
      | none =>
          cases hold : old.get? k with
          | none => exact absurd (hold.trans hnew.symm) hne
          | some u => exact Or.inr ⟨k, mem_goneRows.mpr ⟨⟨u, hold⟩, hnew⟩, rfl⟩

/-! ## The exact difference -/

theorem forall_changed {P : CellValue → Prop} {old new : ResultRows}
    (h : ∀ r ∈ changedRows old new, P r.2) : ∀ v ∈ (changedRows old new).map (·.2), P v := by
  intro v hv
  obtain ⟨r, hr, rfl⟩ := List.mem_map.mp hv
  exact h r hr

/-- The outcome of a difference whose changed values the statements carry. -/
theorem diffStatements_carried (table : String) (dimCols : List String) {vt : ValueType}
    {old new : ResultRows} (h : ∀ r ∈ changedRows old new, Carries w vt r.2) :
    diffStatements w table dimCols vt old new = .ok (statements table dimCols vt
      (paramOf w vt ((changedRows old new).map (·.2))) old new) := by
  by_cases hnil : changedRows old new = []
  · exact diffStatements_nil hnil _
  · exact diffStatements_ok hnil (valuesOf_ok table (by simpa using hnil) (forall_changed h))

theorem diffStatements_error_iff (w : Writing) (table : String) (dimCols : List String)
    (vt : ValueType) (old new : ResultRows) :
    (∃ e, diffStatements w table dimCols vt old new = .error e) ↔
      ∃ k v, new.get? k = some v ∧ old.get? k ≠ some v ∧ ¬Carries w vt v := by
  constructor
  · rintro ⟨e, he⟩
    by_contra hnone
    have hcarries : ∀ r ∈ changedRows old new, Carries w vt r.2 := by
      intro r hr
      obtain ⟨hv, hne⟩ := mem_changedRows.mp hr
      by_contra hbad
      exact hnone ⟨r.1, r.2, hv, hne, hbad⟩
    rw [diffStatements_carried table dimCols hcarries] at he
    cases he
  · rintro ⟨k, v, hnew, hne, hbad⟩
    have hmem := mem_changedRows.mpr ⟨hnew, hne⟩
    obtain ⟨e, he⟩ := valuesOf_error table (List.mem_map_of_mem (f := (·.2)) hmem) hbad
    exact ⟨e, diffStatements_error (List.ne_nil_of_mem hmem) he⟩

/-- A value of the type. -/
def OfType : ValueType → CellValue → Prop
  | .number, .num _ => True
  | .boolean, .bool _ => True
  | .text, .text _ => True
  | .dateTime, .date _ => True
  | _, _ => False

end Improv.PgModel.ResultTable
