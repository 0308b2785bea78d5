import Improv.StorageCsv.Import
import Improv.StorageCsv.Reading
/-!
# Exporting and importing again

A measure that was exported and is imported from the file has the same cells at
items of the same names.  Numbers, booleans and texts are the same values;
a date or an enum index, which no column is read as, comes back as its text.
-/

namespace Improv.StorageCsv

open Improv.Lib Improv.CoreModel Improv.Engine Improv.StorageSql
open Improv.PgModel (Items ItemInterner)

/-! ## One value -/

/-- What a value is once it was written and is read back. -/
def reread (w : Writing) (on : Bool) : Value → Value
  | .text s => .text (neutralize on s)
  | .dateTime t => .text (w.rfc3339 t)
  | .enum e => .text (toString e)
  | v => v

/-- Without the guard a number, a boolean or a text is read back as it was. -/
theorem reread_false (w : Writing) {v : Value} {ty : ValueType} (hty : v.typeOf = some ty)
    (hdate : ty ≠ .dateTime) (henum : ty ≠ .enum) : reread w false v = v := by
  cases v with
  | dateTime t =>
      cases hty
      exact absurd rfl hdate
  | enum e =>
      cases hty
      exact absurd rfl henum
  | _ => rfl

theorem readValue_valueText {w : Writing} {on : Bool} {ty : ValueType} {v : Value} {text : String}
    (hty : v.typeOf = some ty)
    (hnumber : ∀ n, v = .number n → Decimal.parseF64 (trim (w.number n)) = some n)
    (h : valueText w on v = some text) : readValue ty text = some (reread w on v) := by
  cases v with
  | number n =>
      cases hty
      cases h
      change (Decimal.parseF64 (trim (w.number n))).map Value.number = _
      rw [hnumber n rfl]
      rfl
  | boolean b =>
      cases hty
      cases h
      have hfalse : readValue .boolean "false" = some (.boolean false) := by decide +kernel
      have htrue : readValue .boolean "true" = some (.boolean true) := by decide +kernel
      cases b with
      | false => exact hfalse
      | true => exact htrue
  | text s =>
      cases hty
      cases h
      rfl
  | dateTime t =>
      cases hty
      cases h
      rfl
  | enum e =>
      cases hty
      cases h
      rfl
  | error e => cases hty

/-! ## The exported rows -/

/-- An input measure whose cells hold values of its type, each at an item of
every category of the measure, where no two items of such a category are written
alike. -/
structure Exportable (m : Model) (id : MeasureId) (x : Measure) (on : Bool) : Prop where
  found : m.measures.get? id = some x
  input : x.isDerived = false
  typed : ∀ k v, m.inputs.get? ⟨id, k⟩ = some v → v.typeOf = some x.valueType
  covers : ∀ k v, m.inputs.get? ⟨id, k⟩ = some v →
    ∀ c, (∃ i, k.get? c = some i) ↔ c ∈ x.categories
  items : ∀ k v, m.inputs.get? ⟨id, k⟩ = some v →
    ∀ c i, k.get? c = some i → ∃ y, m.items.get? i = some y ∧ y.category = c
  names : ∀ i j y z, m.items.get? i = some y → m.items.get? j = some z →
    y.category = z.category → y.category ∈ x.categories →
      neutralize on y.name = neutralize on z.name → i = j

/-- The name a row gives a category. -/
def writtenName (m : Model) (on : Bool) (coord : Coordinate) (c : CategoryId) : String :=
  ((itemName m coord c).map (neutralize on)).getD ""

/-- A coordinate by the names of its items. -/
def namesAt (m : Model) (coord : Coordinate) : SortedMap CategoryId (Option String) :=
  coord.map fun _ i => (m.items.get? i).map Item.name

theorem get?_namesAt (m : Model) (coord : Coordinate) (c : CategoryId) :
    (namesAt m coord).get? c = (coord.get? c).map fun i => (m.items.get? i).map Item.name :=
  SortedMap.get?_map _ _ _

section Rows

variable {m : Model} {id : MeasureId} {x : Measure} {on : Bool} {w : Writing}

theorem rowOf_eq (cell : Coordinate × String) :
    rowOf m x on cell = x.categories.map (writtenName m on cell.1) ++ [cell.2] := by
  unfold rowOf dimCols writtenName
  rw [List.map_map]
  rfl

theorem mem_inputRows {k : Coordinate} {text : String} :
    (k, text) ∈ inputRows w m id on ↔
      ∃ v, m.inputs.get? ⟨id, k⟩ = some v ∧ valueText w on v = some text := by
  unfold inputRows
  simp only [List.mem_filterMap, List.mem_filter, decide_eq_true_eq, Option.map_eq_some_iff,
    Prod.mk.injEq, Prod.exists]
  constructor
  · rintro ⟨⟨mid, k'⟩, v, ⟨hmem, rfl⟩, s, hs, rfl, rfl⟩
    exact ⟨v, SortedMap.get?_eq_some_iff.mpr hmem, hs⟩
  · rintro ⟨v, hv, hs⟩
    exact ⟨⟨id, k⟩, v, ⟨SortedMap.get?_eq_some_iff.mp hv, rfl⟩, text, hs, rfl, rfl⟩

/-- The file of an input measure. -/
theorem exportMeasureCsvWith_eq (h : Exportable m id x on)
    {evaluate : Model → MeasureId → Except String (List (Coordinate × CellValue))}
    {file : List (List String)} {n : Nat}
    (hfile : exportMeasureCsvWith w evaluate m id on = .ok (file, n)) :
    ∃ (header : List String) (rows : List (Coordinate × String)),
      file = header :: rows.map (rowOf m x on) ∧ n = rows.length ∧
        rows.Perm (inputRows w m id on) := by
  unfold exportMeasureCsvWith at hfile
  rw [h.found] at hfile
  simp only [h.input, Bool.false_eq_true, if_false, Except.map, Except.ok.injEq,
    Prod.mk.injEq] at hfile
  exact ⟨_, _, hfile.1.symm, hfile.2.symm, List.mergeSort_perm _ _⟩

end Rows

/-! ## The imported records -/

/-- The records of a file that the reader returns as they were written. -/
def Reads (r : Reader) : List (List String) → Prop
  | [] => False
  | header :: rows =>
    r.headers = .ok header ∧
      ∃ records : List StringRecord, r.records = records.map .ok ∧ records.map (·.fields) = rows

/-- Categories by their columns, the first to the last. -/
def columnsOf (cats : List CategoryId) : List (Nat × CategoryId) := cats.zipIdx.map Prod.swap

/-- An import of an exported file under the type, the categories and the columns
of its measure. -/
structure Mirrors (spec : ImportSpec) (header : List String) (x : Measure) : Prop where
  headed : spec.hasHeader = true
  type : spec.valueType = x.valueType
  columns : spec.columns (some header) = .ok (columnsOf x.categories, x.categories.length)

section Records

variable {cats : List CategoryId} {name : CategoryId → String} {text : String}

theorem namesOf_row :
    namesOf (columnsOf cats) (cats.map name ++ [text]) = cats.map fun c => (c, name c) := by
  unfold namesOf columnsOf field
  apply List.ext_getElem
  · simp
  · intro i hi hi'
    have hlt : i < cats.length := by simpa using hi'
    have hrow : i < (cats.map name).length := by simpa using hlt
    simp [List.getElem?_append_left hrow, hlt]

theorem zip_row : cats.zip (cats.map name ++ [text]) = cats.map fun c => (c, name c) := by
  induction cats with
  | nil => rfl
  | cons c cats ih =>
      rw [List.map_cons, List.cons_append, List.zip_cons_cons, ih, List.map_cons]

theorem field_value : field (cats.map name ++ [text]) cats.length = text := by
  unfold field
  simp

theorem maxIdx_columnsOf : maxIdx (columnsOf cats) cats.length = cats.length := by
  have hfold : ∀ l : List Nat, (∀ i ∈ l, i ≤ cats.length) →
      l.foldl max cats.length = cats.length := by
    intro l
    induction l with
    | nil => exact fun _ => rfl
    | cons i l ih =>
        intro hl
        rw [List.foldl_cons, max_eq_left (hl i List.mem_cons_self)]
        exact ih fun j hj => hl j (List.mem_cons_of_mem _ hj)
  apply hfold
  intro i hi
  unfold columnsOf at hi
  simp only [List.map_map, List.mem_map, Function.comp_apply, Prod.exists] at hi
  obtain ⟨c, j, hmem, rfl⟩ := hi
  have hlt := List.snd_lt_of_mem_zipIdx hmem
  exact hlt.le

end Records

theorem readCsv_mirrors {spec : ImportSpec} {header : List String} {x : Measure}
    (h : Mirrors spec header x) {r : Reader} (hr : r.headers = .ok header) (m : Model) :
    readCsv r m spec = importRecords spec (columnsOf x.categories) x.categories.length
      (.seededFrom m spec.itemIdBase) [] r.records := by
  have hresolved : resolved r spec = .ok (columnsOf x.categories, x.categories.length) := by
    unfold resolved
    rw [h.headed, hr]
    exact h.columns
  unfold readCsv
  rw [hresolved]

/-! ## The imported cells -/

/-- The cells of one measure are those of another: at items of the written
names, the values read back, one at each coordinate. -/
structure SameCells (w : Writing) (on : Bool) (m : Model) (id : MeasureId) (m' : Model)
    (id' : MeasureId) : Prop where
  cells : ∀ names v', (∃ k, m'.inputs.get? ⟨id', k⟩ = some v' ∧ namesAt m' k = names) ↔
    ∃ k v, m.inputs.get? ⟨id, k⟩ = some v ∧ v' = reread w on v ∧
      (namesAt m k).map (fun _ n => n.map (neutralize on)) = names
  one : ∀ k k' v v', m'.inputs.get? ⟨id', k⟩ = some v → m'.inputs.get? ⟨id', k'⟩ = some v' →
    namesAt m' k = namesAt m' k' → k = k'

section Imported

variable {m : Model} {id : MeasureId} {x : Measure} {on : Bool} {w : Writing}

/-- The coordinate a cell is imported at. -/
def landing (m : Model) (x : Measure) (on : Bool) (items : Items) (k : Coordinate) : Coordinate :=
  coordAt items (x.categories.map fun c => (c, writtenName m on k c))

/-- The name of a category's item is written as it is guarded. -/
theorem writtenName_of_get? {k : Coordinate} {c : CategoryId} {i : ItemId} {y : Item}
    (hk : k.get? c = some i) (hy : m.items.get? i = some y) :
    writtenName m on k c = neutralize on y.name := by
  unfold writtenName itemName
  rw [hk, Option.bind_some, hy]
  rfl

theorem cellOf_row (h : Exportable m id x on) {spec : ImportSpec}
    (htype : spec.valueType = x.valueType) {items : Items} {r : StringRecord} {k : Coordinate}
    {v : Value} {text : String} (hv : m.inputs.get? ⟨id, k⟩ = some v)
    (hnumber : ∀ n, v = .number n → Decimal.parseF64 (trim (w.number n)) = some n)
    (htext : valueText w on v = some text) (hfields : r.fields = rowOf m x on (k, text)) :
    cellOf spec (columnsOf x.categories) x.categories.length items r =
      some (landing m x on items k, reread w on v) := by
  unfold cellOf
  rw [hfields, rowOf_eq, field_value, namesOf_row, htype,
    readValue_valueText (h.typed k v hv) hnumber htext]
  rfl

/-- An imported coordinate names what the cell's coordinate does. -/
theorem namesAt_landing (h : Exportable m id x on) {m' : Model} {items : Items} {k : Coordinate}
    {v : Value} (hv : m.inputs.get? ⟨id, k⟩ = some v)
    (hitems : ∀ c ∈ x.categories, ∃ i y, items.find c (writtenName m on k c) = some i ∧
      m'.items.get? i = some y ∧ y.name = writtenName m on k c) :
    namesAt m' (landing m x on items k) =
      (namesAt m k).map fun _ n => n.map (neutralize on) := by
  ext1 c
  rw [get?_namesAt, SortedMap.get?_map, get?_namesAt]
  unfold landing
  rw [get?_coordAt]
  by_cases hc : c ∈ x.categories
  · obtain ⟨i, hi⟩ := (h.covers k v hv c).mpr hc
    obtain ⟨y, hy, -⟩ := h.items k v hv c i hi
    obtain ⟨j, z, hj, hz, hname⟩ := hitems c hc
    rw [if_pos hc, hj, hi]
    simp only [Option.getD_some, Option.map_some, hz, hy, hname, writtenName_of_get? hi hy]
  · have hnone : k.get? c = none := by
      cases hi : k.get? c with
      | none => rfl
      | some i => exact absurd ((h.covers k v hv c).mp ⟨i, hi⟩) hc
    rw [if_neg hc, hnone]
    rfl

/-- Cells written under the same names are the same. -/
theorem eq_of_namesAt (h : Exportable m id x on) {k k' : Coordinate} {v v' : Value}
    (hv : m.inputs.get? ⟨id, k⟩ = some v) (hv' : m.inputs.get? ⟨id, k'⟩ = some v')
    (hnames : ((namesAt m k).map fun _ n => n.map (neutralize on)) =
      (namesAt m k').map fun _ n => n.map (neutralize on)) : k = k' := by
  ext1 c
  have hc := congrArg (fun names => names.get? c) hnames
  simp only [SortedMap.get?_map, get?_namesAt] at hc
  cases hi : k.get? c with
  | none =>
      cases hj : k'.get? c with
      | none => rfl
      | some j =>
          rw [hi, hj] at hc
          cases hc
  | some i =>
      cases hj : k'.get? c with
      | none =>
          rw [hi, hj] at hc
          cases hc
      | some j =>
          obtain ⟨y, hy, hyc⟩ := h.items k v hv c i hi
          obtain ⟨z, hz, hzc⟩ := h.items k' v' hv' c j hj
          rw [hi, hj] at hc
          simp only [Option.map_some, hy, hz, Option.some.injEq] at hc
          have hmem : y.category ∈ x.categories := by
            rw [hyc]
            exact (h.covers k v hv c).mp ⟨i, hi⟩
          rw [h.names i j y z hy hz (hyc.trans hzc.symm) hmem hc]

/-- An import of a measure's cells, each at the items of its written names. -/
theorem sameCells_commit (h : Exportable m id x on) {m₀ : Model} {spec : ImportSpec}
    {ps : List Named} {cells : List (Coordinate × Value)}
    (hkeyed : ∀ k y, m₀.items.get? k = some y → y.id = k)
    (hnone : ∀ k, m₀.inputs.get? ⟨spec.measureId, k⟩ = none)
    (hnames : ∀ k v, m.inputs.get? ⟨id, k⟩ = some v →
      ∀ c ∈ x.categories, (c, writtenName m on k c) ∈ ps)
    (hcells : ∀ k' v', (k', v') ∈ cells ↔ ∃ k v, m.inputs.get? ⟨id, k⟩ = some v ∧
      k' = landing m x on (internAll (.seededFrom m₀ spec.itemIdBase) ps).map k ∧
        v' = reread w on v) :
    SameCells w on m id (commit spec m₀ (internAll (.seededFrom m₀ spec.itemIdBase) ps) cells)
      spec.measureId := by
  have hfirst : ∀ k v, m.inputs.get? ⟨id, k⟩ = some v →
      namesAt (commit spec m₀ (internAll (.seededFrom m₀ spec.itemIdBase) ps) cells)
        (landing m x on (internAll (.seededFrom m₀ spec.itemIdBase) ps).map k) =
          (namesAt m k).map fun _ n => n.map (neutralize on) := by
    intro k v hv
    apply namesAt_landing h hv
    intro c hc
    obtain ⟨i, hi⟩ := find_internAll (hnames k v hv c hc)
    obtain ⟨y, hy, -, hname⟩ := item_of_find hkeyed hi
    exact ⟨i, y, hi, hy, hname⟩
  have hinputs : ∀ k' v', (commit spec m₀ (internAll (.seededFrom m₀ spec.itemIdBase) ps)
      cells).inputs.get? ⟨spec.measureId, k'⟩ = some v' ↔ (k', v') ∈ cells := by
    have hone : ∀ k' v' v'', (k', v') ∈ cells → (k', v'') ∈ cells → v' = v'' := by
      intro k' v' v'' hmem hmem'
      obtain ⟨k₁, v₁, hv₁, hk₁, rfl⟩ := (hcells k' v').mp hmem
      obtain ⟨k₂, v₂, hv₂, hk₂, rfl⟩ := (hcells k' v'').mp hmem'
      have hsame : k₁ = k₂ := by
        apply eq_of_namesAt h hv₁ hv₂
        rw [← hfirst k₁ v₁ hv₁, ← hfirst k₂ v₂ hv₂, ← hk₁, ← hk₂]
      rw [hsame, hv₂, Option.some.injEq] at hv₁
      rw [hv₁]
    have hin : ∀ k' v', (commit spec m₀ (internAll (.seededFrom m₀ spec.itemIdBase) ps)
        cells).inputs.get? ⟨spec.measureId, k'⟩ = some v' → (k', v') ∈ cells := by
      intro k' v' hv'
      apply (of_get?_commit hv').resolve_right
      rw [hnone]
      exact Option.some_ne_none v' ∘ Eq.symm
    intro k' v'
    constructor
    · exact hin k' v'
    · intro hmem
      obtain ⟨v'', hv''⟩ := exists_get?_commit hmem (internAll (.seededFrom m₀ spec.itemIdBase) ps)
      rw [hone k' v' v'' hmem (hin k' v'' hv'')]
      exact hv''
  constructor
  · intro names v'
    constructor
    · rintro ⟨k', hk', rfl⟩
      obtain ⟨k, v, hv, rfl, rfl⟩ := (hcells k' v').mp ((hinputs k' v').mp hk')
      exact ⟨k, v, hv, rfl, (hfirst k v hv).symm⟩
    · rintro ⟨k, v, hv, rfl, rfl⟩
      exact ⟨_, (hinputs _ _).mpr ((hcells _ _).mpr ⟨k, v, hv, rfl, rfl⟩), hfirst k v hv⟩
  · intro k₁' k₂' v₁' v₂' h₁ h₂ hsame
    obtain ⟨k₁, v₁, hv₁, rfl, -⟩ := (hcells k₁' v₁').mp ((hinputs k₁' v₁').mp h₁)
    obtain ⟨k₂, v₂, hv₂, rfl, -⟩ := (hcells k₂' v₂').mp ((hinputs k₂' v₂').mp h₂)
    rw [hfirst k₁ v₁ hv₁, hfirst k₂ v₂ hv₂] at hsame
    rw [eq_of_namesAt h hv₁ hv₂ hsame]

/-- An exported measure imported from its file. -/
theorem import_exported (h : Exportable m id x on)
    (hnumber : ∀ k n, m.inputs.get? ⟨id, k⟩ = some (.number n) →
      Decimal.parseF64 (trim (w.number n)) = some n)
    {evaluate : Model → MeasureId → Except String (List (Coordinate × CellValue))}
    {header : List String} {rows : List (List String)} {n : Nat}
    (hfile : exportMeasureCsvWith w evaluate m id on = .ok (header :: rows, n))
    {r : Reader} (hr : Reads r (header :: rows)) {spec : ImportSpec} (hspec : Mirrors spec header x)
    (hbytes : ∀ row ∈ rows, ∀ f ∈ row, f.utf8ByteSize ≤ maxFieldBytes)
    (hlimit : rows.length ≤ spec.limit) {m₀ : Model}
    (hkeyed : ∀ k y, m₀.items.get? k = some y → y.id = k)
    (hnone : ∀ k, m₀.inputs.get? ⟨spec.measureId, k⟩ = none)
    (hfits : Fits (.seededFrom m₀ spec.itemIdBase) (rows.flatMap fun row => x.categories.zip row)) :
    ∃ m', importCsvFrom r m₀ spec = some (m', .ok n) ∧ SameCells w on m id m' spec.measureId := by
  obtain ⟨header', cells, hfile, hn, hperm⟩ := exportMeasureCsvWith_eq h hfile
  obtain ⟨-, hrows⟩ := List.cons.inj hfile
  obtain ⟨hheaders, records, hrecords, hfields⟩ := hr
  have hof : ∀ r ∈ records, ∃ k v text, m.inputs.get? ⟨id, k⟩ = some v ∧
      valueText w on v = some text ∧ r.fields = rowOf m x on (k, text) := by
    intro r hr
    have hmem : r.fields ∈ cells.map (rowOf m x on) := by
      rw [← hrows, ← hfields]
      exact List.mem_map_of_mem hr
    obtain ⟨⟨k, text⟩, hcell, hrow⟩ := List.mem_map.mp hmem
    obtain ⟨v, hv, htext⟩ := mem_inputRows.mp (hperm.mem_iff.mp hcell)
    exact ⟨k, v, text, hv, htext, hrow.symm⟩
  have hto : ∀ k v, m.inputs.get? ⟨id, k⟩ = some v → ∃ r ∈ records, ∃ text,
      valueText w on v = some text ∧ r.fields = rowOf m x on (k, text) := by
    intro k v hv
    obtain ⟨text, htext⟩ : ∃ text, valueText w on v = some text := by
      have htyped := h.typed k v hv
      cases v with
      | error e => cases htyped
      | _ => exact ⟨_, rfl⟩
    have hcell := hperm.mem_iff.mpr (mem_inputRows.mpr ⟨v, hv, htext⟩)
    have hmem : rowOf m x on (k, text) ∈ records.map (·.fields) := by
      rw [hfields, hrows]
      exact List.mem_map_of_mem hcell
    obtain ⟨r, hr, hrow⟩ := List.mem_map.mp hmem
    exact ⟨r, hr, text, htext, hrow⟩
  have hallNames : allNames (columnsOf x.categories) records =
      rows.flatMap fun row => x.categories.zip row := by
    unfold allNames
    rw [← hfields, List.flatMap_map]
    apply List.flatMap_congr
    intro r hr
    obtain ⟨k, v, text, -, -, hrow⟩ := hof r hr
    rw [hrow, rowOf_eq, namesOf_row, zip_row]
  have hfits' : Fits (.seededFrom m₀ spec.itemIdBase)
      (allNames (columnsOf x.categories) records) := by
    rw [hallNames]
    exact hfits
  have hsize : ∀ r ∈ records, (∀ f ∈ r.fields, f.utf8ByteSize ≤ maxFieldBytes) ∧
      maxIdx (columnsOf x.categories) x.categories.length < r.fields.length ∧
      (readValue spec.valueType (field r.fields x.categories.length)).isSome = true := by
    intro r hr
    obtain ⟨k, v, text, hv, htext, hrow⟩ := hof r hr
    refine ⟨?_, ?_, ?_⟩
    · apply hbytes
      rw [← hfields]
      exact List.mem_map_of_mem hr
    · rw [maxIdx_columnsOf, hrow, rowOf_eq, List.length_append, List.length_map,
        List.length_singleton]
      exact Nat.lt_succ_self _
    · rw [hrow, rowOf_eq, field_value, hspec.type,
        readValue_valueText (h.typed k v hv) (fun n hn => hnumber k n (hn ▸ hv)) htext]
      rfl
  have hcount : records.length = rows.length := by
    rw [← hfields, List.length_map]
  have hlength : (List.length ([] : List (Coordinate × Value))) + records.length ≤ spec.limit := by
    rw [List.length_nil, Nat.zero_add, hcount]
    exact hlimit
  obtain ⟨⟨it, imported⟩, hread⟩ := importRecords_of hsize hlength hfits'
  obtain ⟨records', hsame, hit, new, hnew, hcells⟩ := importRecords_ok hread
  obtain rfl : records = records' :=
    List.map_injective_iff.mpr (fun _ _ heq => Except.ok.inj heq) hsame
  rw [List.nil_append] at hnew
  subst hnew
  have hcell : ∀ r k v text, m.inputs.get? ⟨id, k⟩ = some v → valueText w on v = some text →
      r.fields = rowOf m x on (k, text) →
        cellOf spec (columnsOf x.categories) x.categories.length it.map r =
          some (landing m x on it.map k, reread w on v) :=
    fun r k v text hv htext hrow =>
      cellOf_row h hspec.type hv (fun n hn => hnumber k n (hn ▸ hv)) htext hrow
  have hmem : ∀ k' v', (k', v') ∈ imported ↔ ∃ k v, m.inputs.get? ⟨id, k⟩ = some v ∧
      k' = landing m x on it.map k ∧ v' = reread w on v := by
    intro k' v'
    constructor
    · intro hin
      have hsome : some (k', v') ∈ imported.map some := List.mem_map_of_mem hin
      rw [← hcells] at hsome
      obtain ⟨r, hr, hr'⟩ := List.mem_map.mp hsome
      obtain ⟨k, v, text, hv, htext, hrow⟩ := hof r hr
      rw [hcell r k v text hv htext hrow, Option.some.injEq, Prod.mk.injEq] at hr'
      exact ⟨k, v, hv, hr'.1.symm, hr'.2.symm⟩
    · rintro ⟨k, v, hv, rfl, rfl⟩
      obtain ⟨r, hr, text, htext, hrow⟩ := hto k v hv
      have hsome : some (landing m x on it.map k, reread w on v) ∈ imported.map some := by
        rw [← hcells, ← hcell r k v text hv htext hrow]
        exact List.mem_map_of_mem hr
      simpa using hsome
  have hnames : ∀ k v, m.inputs.get? ⟨id, k⟩ = some v → ∀ c ∈ x.categories,
      (c, writtenName m on k c) ∈ allNames (columnsOf x.categories) records := by
    intro k v hv c hc
    obtain ⟨r, hr, text, -, hrow⟩ := hto k v hv
    apply List.mem_flatMap.mpr
    refine ⟨r, hr, ?_⟩
    rw [hrow, rowOf_eq, namesOf_row]
    exact List.mem_map_of_mem hc
  have himported : imported.length = n := by
    have hlengths := congrArg List.length hcells
    rw [List.length_map, List.length_map, hcount, hrows, List.length_map] at hlengths
    exact hlengths.symm.trans hn.symm
  refine ⟨commit spec m₀ it imported, ?_, ?_⟩
  · unfold importCsvFrom
    rw [readCsv_mirrors hspec hheaders, hrecords, hread]
    simp only [himported]
  · subst hit
    exact sameCells_commit h hkeyed hnone hnames hmem

end Imported

/-! ## Rows and items -/

/-- A coordinate has an item of every mapped category, each of the category and
of a name that the record has in one of its columns. -/
def Bound (dims : List (Nat × CategoryId)) (fields : List String) (m : Model)
    (k : Coordinate) : Prop :=
  (∀ d ∈ dims, ∃ i, k.get? d.2 = some i) ∧
    ∀ c i, k.get? c = some i → ∃ j y, (j, c) ∈ dims ∧ m.items.get? i = some y ∧
      y.category = c ∧ y.name = field fields j

/-- What an import makes of a file: every record has its cell, every cell is one
of a record or was there before, and the items that were there stay. -/
structure Imports (r : Reader) (spec : ImportSpec) (m m' : Model) (n : Nat)
    (dims : List (Nat × CategoryId)) (valIdx : Nat) (records : List StringRecord) : Prop where
  columns : resolved r spec = .ok (dims, valIdx)
  read : r.records = records.map .ok
  count : n = records.length
  kept : ∀ k x, m.items.get? k = some x → m'.items.get? k = some x
  imported : ∀ record ∈ records, ∃ k v, Bound dims record.fields m' k ∧
    m'.inputs.get? ⟨spec.measureId, k⟩ = some v
  cells : ∀ k v, m'.inputs.get? ⟨spec.measureId, k⟩ = some v →
    m.inputs.get? ⟨spec.measureId, k⟩ = some v ∨
      ∃ record ∈ records, Bound dims record.fields m' k ∧
        readValue spec.valueType (field record.fields valIdx) = some v

theorem bound_coordAt {m : Model} (hm : ∀ k x, m.items.get? k = some x → x.id = k)
    (spec : ImportSpec) {dims : List (Nat × CategoryId)} {ps : List Named} {fields : List String}
    (hnames : ∀ p ∈ namesOf dims fields, p ∈ ps) (cells : List (Coordinate × Value)) :
    Bound dims fields (commit spec m (internAll (.seededFrom m spec.itemIdBase) ps) cells)
      (coordAt (internAll (.seededFrom m spec.itemIdBase) ps).map (namesOf dims fields)) := by
  constructor
  · intro d hd
    have hkeys : d.2 ∈ (coordAt (internAll (.seededFrom m spec.itemIdBase) ps).map
        (namesOf dims fields)).keys := by
      unfold coordAt Coordinate.fromPairs namesOf
      rw [SortedMap.mem_keys_ofList, List.map_map, List.map_map]
      exact List.mem_map_of_mem hd
    exact Option.isSome_iff_exists.mp (SortedMap.mem_keys_iff.mp hkeys)
  · intro c i hi
    obtain ⟨name, hname, hi⟩ := mem_of_get?_coordAt hi
    obtain ⟨j, hj⟩ := find_internAll (hnames _ hname)
    obtain ⟨y, hy, hcat, hyname⟩ := item_of_find hm hj
    obtain ⟨⟨col, cat⟩, hd, heq⟩ := List.mem_map.mp hname
    obtain ⟨rfl, rfl⟩ := Prod.mk.inj heq
    rw [hj, Option.getD_some] at hi
    rw [hi]
    exact ⟨col, y, hd, hy, hcat, hyname⟩

theorem importCsvFrom_imports {m : Model} (hm : ∀ k x, m.items.get? k = some x → x.id = k)
    {r : Reader} {spec : ImportSpec} {m' : Model} {n : Nat}
    (h : importCsvFrom r m spec = some (m', .ok n)) :
    ∃ dims valIdx records, Imports r spec m m' n dims valIdx records := by
  unfold importCsvFrom readCsv at h
  cases hcolumns : resolved r spec with
  | error e =>
      rw [hcolumns] at h
      cases h
  | ok columns =>
      obtain ⟨dims, valIdx⟩ := columns
      rw [hcolumns] at h
      simp only at h
      split at h
      · cases h
      · cases h
      · rename_i it cells hread
        cases h
        obtain ⟨records, hrecords, rfl, new, hnew, hcells⟩ := importRecords_ok hread
        rw [List.nil_append] at hnew
        subst hnew
        have hbound : ∀ record ∈ records, ∀ c,
            cellOf spec dims valIdx (internAll (.seededFrom m spec.itemIdBase)
              (allNames dims records)).map record = some c →
            Bound dims record.fields (commit spec m (internAll (.seededFrom m spec.itemIdBase)
              (allNames dims records)) cells) c.1 ∧
              readValue spec.valueType (field record.fields valIdx) = some c.2 := by
          intro record hr c hc
          unfold cellOf at hc
          obtain ⟨v, hv, rfl⟩ := Option.map_eq_some_iff.mp hc
          have hin : ∀ p ∈ namesOf dims record.fields, p ∈ allNames dims records :=
            fun p hp => List.mem_flatMap.mpr ⟨record, hr, hp⟩
          exact ⟨bound_coordAt hm spec hin cells, hv⟩
        refine ⟨dims, valIdx, records, hcolumns, hrecords, ?_,
          fun k x hx => items_commit_of_get? hx, fun record hr => ?_, fun k v hv => ?_⟩
        · have hlengths := congrArg List.length hcells
          rw [List.length_map, List.length_map] at hlengths
          exact hlengths.symm
        · have hsome := List.mem_map_of_mem hr (f := cellOf spec dims valIdx
            (internAll (.seededFrom m spec.itemIdBase) (allNames dims records)).map)
          rw [hcells] at hsome
          obtain ⟨c, hc, hcell⟩ := List.mem_map.mp hsome
          obtain ⟨v, hv⟩ := exists_get?_commit hc _
          exact ⟨c.1, v, (hbound record hr c hcell.symm).1, hv⟩
        · rcases of_get?_commit hv with hmem | hold
          · have hsome : some (k, v) ∈ cells.map some := List.mem_map_of_mem hmem
            rw [← hcells] at hsome
            obtain ⟨record, hr, hcell⟩ := List.mem_map.mp hsome
            exact .inr ⟨record, hr, hbound record hr (k, v) hcell⟩
          · exact .inl hold

/-! ## The exchange -/

/-- A model of one region and one cell. -/
def northOnly (ty : ValueType) (v : Value) : Model :=
  setInput (((Model.new.addCategory ⟨1⟩ "Region").addItem ⟨1⟩ ⟨1⟩ "North").addMeasure
    ⟨⟨1⟩, "Sales", ty, [⟨1⟩], .input, none, none⟩) ⟨1⟩ (.fromPairs [(⟨1⟩, ⟨1⟩)]) v

/-- The import of its file. -/
def northSpec (ty : ValueType) : ImportSpec :=
  ⟨"north.csv", true, ⟨1⟩, "Sales", ty, .name "Sales", [⟨.name "Region", ⟨1⟩, "Region"⟩], 1, none⟩

def northReader (text : String) : Reader :=
  ⟨.ok ["Region", "Sales"], [.ok ⟨some 2, ["North", text]⟩]⟩

def epochWriting : Writing :=
  ⟨fun _ => "0", fun _ => "1970-01-01T00:00:00+00:00", fun _ => none⟩

theorem get?_inputs_northOnly {ty : ValueType} {v v' : Value} {k : Coordinate}
    (h : (northOnly ty v).inputs.get? ⟨⟨1⟩, k⟩ = some v') :
    k = .fromPairs [(⟨1⟩, ⟨1⟩)] ∧ v' = v := by
  change (SortedMap.insert .empty (⟨⟨1⟩, .fromPairs [(⟨1⟩, ⟨1⟩)]⟩ : Cell) v).get? _ = _ at h
  rw [SortedMap.get?_insert] at h
  split at h
  · rename_i hk
    exact ⟨(Cell.mk.inj hk).2, (Option.some.inj h).symm⟩
  · cases h

theorem get?_items_northOnly {ty : ValueType} {v : Value} {i : ItemId} {y : Item}
    (h : (northOnly ty v).items.get? i = some y) : i = ⟨1⟩ ∧ y = ⟨⟨1⟩, ⟨1⟩, "North"⟩ := by
  change (SortedMap.insert .empty (⟨1⟩ : ItemId) (⟨⟨1⟩, ⟨1⟩, "North"⟩ : Item)).get? _ = _ at h
  rw [SortedMap.get?_insert] at h
  split at h
  · rename_i hi
    exact ⟨hi, (Option.some.inj h).symm⟩
  · cases h

theorem exportable_northOnly {ty : ValueType} {v : Value} (hty : v.typeOf = some ty) (on : Bool) :
    Exportable (northOnly ty v) ⟨1⟩ ⟨⟨1⟩, "Sales", ty, [⟨1⟩], .input, none, none⟩ on where
  found := rfl
  input := rfl
  typed := by
    intro k v' h
    rw [(get?_inputs_northOnly h).2]
    exact hty
  covers := by
    intro k v' h c
    rw [(get?_inputs_northOnly h).1]
    change (∃ i, (SortedMap.insert .empty (⟨1⟩ : CategoryId) (⟨1⟩ : ItemId)).get? c = some i) ↔ _
    rw [SortedMap.get?_insert, List.mem_singleton]
    by_cases hc : c = ⟨1⟩
    · simp [hc]
    · simp [hc]
  items := by
    intro k v' h c i hi
    rw [(get?_inputs_northOnly h).1] at hi
    change (SortedMap.insert .empty (⟨1⟩ : CategoryId) (⟨1⟩ : ItemId)).get? c = some i at hi
    rw [SortedMap.get?_insert] at hi
    split at hi
    · rename_i hc
      cases hi
      exact ⟨⟨⟨1⟩, ⟨1⟩, "North"⟩, rfl, hc.symm⟩
    · cases hi
  names := by
    intro i j y z hi hj _ _ _
    rw [(get?_items_northOnly hi).1, (get?_items_northOnly hj).1]

end Improv.StorageCsv
