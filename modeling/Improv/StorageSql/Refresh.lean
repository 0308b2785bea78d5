import Improv.Lib.ExceptLemmas
import Improv.StorageSql.Filling
/-!
# When imports and refreshes are all or nothing

An import that gets as far as its table has already made the categories and the
measure, and a refresh has already cleared the measure, so an error after that
leaves them so; the description cuts the query in the middle of a character;
and a refresh forgets the measure's format.  The conditions here are exactly
those under which none of this shows.
-/

namespace Improv.StorageSql

open Improv.Lib Improv.CoreModel Improv.PgModel

variable (floatText : F64 → String) (query : String → Except SqlError Table)

/-! ## What a call promises -/

/-- The names and numbers of a table's rows. -/
def RowsRead (dims : List (Nat × CategoryId)) (valIdx : Nat) (table : Table)
    (rows : List (List Named × F64)) : Prop :=
  List.Forall₂ (fun row r => r.1 = namesOf floatText dims row ∧ numberOf valIdx row = .ok r.2)
    table.rows rows

/-- A measure holds the cells of some rows, and nothing else is touched but the
items the rows add. -/
structure Imported (m m' : Model) (measure : MeasureId) (rows : List (List Named × F64)) :
    Prop where
  cells : ∀ coord, m'.inputs.get? ⟨measure, coord⟩ =
    ((rows.filter fun r => coordAt (Items.ofModel m') r.1 = coord).getLast?).map fun r =>
      Value.number r.2
  named : ∀ r ∈ rows, ∀ p ∈ r.1, ∃ i, (Items.ofModel m').find p.1 p.2 = some i
  items : ∀ k x, m.items.get? k = some x → m'.items.get? k = some x
  places : ∀ c x, m.categories.get? c = some x →
    ∃ new, m'.categories.get? c = some { x with items := x.items ++ new }
  new : ∀ k x, m'.items.get? k = some x → m.items.get? k = none →
    ∃ c, m'.categories.get? x.category = some c ∧ c.items.count k = 1
  others : ∀ k, k.measure ≠ measure → m'.inputs.get? k = m.inputs.get? k

/-- An import leaves the model as it was when it fails, and fills the measure
from the rows when it succeeds. -/
def ImportKeeps (m : Model) (spec : ImportSpec) : Model × Except SqlError Nat → Prop
  | (m', .error _) => m' = m
  | (m', .ok _) => ∃ table dims valIdx rows, query spec.query = .ok table ∧
      spec.columns table = .ok (dims, valIdx) ∧ RowsRead floatText dims valIdx table rows ∧
      Imported m m' spec.measureId rows

/-- A refresh leaves the model as it was when it fails, and when it succeeds
fills the measure from the rows and keeps its name, categories and format. -/
def RefreshKeeps (m : Model) (measure : MeasureId) : Model × Except SqlError Nat → Prop
  | (m', .error _) => m' = m
  | (m', .ok _) => ∃ source x x' table dims valIdx rows,
      m.sqlSources.get? measure = some source ∧ m.measures.get? measure = some x ∧
      query source.query = .ok table ∧
      (refreshSpec m measure source x 0).columns table = .ok (dims, valIdx) ∧
      RowsRead floatText dims valIdx table rows ∧ Imported m m' measure rows ∧
      m'.measures.get? measure = some x' ∧ x'.name = x.name ∧ x'.categories = x.categories ∧
      x'.format = x.format

/-- An import does not panic, and is all or nothing. -/
def ImportsWell (m : Model) (spec : ImportSpec) : Prop :=
  ∃ out, importQuery floatText query m spec = some out ∧ ImportKeeps floatText query m spec out

/-- A refresh does not panic, and is all or nothing. -/
def RefreshesWell (m : Model) (measure : MeasureId) : Prop :=
  ∃ out, refreshSqlMeasure floatText query m measure = some out ∧
    RefreshKeeps floatText query m measure out

/-! ## When it holds -/

/-- The table's part of the conditions: `kept` where it is refused, `taken` where
it is imported. -/
def TableMeets (m : Model) (spec : ImportSpec) (table : Table) (kept : Prop)
    (taken : List (Nat × CategoryId) → Nat → Prop) : Prop :=
  match spec.columns table with
  | .error _ => kept
  | .ok (dims, valIdx) =>
    Fits (.seededFrom m spec.itemIdBase) (reached floatText dims valIdx table.rows) ∧
      if table.rows.all (numeric valIdx) then taken dims valIdx else kept

/-- The model already has what an import makes before it reads the table: the
categories and the very measure. -/
def Made (m : Model) (spec : ImportSpec) (text : String) : Prop :=
  (∀ d ∈ spec.dimensions, m.categories.contains d.categoryId = true) ∧
    m.measures.get? spec.measureId = some (spec.measure text)

/-- Every cell the measure already has is at the coordinate of some row. -/
def Overwritten (m : Model) (spec : ImportSpec) (table : Table) (dims : List (Nat × CategoryId))
    (valIdx : Nat) : Prop :=
  ∀ coord, m.inputs.contains ⟨spec.measureId, coord⟩ = true → ∃ row ∈ table.rows,
    coordAt (internAll (.seededFrom m spec.itemIdBase)
      (reached floatText dims valIdx table.rows)).map (namesOf floatText dims row) = coord

/-- The query is refused or fails, or: its description is not cut inside a
character, and the table meets the rest. -/
def ImportMeets (m : Model) (spec : ImportSpec) : Prop :=
  ∀ table, checkReadOnlySql spec.query = .ok () → query spec.query = .ok table →
    ∃ text, truncate spec.query 80 = some text ∧
      TableMeets floatText m spec table (Made m spec text) (Overwritten floatText m spec table)

/-- There is nothing to refresh, or the query runs, its description is not cut
inside a character, and the table meets the rest. -/
def RefreshMeets (m : Model) (measure : MeasureId) : Prop :=
  ∀ source x, m.sqlSources.get? measure = some source → m.measures.get? measure = some x →
    source.dimensionColumns.length = x.categories.length →
    ∃ base table text, nextItemId m = some base ∧ checkReadOnlySql source.query = .ok () ∧
      query source.query = .ok table ∧ truncate source.query 80 = some text ∧
      TableMeets floatText m (refreshSpec m measure source x base) table
        (Made m (refreshSpec m measure source x base) text ∧
          ∀ coord, m.inputs.contains ⟨measure, coord⟩ = false)
        fun _ _ => x.format = none

/-! ## The import's steps -/

variable {floatText query} {m : Model} {spec : ImportSpec} {table : Table}

theorem of_columnIndex {name : String} {i : Nat} (h : table.columnIndex name = .ok i) :
    i < table.columns.length := by
  unfold Table.columnIndex at h
  split at h
  · rename_i hfind
    cases h
    exact (List.findIdx?_eq_some_iff_getElem.mp hfind).1
  · cases h

theorem of_columns {dims : List (Nat × CategoryId)} {valIdx : Nat}
    (h : spec.columns table = .ok (dims, valIdx)) :
    dims.map Prod.snd = spec.categories ∧ (∀ d ∈ dims, d.1 < table.columns.length) ∧
      valIdx < table.columns.length := by
  unfold ImportSpec.columns at h
  obtain ⟨dims', hdims, hrest⟩ := bind_eq_ok_iff.mp h
  obtain ⟨val, hval, hpure⟩ := bind_eq_ok_iff.mp hrest
  cases hpure
  have hall := mapM_eq_ok_iff.mp hdims
  clear hdims h hrest
  have hone : ∀ {d : DimensionMapping} {p : Nat × CategoryId},
      (do return ((← table.columnIndex d.column), d.categoryId) : Except SqlError _) = .ok p →
        p.2 = d.categoryId ∧ p.1 < table.columns.length := by
    intro d p hp
    obtain ⟨i, hi, hpure⟩ := bind_eq_ok_iff.mp hp
    cases hpure
    exact ⟨rfl, of_columnIndex hi⟩
  unfold ImportSpec.categories
  refine ⟨?_, ?_, of_columnIndex hval⟩
  · generalize spec.dimensions = ds at hall
    induction hall with
    | nil => rfl
    | cons hp _ ih => rw [List.map_cons, List.map_cons, ih, (hone hp).1]
  · generalize spec.dimensions = ds at hall
    induction hall with
    | nil => exact fun d hd => absurd hd List.not_mem_nil
    | cons hp _ ih =>
        intro d hd
        rcases List.mem_cons.mp hd with rfl | hd
        · exact (hone hp).2
        · exact ih d hd

/-- The model an import makes before it reads its table. -/
def prepared (m : Model) (spec : ImportSpec) (text : String) : Model :=
  (ensureCategories m spec.dimensions).addMeasure (spec.measure text)

theorem prepared_items (m : Model) (spec : ImportSpec) (text : String) :
    (prepared m spec text).items = m.items :=
  (ensureCategories_frame spec.dimensions m).1

theorem prepared_inputs (m : Model) (spec : ImportSpec) (text : String) :
    (prepared m spec text).inputs = m.inputs :=
  (ensureCategories_frame spec.dimensions m).2.1

theorem seededFrom_congr {m m' : Model} (h : m'.items = m.items) (base : Nat) :
    ItemInterner.seededFrom m' base = ItemInterner.seededFrom m base := by
  unfold ItemInterner.seededFrom ItemInterner.maxId Items.ofModel
  rw [h]

/-- An import that gets as far as its table, by cases. -/
theorem importQuery_cases {text : String} (hcheck : checkReadOnlySql spec.query = .ok ())
    (hquery : query spec.query = .ok table) (htext : truncate spec.query 80 = some text) :
    (∃ e e', spec.columns table = .error e ∧
      importQuery floatText query m spec = some (prepared m spec text, .error e')) ∨
    ∃ dims valIdx, spec.columns table = .ok (dims, valIdx) ∧
      ((¬Fits (.seededFrom m spec.itemIdBase) (reached floatText dims valIdx table.rows) ∧
          importQuery floatText query m spec = none) ∨
        Fits (.seededFrom m spec.itemIdBase) (reached floatText dims valIdx table.rows) ∧
        ((∃ e, table.rows.all (numeric valIdx) = false ∧
            importQuery floatText query m spec = some (prepared m spec text, .error e)) ∨
          table.rows.all (numeric valIdx) = true ∧ ∃ rows,
            RowsRead floatText dims valIdx table rows ∧
            importQuery floatText query m spec =
              some ((rows.map fun r => (coordAt (internAll (.seededFrom m spec.itemIdBase)
                  (reached floatText dims valIdx table.rows)).map r.1, r.2)).foldl
                (fun m c => setInput m spec.measureId c.1 (.number c.2))
                ((internAll (.seededFrom m spec.itemIdBase)
                  (reached floatText dims valIdx table.rows)).register (prepared m spec text)),
                .ok rows.length))) := by
  unfold importQuery
  simp only [hcheck, hquery, htext]
  cases hcolumns : spec.columns table with
  | error e => exact .inl ⟨e, e, rfl, rfl⟩
  | ok p =>
      obtain ⟨dims, valIdx⟩ := p
      obtain ⟨-, hdims, hval⟩ := of_columns hcolumns
      refine .inr ⟨dims, valIdx, rfl, ?_⟩
      have hseed : ItemInterner.seededFrom ((ensureCategories m spec.dimensions).addMeasure
          (spec.measure text)) spec.itemIdBase = .seededFrom m spec.itemIdBase :=
        seededFrom_congr (prepared_items m spec text) spec.itemIdBase
      simp only [hseed]
      have hrows : ∀ row ∈ table.rows, row.length = table.columns.length := table.full
      rcases @importRows_spec (.seededFrom m spec.itemIdBase) floatText dims valIdx
          spec.valueColumn table.rows
          (fun row hr d hd => by rw [hrows row hr]; exact hdims d hd)
          (fun row hr => by rw [hrows row hr]; exact hval) with
        ⟨hnot, hnone⟩ | ⟨hfits, ⟨e, ⟨row, hr, hbad⟩, herr⟩ | ⟨hall, cells, hok, hcells⟩⟩
      · rw [hnone]
        exact .inl ⟨hnot, rfl⟩
      · rw [herr]
        refine .inr ⟨hfits, .inl ⟨e, ?_, rfl⟩⟩
        rw [List.all_eq_false]
        exact ⟨row, hr, by rw [hbad]; exact Bool.false_ne_true⟩
      · rw [hok]
        refine .inr ⟨hfits, .inr ⟨List.all_eq_true.mpr hall, ?_⟩⟩
        have hforall := hcells _ fun _ _ _ h => h
        have hread : ∀ {rows : List (List SqlCell)} {cells : List (Coordinate × F64)} {items},
            List.Forall₂ (fun row c => coordAt items (namesOf floatText dims row) = c.1 ∧
              numberOf valIdx row = .ok c.2) rows cells →
            ∃ rs : List (List Named × F64), List.Forall₂ (fun row r =>
              r.1 = namesOf floatText dims row ∧ numberOf valIdx row = .ok r.2) rows rs ∧
              cells = rs.map fun r => (coordAt items r.1, r.2) := by
          intro rows cells items h
          induction h with
          | nil => exact ⟨[], .nil, rfl⟩
          | @cons row c _ _ hc _ ih =>
              obtain ⟨rs, hrs, hcells⟩ := ih
              refine ⟨(namesOf floatText dims row, c.2) :: rs, .cons ⟨rfl, hc.2⟩ hrs, ?_⟩
              rw [List.map_cons, ← hcells, hc.1]
        obtain ⟨rows, hread, rfl⟩ := hread hforall
        refine ⟨rows, hread, ?_⟩
        simp only [List.length_map]
        rfl

/-! ## A table that is imported -/

/-- A model with some interned items and the cells of some rows. -/
def filled (m : Model) (measure : MeasureId) (it : ItemInterner)
    (rows : List (List Named × F64)) : Model :=
  (rows.map fun r => (coordAt it.map r.1, r.2)).foldl
    (fun m c => setInput m measure c.1 (.number c.2)) (it.register m)

theorem get?_filled (m : Model) (measure : MeasureId) (it : ItemInterner)
    (rows : List (List Named × F64)) (k : Cell) :
    (filled m measure it rows).inputs.get? k =
      ((((rows.filter fun r => k = ⟨measure, coordAt it.map r.1⟩).getLast?).map fun r =>
        Value.number r.2).or (m.inputs.get? k)) := by
  unfold filled
  rw [get?_setInputs, (ItemInterner.register_frame it m).2, List.filter_map, List.getLast?_map,
    Option.map_map]
  rfl

theorem filled_frame (m : Model) (measure : MeasureId) (it : ItemInterner)
    (rows : List (List Named × F64)) :
    (filled m measure it rows).items = (it.register m).items ∧
      (filled m measure it rows).categories = (it.register m).categories ∧
      (filled m measure it rows).measures = m.measures := by
  obtain ⟨hitems, hcategories, hmeasures⟩ := setInputs_frame
    (rows.map fun r => (coordAt it.map r.1, r.2)) (it.register m) measure
  exact ⟨hitems, hcategories, hmeasures.trans (ItemInterner.register_frame it m).1⟩

/-- The names an import interns are of its categories. -/
theorem reached_categories {dims : List (Nat × CategoryId)} {valIdx : Nat}
    {rows : List (List SqlCell)} {p : Named} (h : p ∈ reached floatText dims valIdx rows) :
    p.1 ∈ dims.map Prod.snd := by
  induction rows with
  | nil => exact absurd h List.not_mem_nil
  | cons row rows ih =>
      rcases List.mem_append.mp h with h | h
      · obtain ⟨d, hd, rfl⟩ := List.mem_map.mp h
        exact List.mem_map_of_mem hd
      · split at h
        · exact ih h
        · exact absurd h List.not_mem_nil

/-- Where every row is numeric, the names of each are interned. -/
theorem namesOf_subset_reached {dims : List (Nat × CategoryId)} {valIdx : Nat}
    {rows : List (List SqlCell)} (hall : rows.all (numeric valIdx) = true) {row : List SqlCell}
    (hrow : row ∈ rows) {p : Named} (hp : p ∈ namesOf floatText dims row) :
    p ∈ reached floatText dims valIdx rows := by
  induction rows with
  | nil => exact absurd hrow List.not_mem_nil
  | cons first rows ih =>
      rw [List.all_cons, Bool.and_eq_true] at hall
      unfold reached
      rw [if_pos hall.1]
      rcases List.mem_cons.mp hrow with rfl | hrow
      · exact List.mem_append_left _ hp
      · exact List.mem_append_right _ (ih hall.2 hrow)

section Filled

variable {text : String} {it : ItemInterner} {rows : List (List Named × F64)}
  {ps : List Named}

/-- The items of an import's model are found as the import interned them. -/
theorem find_filled (hm : Sound m) (hit : ItemInterner.Minted m it) (c : CategoryId)
    (n : String) :
    (Items.ofModel (filled (prepared m spec text) spec.measureId it rows)).find c n =
      it.map.find c n := by
  have hitems := prepared_items m spec text
  have hkeyed : ∀ k x, (prepared m spec text).items.get? k = some x → x.id = k := by
    rw [hitems]
    exact hm.keyed
  have hminted : ItemInterner.Minted (prepared m spec text) it := by
    have hmodel := ItemInterner.ofModel_congr hitems
    have hmax : ItemInterner.maxId (prepared m spec text) = ItemInterner.maxId m := by
      unfold ItemInterner.maxId
      rw [hitems]
    constructor
    · rw [hmodel]
      exact hit.known
    · rw [hmodel, hmax]
      exact hit.range
    · rw [hmax]
      exact hit.injective
    · rw [hmax]
      exact hit.next
  rw [ItemInterner.ofModel_congr (filled_frame _ _ _ _).1]
  exact ItemInterner.find_register hkeyed hminted c n

/-- What an import's model keeps and adds. -/
theorem imported_of_filled (hm : Sound m) (hps : ∀ p ∈ ps, p.1 ∈ spec.categories)
    (hit : it = internAll (.seededFrom m spec.itemIdBase) ps)
    (hnamed : ∀ r ∈ rows, ∀ p ∈ r.1, p ∈ ps)
    (hold : ∀ coord, m.inputs.contains ⟨spec.measureId, coord⟩ = true →
      ∃ r ∈ rows, coordAt it.map r.1 = coord) :
    Imported m (filled (prepared m spec text) spec.measureId it rows) spec.measureId rows := by
  have hminted : ItemInterner.Minted m it := by
    rw [hit]
    exact minted_internAll (.seeded hm.keyed spec.itemIdBase) ps
  have hfind : ∀ c n, (Items.ofModel (filled (prepared m spec text) spec.measureId it
      rows)).find c n = it.map.find c n := find_filled hm hminted
  obtain ⟨hitems, hcategories, -⟩ := filled_frame (prepared m spec text) spec.measureId it rows
  have hprepared := prepared_items m spec text
  refine ⟨fun coord => ?_, fun r hr p hp => ?_, fun k x hx => ?_, fun c x hx => ?_,
    fun k x hx hnew => ?_, fun k hk => ?_⟩
  · have hcoord : ∀ qs : List Named, coordAt (Items.ofModel (filled (prepared m spec text)
        spec.measureId it rows)) qs = coordAt it.map qs := by
      intro qs
      unfold coordAt
      simp only [hfind]
    rw [get?_filled, prepared_inputs]
    simp only [hcoord, Cell.mk.injEq, true_and]
    have hflip : (rows.filter fun r => coord = coordAt it.map r.1) =
        rows.filter fun r => coordAt it.map r.1 = coord := by
      apply List.filter_congr
      intro r _
      rw [decide_eq_decide]
      exact eq_comm
    rw [hflip]
    cases hlast : (rows.filter fun r => coordAt it.map r.1 = coord).getLast? with
    | some r => rfl
    | none =>
        rw [Option.map_none, Option.none_or]
        by_contra hsome
        obtain ⟨r, hr, hat⟩ := hold coord (Option.isSome_iff_ne_none.mpr hsome)
        rw [List.getLast?_eq_none_iff, List.filter_eq_nil_iff] at hlast
        exact hlast r hr (by rw [hat]; exact decide_eq_true rfl)
  · rw [hfind, hit]
    exact find_internAll (hnamed r hr p hp)
  · rw [hitems]
    apply items_foldl_registerItem it.pairs
    rw [hprepared]
    exact hx
  · have hget : (prepared m spec text).categories.get? c = some x :=
      get?_ensureCategories spec.dimensions hx
    obtain ⟨new, hnew, -⟩ := categories_foldl_registerItem it.pairs hget
    rw [hcategories]
    exact ⟨new, hnew⟩
  · rw [hitems] at hx
    have hpair := of_items_foldl_registerItem it.pairs hx (by rw [hprepared]; exact hnew)
    have hat := ItemInterner.mem_pairs_iff.mp hpair
    have hcat : x.category ∈ spec.categories := by
      rw [hit] at hat
      rcases mem_of_find_internAll hat with hknown | hmem
      · obtain ⟨y, hy, -⟩ := Items.exists_of_find hm.keyed hknown
        rw [hnew] at hy
        cases hy
      · exact hps _ hmem
    obtain ⟨d, hd, hcategory⟩ := List.mem_map.mp hcat
    obtain ⟨y, hy⟩ := Option.isSome_iff_exists.mp (contains_ensureCategories hd m)
    rw [hcategory] at hy
    obtain ⟨new, hget, hnodup, hmem⟩ := categories_foldl_registerItem it.pairs
      (m := prepared m spec text) hy
    -- The new item was not listed before.
    have hunlisted : k ∉ y.items := by
      intro hin
      rcases of_get?_ensureCategories hy with hold | hnil
      · have hcontains := hm.listed _ _ hold k hin
        unfold SortedMap.contains at hcontains
        rw [hnew] at hcontains
        cases hcontains
      · rw [hnil] at hin
        exact absurd hin List.not_mem_nil
    refine ⟨_, (hcategories ▸ hget :), ?_⟩
    rw [List.count_append, List.count_eq_zero_of_not_mem hunlisted,
      List.count_eq_one_of_mem hnodup ((hmem k).mpr ⟨hunlisted, x.name, hpair⟩)]
  · rw [get?_filled, prepared_inputs]
    have hnone : (rows.filter fun r => k = ⟨spec.measureId, coordAt it.map r.1⟩) = [] := by
      rw [List.filter_eq_nil_iff]
      intro r _ heq
      rw [decide_eq_true_eq] at heq
      exact hk (by rw [heq])
    rw [hnone]
    rfl

end Filled

/-! ## The rows of a table -/

theorem RowsRead.unique {dims : List (Nat × CategoryId)} {valIdx : Nat}
    {rows rows' : List (List Named × F64)} (h : RowsRead floatText dims valIdx table rows)
    (h' : RowsRead floatText dims valIdx table rows') : rows = rows' := by
  unfold RowsRead at h h'
  generalize table.rows = trows at h h'
  induction h generalizing rows' with
  | nil =>
      cases h'
      rfl
  | @cons row r _ _ hr _ ih =>
      cases h' with
      | @cons _ r' _ _ hr' hrest =>
          have hvalue : r.2 = r'.2 := by
            have heq := hr.2
            rw [hr'.2] at heq
            exact (Except.ok.inj heq).symm
          rw [ih hrest, Prod.ext (hr.1.trans hr'.1.symm) hvalue]

theorem RowsRead.mem {dims : List (Nat × CategoryId)} {valIdx : Nat}
    {rows : List (List Named × F64)} (h : RowsRead floatText dims valIdx table rows)
    (ps : List Named) :
    (∃ r ∈ rows, r.1 = ps) ↔ ∃ row ∈ table.rows, namesOf floatText dims row = ps := by
  unfold RowsRead at h
  generalize table.rows = trows at h ⊢
  induction h with
  | nil => simp
  | cons hr _ ih =>
      simp only [List.mem_cons, exists_eq_or_imp, ih, hr.1]

/-! ## Imports -/

/-- An import changes nothing before it reads its table exactly where all it
makes is there. -/
theorem prepared_eq_iff {text : String} : prepared m spec text = m ↔ Made m spec text := by
  unfold prepared Model.addMeasure Made
  constructor
  · intro h
    constructor
    · rw [← ensureCategories_eq_iff]
      have hcategories := congrArg Model.categories h
      exact hcategories
    · have hmeasures := congrArg Model.measures h
      rw [← hmeasures]
      exact SortedMap.get?_insert_self _ _ _
  · rintro ⟨hcategories, hmeasure⟩
    have hinsert : m.measures.insert spec.measureId (spec.measure text) = m.measures := by
      ext1 k
      rw [SortedMap.get?_insert]
      by_cases hk : k = spec.measureId
      · rw [if_pos hk, hk, hmeasure]
      · rw [if_neg hk]
    rw [ensureCategories_with, ensureCategories_eq_iff.mpr hcategories]
    show { m with measures := m.measures.insert spec.measureId (spec.measure text) } = m
    rw [hinsert]

theorem names_of_columns {dims : List (Nat × CategoryId)} {valIdx : Nat}
    (h : spec.columns table = .ok (dims, valIdx)) :
    ∀ p ∈ reached floatText dims valIdx table.rows, p.1 ∈ spec.categories := by
  intro p hp
  rw [← (of_columns h).1]
  exact reached_categories hp

theorem importsWell_of_run {out : Model × Except SqlError Nat}
    (h : importQuery floatText query m spec = some out) :
    ImportsWell floatText query m spec ↔ ImportKeeps floatText query m spec out := by
  unfold ImportsWell
  rw [h]
  simp

theorem not_importsWell_of_panic (h : importQuery floatText query m spec = none) :
    ¬ImportsWell floatText query m spec := by
  rintro ⟨out, heq, -⟩
  rw [h] at heq
  cases heq

/-- An import that gets as far as its table. -/
theorem importsWell_table {text : String} (hm : Sound m)
    (hcheck : checkReadOnlySql spec.query = .ok ()) (hquery : query spec.query = .ok table)
    (htext : truncate spec.query 80 = some text) :
    ImportsWell floatText query m spec ↔
      TableMeets floatText m spec table (Made m spec text)
        (Overwritten floatText m spec table) := by
  unfold TableMeets
  rcases importQuery_cases hcheck hquery htext with ⟨e, e', hcolumns, hrun⟩ |
    ⟨dims, valIdx, hcolumns, ⟨hnot, hrun⟩ | ⟨hfits, ⟨e, hall, hrun⟩ | ⟨hall, rows, hrows, hrun⟩⟩⟩
  · rw [importsWell_of_run hrun, hcolumns]
    exact prepared_eq_iff
  · rw [hcolumns]
    exact iff_of_false (not_importsWell_of_panic hrun) fun h => hnot h.1
  · rw [importsWell_of_run hrun, hcolumns]
    simp only [hall, Bool.false_eq_true, if_false, hfits, true_and]
    exact prepared_eq_iff
  · rw [importsWell_of_run hrun, hcolumns]
    simp only [hall, if_true, hfits, true_and]
    have hminted := minted_internAll (.seeded hm.keyed spec.itemIdBase)
      (reached floatText dims valIdx table.rows)
    constructor
    · rintro ⟨table', dims', valIdx', rows', hquery', hcolumns', hrows', himported⟩ coord hcoord
      rw [hquery] at hquery'
      cases hquery'
      rw [hcolumns] at hcolumns'
      cases hcolumns'
      rw [hrows'.unique hrows] at himported
      -- The old cell is still there, so some row must stand at its coordinate.
      have hcell := himported.cells coord
      have hsome := get?_filled (prepared m spec text) spec.measureId
        (internAll (.seededFrom m spec.itemIdBase) (reached floatText dims valIdx table.rows))
        rows ⟨spec.measureId, coord⟩
      unfold filled at hsome
      rw [hsome, prepared_inputs] at hcell
      obtain ⟨v, hv⟩ := Option.isSome_iff_exists.mp hcoord
      rw [hv] at hcell
      cases hlast : (rows.filter fun r => coordAt (Items.ofModel (filled (prepared m spec text)
          spec.measureId (internAll (.seededFrom m spec.itemIdBase)
            (reached floatText dims valIdx table.rows)) rows)) r.1 = coord).getLast? with
      | none =>
          unfold filled at hlast
          rw [hlast] at hcell
          exact absurd hcell (by
            cases (rows.filter fun r => (⟨spec.measureId, coord⟩ : Cell) =
              ⟨spec.measureId, coordAt (internAll (.seededFrom m spec.itemIdBase)
                (reached floatText dims valIdx table.rows)).map r.1⟩).getLast? <;> simp)
      | some r =>
          have hmem := List.mem_filter.mp (List.mem_of_getLast? hlast)
          obtain ⟨row, hrow, hnames⟩ := (hrows.mem r.1).mp ⟨r, hmem.1, rfl⟩
          refine ⟨row, hrow, ?_⟩
          have hat := of_decide_eq_true hmem.2
          rw [hnames, ← hat]
          unfold coordAt
          simp only [find_filled hm hminted]
    · intro hover
      refine ⟨table, dims, valIdx, rows, hquery, hcolumns, hrows, ?_⟩
      apply imported_of_filled hm (names_of_columns hcolumns) rfl
      · intro r hr p hp
        obtain ⟨row, hrow, hnames⟩ := (hrows.mem r.1).mp ⟨r, hr, rfl⟩
        exact namesOf_subset_reached hall hrow (hnames ▸ hp)
      · intro coord hcoord
        obtain ⟨row, hrow, hat⟩ := hover coord hcoord
        obtain ⟨r, hr, hnames⟩ := (hrows.mem _).mpr ⟨row, hrow, rfl⟩
        exact ⟨r, hr, by rw [hnames, hat]⟩

/-- An import does all it promises exactly where its conditions hold. -/
theorem importsWell_iff (hm : Sound m) :
    ImportsWell floatText query m spec ↔ ImportMeets floatText query m spec := by
  cases hcheck : checkReadOnlySql spec.query with
  | error e =>
      have hrun : importQuery floatText query m spec = some (m, .error e) := by
        unfold importQuery
        simp only [hcheck]
      refine iff_of_true ⟨(m, .error e), hrun, rfl⟩ fun table hok => ?_
      rw [hcheck] at hok
      cases hok
  | ok u =>
      cases hquery : query spec.query with
      | error e =>
          have hrun : importQuery floatText query m spec = some (m, .error e) := by
            unfold importQuery
            simp only [hcheck, hquery]
          refine iff_of_true ⟨(m, .error e), hrun, rfl⟩ fun table _ hok => ?_
          rw [hquery] at hok
          cases hok
      | ok table =>
          have hmeets : ImportMeets floatText query m spec ↔
              ∃ text, truncate spec.query 80 = some text ∧
                TableMeets floatText m spec table (Made m spec text)
                  (Overwritten floatText m spec table) := by
            constructor
            · exact fun h => h table hcheck hquery
            · intro h table' _ hquery'
              rw [hquery] at hquery'
              cases hquery'
              exact h
          rw [hmeets]
          cases htext : truncate spec.query 80 with
          | none =>
              have hrun : importQuery floatText query m spec = none := by
                unfold importQuery
                simp only [hcheck, hquery, htext]
              exact iff_of_false (not_importsWell_of_panic hrun) (by simp)
          | some text =>
              have htable : (∃ text', some text = some text' ∧
                  TableMeets floatText m spec table (Made m spec text')
                    (Overwritten floatText m spec table)) ↔
                  TableMeets floatText m spec table (Made m spec text)
                    (Overwritten floatText m spec table) := by
                simp
              rw [htable]
              exact importsWell_table hm hcheck hquery htext

/-! ## Refreshes -/

section Refreshing

variable {measure : MeasureId} {source : SqlSource} {x : Measure} {base : Nat}

theorem Sound.cleared (hm : Sound m) (measure : MeasureId) : Sound (cleared m measure) :=
  ⟨hm.keyed, hm.listed⟩

theorem categories_refreshSpec (h : source.dimensionColumns.length = x.categories.length) :
    (refreshSpec m measure source x base).categories = x.categories := by
  unfold ImportSpec.categories refreshSpec
  rw [List.map_map]
  exact List.map_snd_zip (le_of_eq h.symm)

/-- A refresh changes nothing before it reads its table exactly where the
measure is just as it makes it and has no cell. -/
theorem prepared_cleared_eq_iff {text : String} (hspec : spec.measureId = measure) :
    prepared (cleared m measure) spec text = m ↔
      Made m spec text ∧ ∀ coord, m.inputs.contains ⟨measure, coord⟩ = false := by
  have hkept : ∀ {k : Cell}, (m.inputs.filter fun k _ => k.measure ≠ measure).get? k =
      if k.measure ≠ measure then m.inputs.get? k else none := by
    intro k
    rw [SortedMap.get?_filter]
    cases m.inputs.get? k <;> by_cases hk : k.measure = measure <;> simp [Option.filter, hk]
  constructor
  · intro h
    refine ⟨⟨?_, ?_⟩, fun coord => ?_⟩
    · have hcategories := congrArg Model.categories h
      exact ensureCategories_eq_iff (m := cleared m measure).mp hcategories
    · have hmeasures := congrArg Model.measures h
      rw [← hmeasures]
      exact SortedMap.get?_insert_self _ _ _
    · have hinputs := congrArg Model.inputs h
      rw [prepared_inputs] at hinputs
      rw [← hinputs]
      unfold SortedMap.contains cleared
      simp only [hkept, ne_eq, not_true_eq_false, if_false, Option.isSome_none]
  · rintro ⟨⟨hcategories, hmeasure⟩, hnone⟩
    have hinputs : (m.inputs.filter fun k _ => k.measure ≠ measure) = m.inputs := by
      ext1 k
      rw [hkept]
      by_cases hk : k.measure = measure
      · have hempty := hnone k.coord
        rw [← hk] at hempty
        have hget : m.inputs.get? k = none := by
          rw [← Option.not_isSome_iff_eq_none, Bool.not_eq_true]
          exact hempty
        rw [hget]
        split <;> rfl
      · rw [if_pos hk]
    have hmeasures : (m.measures.erase measure).insert spec.measureId (spec.measure text) =
        m.measures := by
      ext1 k
      rw [SortedMap.get?_insert, SortedMap.get?_erase]
      by_cases hk : k = spec.measureId
      · rw [if_pos hk, hk, hmeasure]
      · rw [if_neg hk, if_neg (hspec ▸ hk)]
    have hkeep : (ensureCategories (cleared m measure) spec.dimensions).categories =
        m.categories := ensureCategories_eq_iff.mpr hcategories
    unfold prepared Model.addMeasure
    rw [ensureCategories_with, hkeep]
    show { m with
      inputs := m.inputs.filter fun k _ => k.measure ≠ measure
      measures := (m.measures.erase measure).insert spec.measureId (spec.measure text) } = m
    rw [hinputs, hmeasures]

theorem refreshesWell_of_run {out : Model × Except SqlError Nat}
    (h : refreshSqlMeasure floatText query m measure = some out) :
    RefreshesWell floatText query m measure ↔ RefreshKeeps floatText query m measure out := by
  unfold RefreshesWell
  rw [h]
  simp

theorem not_refreshesWell_of_panic (h : refreshSqlMeasure floatText query m measure = none) :
    ¬RefreshesWell floatText query m measure := by
  rintro ⟨out, heq, -⟩
  rw [h] at heq
  cases heq

/-- A refresh that ends before it changes anything. -/
theorem refreshesWell_of_refused
    (h : ∃ e, refreshSqlMeasure floatText query m measure = some (m, .error e)) :
    RefreshesWell floatText query m measure := by
  obtain ⟨e, h⟩ := h
  exact ⟨(m, .error e), h, rfl⟩

/-- A refresh that loses its measure on an error. -/
theorem not_refreshesWell_of_error {e : SqlError} (hx : m.measures.get? measure = some x)
    (h : refreshSqlMeasure floatText query m measure = some (cleared m measure, .error e)) :
    ¬RefreshesWell floatText query m measure := by
  rw [refreshesWell_of_run h]
  intro heq
  have hmeasures := congrArg (fun m => Model.measures m |>.get? measure) heq
  unfold cleared at hmeasures
  simp only [SortedMap.get?_erase_self, hx] at hmeasures
  cases hmeasures

/-- What the import of a refresh keeps of the model it started from. -/
theorem Imported.of_cleared {m' : Model} {rows : List (List Named × F64)}
    (h : Imported (cleared m measure) m' measure rows) : Imported m m' measure rows where
  cells := h.cells
  named := h.named
  items := h.items
  places := h.places
  new := h.new
  others k hk := by
    rw [h.others k hk]
    unfold cleared
    rw [SortedMap.get?_filter]
    cases m.inputs.get? k <;> simp [Option.filter, hk]

/-- A refresh that gets as far as its table. -/
theorem refreshesWell_table {text : String} (hm : Sound m)
    (hsource : m.sqlSources.get? measure = some source) (hx : m.measures.get? measure = some x)
    (hlength : source.dimensionColumns.length = x.categories.length)
    (hrefresh : refreshSqlMeasure floatText query m measure =
      importQuery floatText query (cleared m measure) (refreshSpec m measure source x base))
    (hcheck : checkReadOnlySql source.query = .ok ()) (hquery : query source.query = .ok table)
    (htext : truncate source.query 80 = some text) :
    RefreshesWell floatText query m measure ↔
      TableMeets floatText m (refreshSpec m measure source x base) table
        (Made m (refreshSpec m measure source x base) text ∧
          ∀ coord, m.inputs.contains ⟨measure, coord⟩ = false)
        fun _ _ => x.format = none := by
  have hseed : ItemInterner.seededFrom (cleared m measure) (refreshSpec m measure source x
      base).itemIdBase = .seededFrom m (refreshSpec m measure source x base).itemIdBase :=
    seededFrom_congr rfl _
  unfold TableMeets
  have hcheck' : checkReadOnlySql (refreshSpec m measure source x base).query = .ok () := hcheck
  rcases importQuery_cases (m := cleared m measure) hcheck' hquery htext with
    ⟨e, e', hcolumns, hrun⟩ |
    ⟨dims, valIdx, hcolumns, ⟨hnot, hrun⟩ | ⟨hfits, ⟨e, hall, hrun⟩ | ⟨hall, rows, hrows, hrun⟩⟩⟩
  · rw [refreshesWell_of_run (hrefresh.trans hrun), hcolumns]
    exact prepared_cleared_eq_iff rfl
  · rw [hcolumns]
    rw [hseed] at hnot
    exact iff_of_false (not_refreshesWell_of_panic (hrefresh.trans hrun)) fun h => hnot h.1
  · rw [hseed] at hfits
    rw [refreshesWell_of_run (hrefresh.trans hrun), hcolumns]
    simp only [hall, Bool.false_eq_true, if_false, hfits, true_and]
    exact prepared_cleared_eq_iff rfl
  · have himported : Imported (cleared m measure) (filled (prepared (cleared m measure)
        (refreshSpec m measure source x base) text)
          (refreshSpec m measure source x base).measureId (internAll (.seededFrom
          (cleared m measure) (refreshSpec m measure source x base).itemIdBase)
          (reached floatText dims valIdx table.rows)) rows)
        (refreshSpec m measure source x base).measureId rows := by
      apply imported_of_filled (hm.cleared measure) (names_of_columns hcolumns) rfl
      · intro r hr p hp
        obtain ⟨row, hrow, hnames⟩ := (hrows.mem r.1).mp ⟨r, hr, rfl⟩
        exact namesOf_subset_reached hall hrow (hnames ▸ hp)
      · intro coord hcoord
        obtain ⟨v, hv⟩ := Option.isSome_iff_exists.mp hcoord
        unfold cleared at hv
        rw [SortedMap.get?_filter, Option.filter_eq_some_iff] at hv
        exact absurd hv.2 (by simp [refreshSpec])
    have hmeasure := (filled_frame (prepared (cleared m measure)
      (refreshSpec m measure source x base) text) measure (internAll (.seededFrom
        (cleared m measure) (refreshSpec m measure source x base).itemIdBase)
        (reached floatText dims valIdx table.rows)) rows).2.2
    have hget : (prepared (cleared m measure) (refreshSpec m measure source x base)
        text).measures.get? measure =
          some ((refreshSpec m measure source x base).measure text) :=
      SortedMap.get?_insert_self _ _ _
    rw [hseed] at hfits
    rw [refreshesWell_of_run (hrefresh.trans hrun), hcolumns]
    simp only [hall, if_true, hfits, true_and]
    constructor
    · rintro ⟨_, x₀, x', _, _, _, _, -, hx₀, -, -, -, -, hx', -, -, hformat⟩
      rw [hx] at hx₀
      cases hx₀
      have hat := (congrArg (fun ms => ms.get? measure) hmeasure).trans hget
      have heq := hx'.symm.trans hat
      cases heq
      exact hformat.symm
    · intro hformat
      have hat := (congrArg (fun ms => ms.get? measure) hmeasure).trans hget
      exact ⟨source, x, (refreshSpec m measure source x base).measure text, table, dims, valIdx,
        rows, hsource, hx, hquery, hcolumns, hrows, himported.of_cleared, hat, rfl,
        categories_refreshSpec hlength, hformat.symm⟩

/-- A refresh does all it promises exactly where its conditions hold. -/
theorem refreshesWell_iff (hm : Sound m) :
    RefreshesWell floatText query m measure ↔ RefreshMeets floatText query m measure := by
  cases hsource : m.sqlSources.get? measure with
  | none =>
      have hrun : ∃ e, refreshSqlMeasure floatText query m measure = some (m, .error e) := by
        unfold refreshSqlMeasure
        rw [hsource]
        exact ⟨_, rfl⟩
      refine iff_of_true (refreshesWell_of_refused hrun) fun source x hsome => ?_
      rw [hsource] at hsome
      cases hsome
  | some source =>
      cases hx : m.measures.get? measure with
      | none =>
          have hrun : ∃ e, refreshSqlMeasure floatText query m measure = some (m, .error e) := by
            unfold refreshSqlMeasure
            rw [hsource, hx]
            exact ⟨_, rfl⟩
          refine iff_of_true (refreshesWell_of_refused hrun) fun source x _ hsome => ?_
          rw [hx] at hsome
          cases hsome
      | some x =>
          by_cases hlength : source.dimensionColumns.length = x.categories.length
          · have hmeets : RefreshMeets floatText query m measure ↔
                ∃ base table text, nextItemId m = some base ∧
                  checkReadOnlySql source.query = .ok () ∧ query source.query = .ok table ∧
                  truncate source.query 80 = some text ∧
                  TableMeets floatText m (refreshSpec m measure source x base) table
                    (Made m (refreshSpec m measure source x base) text ∧
                      ∀ coord, m.inputs.contains ⟨measure, coord⟩ = false)
                    fun _ _ => x.format = none := by
              constructor
              · exact fun h => h source x hsource hx hlength
              · intro h source' x' hsource' hx' _
                rw [hsource] at hsource'
                rw [hx] at hx'
                cases hsource'
                cases hx'
                exact h
            rw [hmeets]
            cases hbase : nextItemId m with
            | none =>
                refine iff_of_false (not_refreshesWell_of_panic ?_) (by simp)
                unfold refreshSqlMeasure
                simp only [hsource, hx, hlength, ne_eq, not_true_eq_false, if_false, hbase]
            | some base =>
                have hrefresh : refreshSqlMeasure floatText query m measure =
                    importQuery floatText query (cleared m measure)
                      (refreshSpec m measure source x base) := by
                  unfold refreshSqlMeasure
                  simp only [hsource, hx, hlength, ne_eq, not_true_eq_false, if_false, hbase]
                have hspec : (refreshSpec m measure source x base).query = source.query := rfl
                cases hcheck : checkReadOnlySql source.query with
                | error e =>
                    refine iff_of_false (not_refreshesWell_of_error (e := e) hx ?_) (by simp)
                    rw [hrefresh]
                    unfold importQuery
                    simp only [hspec, hcheck]
                | ok u =>
                    cases hquery : query source.query with
                    | error e =>
                        refine iff_of_false (not_refreshesWell_of_error (e := e) hx ?_) (by simp)
                        rw [hrefresh]
                        unfold importQuery
                        simp only [hspec, hcheck, hquery]
                    | ok table =>
                        cases htext : truncate source.query 80 with
                        | none =>
                            refine iff_of_false (not_refreshesWell_of_panic ?_) (by simp)
                            rw [hrefresh]
                            unfold importQuery
                            simp only [hspec, hcheck, hquery, htext]
                        | some text =>
                            rw [refreshesWell_table hm hsource hx hlength hrefresh hcheck hquery
                              htext]
                            simp
          · have hrun : ∃ e, refreshSqlMeasure floatText query m measure =
                some (m, .error e) := by
              unfold refreshSqlMeasure
              rw [hsource, hx]
              exact ⟨_, if_pos hlength⟩
            refine iff_of_true (refreshesWell_of_refused hrun) ?_
            intro source' x' hsource' hx' hlength'
            rw [hsource] at hsource'
            rw [hx] at hx'
            cases hsource'
            cases hx'
            exact absurd hlength' hlength

end Refreshing

/-- A backend with one sale. -/
def oneSale (_ : String) : Except SqlError Table :=
  .ok ⟨["city", "amount"], [[.text "Oslo", .int 5]], by decide⟩

/-- A query of 81 bytes, the last two of them one character. -/
def wideQuery : String := "SELECT " ++ "".pushn 'a' 72 ++ "é"

/-- A measure a query fills. -/
def filledOnce : Model :=
  { Model.new.addMeasure ⟨⟨1⟩, "Sales", .number, [], .input, none, some ⟨some 2, true⟩⟩ with
    sqlSources := SortedMap.empty.insert ⟨1⟩ ⟨"SELECT amount FROM t", [], "amount", .manual⟩ }

/-- A backend that is down. -/
def down (_ : String) : Except SqlError Table := .error (.connect "refused")

end Improv.StorageSql
