import Improv.Lib.Ranges
import Improv.PgModel.Catalog
import Improv.Lib.ListLemmas
/-!
# The cells of a model over a table

A small model spec over a table: its categories' items and its inputs' rows come
from queries of their own, the model is built, loaded and evaluated, and its
derived cells are read a range of rows at a time.  The parser and the engine are
arbitrary here, and so is the order a hash map is walked in; none stands for a
panic.
-/

namespace Improv.DuckdbModel

open Improv.Lib Improv.CoreModel Improv.Engine Improv.PgModel

structure CategorySpec where
  name : String

structure InputSpec where
  name : String
  line : Nat

structure DerivedSpec where
  text : String
  line : Nat

structure Spec where
  categories : List CategorySpec
  inputs : List InputSpec
  derived : List DerivedSpec

/-- The types of the columns that the inputs are read from. -/
structure Bound where
  inputs : List ValueType

/-- A row of an input's query: an item name of each category, and a value. -/
abbrev FactRow := List (Option String) × Option CellValue

inductive Why
  | definition (text : String)
  | noDimensions (measure : String)
  | catalog (e : CatalogError)
  | duplicate (measure : String) (coord : List (Option String))
  | load (e : LoadError)
  | engine (text : String)
deriving DecidableEq

inductive Error
  | line (line : Nat) (why : Why)
  | model (why : Why)
deriving DecidableEq

/-- A measure's computed cells, in the order that their map is walked. -/
structure Computed where
  cells : List (CoordKey × CellValue)
  nodup : (cells.map (·.1)).Nodup

/-- The parser and the engine. -/
structure Calls where
  stored : Model → String → Stored
  define : Model → String → Nat → Except String MeasureRow
  evaluate : Model → List MeasureId → Except String (MeasureId → Computed)

/-! ## Evaluating -/

/-- A category's item names as rows after those numbered so far. -/
def addItems (c : Nat) (s : Catalog × Nat) (names : List String) : Catalog × Nat :=
  names.foldl
    (fun s name => ({ s.1 with items := s.1.items ++ [⟨s.2 + 1, c, name⟩] }, s.2 + 1)) s

/-- The categories and their listed items. -/
def listedCatalog (spec : Spec) (items : List (List String)) : Catalog :=
  (((spec.categories.zip items).zipIdx 1).foldl
    (fun s p => addItems p.2
      ({ s.1 with categories := s.1.categories ++ [⟨p.2, p.1.1.name⟩] }, s.2) p.1.2)
    (.empty, 0)).1

def cats (spec : Spec) : List Nat := List.range' 1 spec.categories.length

/-- The catalog with a row for each input. -/
def inputCatalog (spec : Spec) (bound : Bound) (items : List (List String)) : Catalog :=
  { listedCatalog spec items with
    measures := ((spec.inputs.zip bound.inputs).zipIdx 1).map fun p =>
      { MeasureRow.input p.2 p.1.1.name (cats spec) with valueType := valueTypeName p.1.2 } }

/-- A derived measure defined over the model so far, and the model built anew. -/
def defineDerived (x : Calls) (s : Catalog × Model × List MeasureId) (p : DerivedSpec × Nat) :
    Except Error (Catalog × Model × List MeasureId) := do
  let (catalog, model, targets) := s
  let (d, m) := p
  let row ← (x.define model d.text m).mapError fun e => .line d.line (.definition e)
  if row.categories = [] then .error (.line d.line (.noDimensions row.name))
  else
    let catalog := { catalog with measures := catalog.measures ++ [row] }
    let model ← (buildModel x.stored catalog).mapError fun e => .line d.line (.catalog e)
    return (catalog, model, targets ++ [⟨m⟩])

/-- The catalog and the model of a spec, and the derived measures. -/
def prepared (x : Calls) (spec : Spec) (bound : Bound) (items : List (List String)) :
    Except Error (Catalog × Model × List MeasureId) := do
  let catalog := inputCatalog spec bound items
  let model ← (buildModel x.stored catalog).mapError fun e => .model (.catalog e)
  (spec.derived.zipIdx (spec.inputs.length + 1)).foldlM (defineDerived x) (catalog, model, [])

def loadError (spec : Spec) : LoadError → Error
  | .duplicateCoordinate measure coord =>
    .line (((spec.inputs.find? fun i => i.name = measure).map (·.line)).getD 0)
      (.duplicate measure coord)
  | other => .model (.load other)

/-- A loaded model with its derived measures' cells. -/
structure Evaluation where
  catalog : Catalog
  model : Model
  targets : List MeasureId
  out : MeasureId → Computed

def evaluation (x : Calls) (o : Orders) (cal : Calendar) (spec : Spec) (bound : Bound)
    (items : List (List String)) (facts : List (List FactRow)) :
    Option (Except Error Evaluation) :=
  match prepared x spec bound items with
  | .error e => some (.error e)
  | .ok (catalog, model, targets) =>
    match loadInputsIn o cal model ((facts.zipIdx 1).map fun p => ⟨p.2, p.1⟩) with
    | none => none
    | some (.error e) => some (.error (loadError spec e))
    | some (.ok (model, _)) =>
      match x.evaluate model targets with
      | .error e => some (.error (.model (.engine e)))
      | .ok out => some (.ok ⟨catalog, model, targets, out⟩)

/-! ## Result order -/

def itemOf (key : CoordKey) (cat : Nat) : Option Nat :=
  (key.find? fun p => p.1 = cat).map (·.2)

/-- Items compared one by one; a category without one comes first. -/
def itemsLe : List (Option Nat) → List (Option Nat) → Bool
  | [], _ => true
  | _ :: _, [] => false
  | a :: as, b :: bs =>
    if a = b then itemsLe as bs
    else
      match a, b with
      | none, _ => true
      | some _, none => false
      | some i, some j => i < j

/-- A cell whose items are not after another's. -/
def InOrder (cats : List Nat) (a b : CoordKey × CellValue) : Prop :=
  itemsLe (cats.map (itemOf a.1)) (cats.map (itemOf b.1)) = true

instance (cats : List Nat) : DecidableRel (InOrder cats) := fun _ _ =>
  inferInstanceAs (Decidable (_ = true))

/-- The derived cells in result order. -/
structure Cells where
  measures : List (String × List (CoordKey × CellValue))
  /-- Row number of each measure's first cell. -/
  starts : List Nat
  /-- Item names by item id - 1. -/
  names : List String

def collect (spec : Spec) (e : Evaluation) : Option Cells := do
  let names ← e.targets.mapM fun t => (e.model.measures.get? t).map (·.name)
  let lists := e.targets.map fun t => (e.out t).cells.insertionSort (InOrder (cats spec))
  return ⟨names.zip lists, Ranges.startsFrom 0 lists, e.catalog.items.map (·.name)⟩

def cells (x : Calls) (o : Orders) (cal : Calendar) (spec : Spec) (bound : Bound)
    (items : List (List String)) (facts : List (List FactRow)) : Option (Except Error Cells) :=
  match evaluation x o cal spec bound items facts with
  | none => none
  | some (.error e) => some (.error e)
  | some (.ok e) => (collect spec e).map .ok

/-! ## Reading -/

/-- One derived cell. -/
structure CellRow where
  measure : String
  value : CellValue
  key : CoordKey
  names : List String

/-- The item of the `i`-th category, none where the cell has none there. -/
def CellRow.dim (r : CellRow) (i : Nat) : Option (Option String) :=
  match itemOf r.key (i + 1) with
  | none => some none
  | some id => if id = 0 then none else r.names[id - 1]?.map some

namespace Cells

def len (c : Cells) : Nat := c.starts.getLast?.getD 0

/-- A measure's cells as rows. -/
def rowsOf (c : Cells) (measure : String) (cells : List (CoordKey × CellValue)) : List CellRow :=
  cells.map fun p => ⟨measure, p.2, p.1, c.names⟩

/-- Rows `start..stop`, `stop` no more than the rows there are. -/
def range (c : Cells) (start stop : Nat) : Option (List CellRow) :=
  let stop := min stop c.len
  let first := max (c.starts.takeWhile (· ≤ start)).length 1 - 1
  let first := min first c.measures.length
  (((c.measures.drop first).zip (c.starts.drop first)).mapM fun p =>
    (Ranges.slice p.1.2 (min (start - p.2) p.1.2.length) (min (stop - p.2) p.1.2.length)).map
      (c.rowsOf p.1.1)).map List.flatten

end Cells

end Improv.DuckdbModel

/-!
## The rows that are read

Read in consecutive ranges, the rows are the evaluation's cells, each once and in
order.  An item's name is looked up by its number among the listed items, so a
cell's row can be named exactly when its items are listed: the load mints others
for names that only the facts have.
-/

namespace Improv.DuckdbModel

open Improv.Lib Improv.CoreModel Improv.Engine Improv.PgModel

/-! ## Listed items -/

/-- The number of items that the lists name. -/
def listedCount (spec : Spec) (items : List (List String)) : Nat :=
  ((spec.categories.zip items).map fun p => p.2.length).sum

/-- Rows numbered through from 1. -/
def Numbered (s : Catalog × Nat) : Prop := s.1.items.map (·.id) = List.range' 1 s.2

theorem numbered_addItems {c : Nat} {s : Catalog × Nat} (h : Numbered s) (names : List String) :
    Numbered (addItems c s names) ∧ (addItems c s names).2 = s.2 + names.length := by
  induction names generalizing s with
  | nil => exact ⟨h, rfl⟩
  | cons name names ih =>
      have hnext : Numbered
          ({ s.1 with items := s.1.items ++ [⟨s.2 + 1, c, name⟩] }, s.2 + 1) := by
        unfold Numbered at h ⊢
        rw [List.map_append, h, List.range'_concat, Nat.one_mul, Nat.add_comm 1]
        rfl
      obtain ⟨hrest, hlen⟩ := ih hnext
      refine ⟨hrest, hlen.trans ?_⟩
      rw [List.length_cons]
      show s.2 + 1 + names.length = _
      omega

theorem numbered_listedCatalog (spec : Spec) (items : List (List String)) :
    (listedCatalog spec items).items.map (·.id) = List.range' 1 (listedCount spec items) := by
  have hfold : ∀ (ps : List ((CategorySpec × List String) × Nat)) (s : Catalog × Nat), Numbered s →
      Numbered (ps.foldl (fun s p => addItems p.2
        ({ s.1 with categories := s.1.categories ++ [⟨p.2, p.1.1.name⟩] }, s.2) p.1.2) s) ∧
      (ps.foldl (fun s p => addItems p.2
        ({ s.1 with categories := s.1.categories ++ [⟨p.2, p.1.1.name⟩] }, s.2) p.1.2) s).2 =
          s.2 + (ps.map fun p => p.1.2.length).sum := by
    intro ps
    induction ps with
    | nil => exact fun s hs => ⟨hs, rfl⟩
    | cons p ps ih =>
        intro s hs
        obtain ⟨hnext, hlen⟩ := @numbered_addItems p.2
          ({ s.1 with categories := s.1.categories ++ [⟨p.2, p.1.1.name⟩] }, s.2) hs p.1.2
        obtain ⟨hrest, htotal⟩ := ih _ hnext
        refine ⟨hrest, htotal.trans ?_⟩
        rw [hlen, List.map_cons, List.sum_cons, Nat.add_assoc]
  obtain ⟨hnumbered, htotal⟩ := hfold ((spec.categories.zip items).zipIdx 1) (.empty, 0) rfl
  have hsum : (((spec.categories.zip items).zipIdx 1).map fun p => p.1.2.length).sum =
      listedCount spec items := by
    unfold listedCount
    rw [← List.zipIdx_map_fst 1 (spec.categories.zip items), List.map_map, List.zipIdx_map_fst]
    rfl
  rw [hsum, Nat.zero_add] at htotal
  rw [← htotal]
  exact hnumbered

/-- The names of the listed items. -/
def listedNames (spec : Spec) (items : List (List String)) : List String :=
  (listedCatalog spec items).items.map (·.name)

theorem length_listedNames (spec : Spec) (items : List (List String)) :
    (listedNames spec items).length = listedCount spec items := by
  have h := congrArg List.length (numbered_listedCatalog spec items)
  rw [List.length_map, List.length_range'] at h
  rw [listedNames, List.length_map, h]

/-! ## Names in the model -/

/-- A model whose items numbered by the lists bear the listed names. -/
def Bears (spec : Spec) (items : List (List String)) (m : Model) : Prop :=
  ∀ k name, (listedNames spec items)[k]? = some name →
    (m.items.get? ⟨k + 1⟩).map (·.name) = some name

theorem bears_of_items {spec : Spec} {items : List (List String)} {m : Model}
    (h : m.items = (listedCatalog spec items).items.foldl
      (fun items i => items.insert ⟨i.id⟩ ⟨⟨i.id⟩, ⟨i.categoryId⟩, i.name⟩) .empty) :
    Bears spec items m := by
  intro k name hk
  have hids := numbered_listedCatalog spec items
  obtain ⟨rows, hrows⟩ : ∃ rows, rows = (listedCatalog spec items).items := ⟨_, rfl⟩
  unfold listedNames at hk
  rw [← hrows] at h hids hk
  rw [List.getElem?_map, Option.map_eq_some_iff] at hk
  obtain ⟨r, hr, rfl⟩ := hk
  have hid : r.id = k + 1 := by
    have hk := congrArg (·[k]?) hids
    simp only [List.getElem?_map, hr, Option.map_some] at hk
    rw [eq_comm, List.getElem?_eq_some_iff] at hk
    obtain ⟨hlt, hk⟩ := hk
    rw [List.getElem_range'] at hk
    omega
  let pairs : List (ItemId × Item) :=
    rows.map fun i => (⟨i.id⟩, ⟨⟨i.id⟩, ⟨i.categoryId⟩, i.name⟩)
  have hsorted : pairs.Pairwise fun a b => a.1 < b.1 := by
    have hlt := List.pairwise_lt_range' (s := 1) (n := listedCount spec items)
    rw [← hids, List.pairwise_map] at hlt
    exact List.pairwise_map.mpr hlt
  have hfold : m.items = pairs.foldl (fun items p => items.insert p.1 p.2) .empty := by
    rw [h, List.foldl_map]
  have hget : m.items.get? ⟨r.id⟩ = some ⟨⟨r.id⟩, ⟨r.categoryId⟩, r.name⟩ := by
    rw [hfold, SortedMap.get?_foldl_insert hsorted]
    exact .inl (List.mem_map.mpr ⟨r, List.mem_of_getElem? hr, rfl⟩)
  rw [← hid, hget]
  rfl

/-- A load leaves the items there are. -/
theorem Bears.loaded {spec : Spec} {items : List (List String)} {o : Orders} {cal : Calendar}
    {m m' : Model} {bound : List BoundRows} {done : Loaded} (hm : Bears spec items m)
    (h : loadInputsIn o cal m bound = some (.ok (m', done))) : Bears spec items m' := by
  have hkept : ∀ (ps : List (CategoryId × String × ItemId)) (m : Model) (k : ItemId) (x : Item),
      m.items.get? k = some x →
        (ps.foldl ItemInterner.registerItem m).items.get? k = some x := by
    intro ps
    induction ps with
    | nil => exact fun _ _ _ h => h
    | cons p ps ih =>
        intro m k x hx
        apply ih
        unfold ItemInterner.registerItem
        simp only
        split
        · exact hx
        · rename_i hnew
          rw [SortedMap.get?_insert]
          by_cases hk : k = p.2.2
          · rw [← hk, SortedMap.contains, hx] at hnew
            exact absurd rfl hnew
          · rw [if_neg hk, hx]
  intro k name hname
  have hold := hm k name hname
  rw [Option.map_eq_some_iff] at hold ⊢
  obtain ⟨x, hx, hxn⟩ := hold
  refine ⟨x, ?_, hxn⟩
  unfold loadInputsIn at h
  split at h
  · cases h
  · split at h
    · cases h
    · split at h
      · cases h
      · cases h
        exact hkept _ m _ _ hx

/-! ## What an evaluation starts from -/

/-- The catalog's items are the listed ones, the model's bear their names, and the
derived measures so far are numbered after the inputs. -/
structure Prepared (spec : Spec) (items : List (List String))
    (s : Catalog × Model × List MeasureId) : Prop where
  catalog : s.1.items = (listedCatalog spec items).items
  model : Bears spec items s.2.1

theorem bears_buildModel {spec : Spec} {items : List (List String)} {x : Calls} {catalog : Catalog}
    {m : Model} (hcatalog : catalog.items = (listedCatalog spec items).items)
    (h : buildModel x.stored catalog = .ok m) : Bears spec items m := by
  apply bears_of_items
  rw [items_buildModel h, hcatalog]

theorem prepared_defineDerived {spec : Spec} {items : List (List String)} {x : Calls}
    {s s' : Catalog × Model × List MeasureId} {p : DerivedSpec × Nat}
    (hs : Prepared spec items s) (h : defineDerived x s p = .ok s') :
    Prepared spec items s' ∧ s'.2.2 = s.2.2 ++ [⟨p.2⟩] := by
  unfold defineDerived at h
  simp only at h
  rw [bind_eq_ok_iff] at h
  obtain ⟨row, -, h⟩ := h
  split at h
  · cases h
  · rw [bind_eq_ok_iff] at h
    obtain ⟨m, hm, h⟩ := h
    rw [mapError_eq_ok_iff] at hm
    have hcatalog : ({ s.1 with measures := s.1.measures ++ [row] } : Catalog).items =
        (listedCatalog spec items).items := hs.catalog
    cases h
    exact ⟨⟨hs.catalog, bears_buildModel hcatalog hm⟩, rfl⟩

theorem prepared_ok {spec : Spec} {items : List (List String)} {x : Calls} {bound : Bound}
    {s : Catalog × Model × List MeasureId} (h : prepared x spec bound items = .ok s) :
    Prepared spec items s ∧
      s.2.2 = (List.range' (spec.inputs.length + 1) spec.derived.length).map .mk := by
  have hfold : ∀ (ps : List (DerivedSpec × Nat)) (s s' : Catalog × Model × List MeasureId),
      Prepared spec items s → ps.foldlM (defineDerived x) s = .ok s' →
        Prepared spec items s' ∧ s'.2.2 = s.2.2 ++ ps.map fun p => ⟨p.2⟩ := by
    intro ps
    induction ps with
    | nil =>
        intro s s' hs h
        cases h
        exact ⟨hs, (List.append_nil _).symm⟩
    | cons p ps ih =>
        intro s s' hs h
        rw [List.foldlM_cons, bind_eq_ok_iff] at h
        obtain ⟨t, ht, h⟩ := h
        obtain ⟨hprepared, htargets⟩ := prepared_defineDerived hs ht
        obtain ⟨hprepared', htargets'⟩ := ih t s' hprepared h
        refine ⟨hprepared', ?_⟩
        rw [htargets', htargets, List.append_assoc]
        rfl
  unfold prepared at h
  simp only at h
  rw [bind_eq_ok_iff] at h
  obtain ⟨m, hm, h⟩ := h
  rw [mapError_eq_ok_iff] at hm
  have hcatalog : (inputCatalog spec bound items).items = (listedCatalog spec items).items := rfl
  obtain ⟨hprepared, htargets⟩ := hfold _ _ s ⟨hcatalog, bears_buildModel hcatalog hm⟩ h
  refine ⟨hprepared, htargets.trans ?_⟩
  rw [List.nil_append, ← List.zipIdx_map_snd (spec.inputs.length + 1) spec.derived, List.map_map]
  rfl

theorem evaluation_ok {spec : Spec} {items : List (List String)} {x : Calls} {o : Orders}
    {cal : Calendar} {bound : Bound} {facts : List (List FactRow)} {e : Evaluation}
    (h : evaluation x o cal spec bound items facts = some (.ok e)) :
    e.catalog.items = (listedCatalog spec items).items ∧ Bears spec items e.model ∧
      e.targets = (List.range' (spec.inputs.length + 1) spec.derived.length).map .mk ∧
      x.evaluate e.model e.targets = .ok e.out := by
  unfold evaluation at h
  split at h
  · cases h
  · next hprepared =>
      obtain ⟨hs, htargets⟩ := prepared_ok hprepared
      split at h
      · cases h
      · cases h
      · next hload =>
          split at h
          · cases h
          · next hevaluate =>
              cases h
              exact ⟨hs.catalog, hs.model.loaded hload, htargets, hevaluate⟩

/-! ## Reading ranges -/

namespace Cells

/-- All rows. -/
def rows (c : Cells) : List CellRow := (c.measures.map fun p => c.rowsOf p.1 p.2).flatten

variable {c : Cells} (hstarts : c.starts = Ranges.startsFrom 0 (c.measures.map (·.2)))
include hstarts

theorem starts_eq : c.starts = Ranges.startsFrom 0 (c.measures.map fun p => c.rowsOf p.1 p.2) := by
  unfold Ranges.startsFrom at hstarts ⊢
  rw [hstarts, List.map_map, List.map_map]
  congr 1
  apply List.map_congr_left
  intro p _
  exact (List.length_map _).symm

theorem len_eq : c.len = c.rows.length := by
  unfold len rows
  rw [starts_eq hstarts, Ranges.getLast?_startsFrom, Option.getD_some, Nat.zero_add]

/-- A range is a piece of all rows. -/
theorem range_eq {start stop : Nat} (hle : start ≤ stop) (hstop : stop ≤ c.rows.length) :
    c.range start stop = some ((c.rows.take stop).drop start) := by
  have hpieces : ∀ (ms : List (String × List (CoordKey × CellValue))) (ss : List Nat),
      ((ms.zip ss).mapM fun p => (Ranges.slice p.1.2 (min (start - p.2) p.1.2.length)
        (min (stop - p.2) p.1.2.length)).map (c.rowsOf p.1.1)).map List.flatten =
      Ranges.pieces ((ms.map fun p => c.rowsOf p.1 p.2).zip ss) start stop := by
    intro ms
    unfold Ranges.pieces
    intro ss
    congr 1
    induction ms generalizing ss with
    | nil => rfl
    | cons m ms ih =>
        cases ss with
        | nil => rfl
        | cons s ss =>
            have hlen : (c.rowsOf m.1 m.2).length = m.2.length := List.length_map _
            have hslice : ∀ lo hi, (Ranges.slice m.2 lo hi).map (c.rowsOf m.1) =
                Ranges.slice (c.rowsOf m.1 m.2) lo hi :=
              fun lo hi => (Ranges.slice_map _ m.2 lo hi).symm
            rw [List.map_cons, List.zip_cons_cons, List.zip_cons_cons, List.mapM_cons,
              List.mapM_cons, ih]
            simp only [hslice, hlen]
  have hfirst : (c.starts.takeWhile (· ≤ start)).length - 1 ≤ c.measures.length := by
    have hcount := (List.takeWhile_sublist (l := c.starts) (· ≤ start)).length_le
    rw [hstarts, Ranges.length_startsFrom, List.length_map] at hcount
    rw [hstarts]
    omega
  have hskip := Ranges.pieces_skip (c.measures.map fun p => c.rowsOf p.1 p.2) hle (Nat.zero_le _)
  rw [← starts_eq hstarts] at hskip
  unfold range
  simp only
  rw [len_eq hstarts, Nat.min_eq_left hstop,
    show max (c.starts.takeWhile (· ≤ start)).length 1 - 1 =
      (c.starts.takeWhile (· ≤ start)).length - 1 by omega,
    Nat.min_eq_left hfirst, hpieces, List.map_drop]
  exact hskip

end Cells

/-! ## Result order -/

theorem itemsLe_total (as bs : List (Option Nat)) :
    itemsLe as bs = true ∨ itemsLe bs as = true := by
  induction as generalizing bs with
  | nil => exact .inl rfl
  | cons a as ih =>
      cases bs with
      | nil => exact .inr rfl
      | cons b bs =>
          unfold itemsLe
          by_cases h : a = b
          · rw [if_pos h, if_pos h.symm]
            exact ih bs
          · rw [if_neg h, if_neg (Ne.symm h)]
            cases a with
            | none => exact .inl rfl
            | some i =>
                cases b with
                | none => exact .inr rfl
                | some j =>
                    simp only [Option.some.injEq, decide_eq_true_eq] at h ⊢
                    omega

theorem itemsLe_trans {as bs ds : List (Option Nat)} (h : itemsLe as bs = true)
    (h' : itemsLe bs ds = true) : itemsLe as ds = true := by
  induction as generalizing bs ds with
  | nil => rfl
  | cons a as ih =>
      cases bs with
      | nil => cases h
      | cons b bs =>
          cases ds with
          | nil => cases h'
          | cons d ds =>
              unfold itemsLe at h h' ⊢
              by_cases hab : a = b
              · rw [if_pos hab] at h
                rw [hab]
                by_cases hbd : b = d
                · rw [if_pos hbd] at h' ⊢
                  exact ih h h'
                · rw [if_neg hbd] at h' ⊢
                  exact h'
              · rw [if_neg hab] at h
                by_cases hbd : b = d
                · rw [← hbd, if_neg hab]
                  exact h
                · rw [if_neg hbd] at h'
                  cases a with
                  | none =>
                      cases b with
                      | none => exact absurd rfl hab
                      | some j =>
                          cases d with
                          | none => cases h'
                          | some k => rfl
                  | some i =>
                      cases b with
                      | none => cases h
                      | some j =>
                          cases d with
                          | none => cases h'
                          | some k =>
                              simp only [decide_eq_true_eq] at h h'
                              rw [if_neg (by rw [Option.some.injEq]; omega)]
                              exact decide_eq_true (by omega)

theorem pairwise_sorted (cats : List Nat) (l : List (CoordKey × CellValue)) :
    (l.insertionSort (InOrder cats)).Pairwise (InOrder cats) :=
  haveI : Std.Total (InOrder cats) := ⟨fun _ _ => itemsLe_total _ _⟩
  haveI : IsTrans _ (InOrder cats) := ⟨fun _ _ _ => itemsLe_trans⟩
  List.pairwise_insertionSort (InOrder cats) l

/-! ## The stream -/

/-- An evaluated cell has an item of each category of its measure, and of no
other. -/
def Calls.Ranged (x : Calls) : Prop :=
  ∀ m targets out, x.evaluate m targets = .ok out → ∀ t ∈ targets, ∀ cell ∈ (out t).cells,
    ∃ measure, m.measures.get? t = some measure ∧
      ∀ c, (itemOf cell.1 c).isSome ↔ ⟨c⟩ ∈ measure.categories

/-- A row is a measure's cell: its measure's name, its coordinate and value, the
item's name in each category of the measure, and no name in the others. -/
structure Told (spec : Spec) (e : Evaluation) (t : MeasureId) (cell : CoordKey × CellValue)
    (r : CellRow) : Prop where
  cell : (r.key, r.value) = cell
  measure : ∃ measure, e.model.measures.get? t = some measure ∧ r.measure = measure.name ∧
    ∀ i < spec.categories.length,
      (⟨i + 1⟩ ∉ measure.categories → r.dim i = some none) ∧
      (⟨i + 1⟩ ∈ measure.categories → ∃ id item, itemOf r.key (i + 1) = some id ∧
        e.model.items.get? ⟨id⟩ = some item ∧ r.dim i = some (some item.name))

/-- Measures' cells, one after another. -/
def told (targets : List MeasureId) (lists : List (List (CoordKey × CellValue))) :
    List (MeasureId × (CoordKey × CellValue)) :=
  (targets.zip lists).flatMap fun p => p.2.map fun cell => (p.1, cell)

/-- The ranges between any cuts, one after another, give each cell of the
evaluation once, with its value and its items' names: the measures as they are
declared, and each one's cells in the order of their items. -/
structure Streams (spec : Spec) (e : Evaluation) (c : Cells) : Prop where
  declared : e.targets = (List.range' (spec.inputs.length + 1) spec.derived.length).map .mk
  read : ∃ lists : List (List (CoordKey × CellValue)),
    List.Forall₂ (fun t l => l.Perm (e.out t).cells ∧ l.Pairwise (InOrder (cats spec)))
      e.targets lists ∧
    ∀ cut : List Nat, (0 :: cut).Pairwise (· ≤ ·) →
      (0 :: cut).getLast (List.cons_ne_nil _ _) = c.len →
      ∃ rows, Ranges.readAll c.range 0 cut = some rows ∧
        List.Forall₂ (fun p r => Told spec e p.1 p.2 r) (told e.targets lists) rows

/-- Every item of the evaluation's cells is one of the lists'. -/
def ListedCells (spec : Spec) (items : List (List String)) (e : Evaluation) : Prop :=
  ∀ t ∈ e.targets, ∀ cell ∈ (e.out t).cells, ∀ i < spec.categories.length, ∀ id,
    itemOf cell.1 (i + 1) = some id → 1 ≤ id ∧ id ≤ listedCount spec items

/-- A measure's name and a cell of it, as a row. -/
def Row (e : Evaluation) (names : List String) (p : MeasureId × (CoordKey × CellValue))
    (r : CellRow) : Prop :=
  (∃ measure, e.model.measures.get? p.1 = some measure ∧ r.measure = measure.name) ∧
    r = ⟨r.measure, p.2.2, p.2.1, names⟩

/-- The rows of named measures. -/
theorem forall₂_named {e : Evaluation} {ts : List MeasureId} {names : List String}
    (h : (ts.mapM fun t => (e.model.measures.get? t).map (·.name)) = some names)
    (c : Cells) (list : MeasureId → List (CoordKey × CellValue)) :
    names.length = ts.length ∧
      List.Forall₂ (Row e c.names) (told ts (ts.map list))
        ((names.zip (ts.map list)).map fun p => c.rowsOf p.1 p.2).flatten := by
  induction ts generalizing names with
  | nil =>
      cases h
      exact ⟨rfl, .nil⟩
  | cons t ts ih =>
      rw [List.mapM_cons] at h
      simp only [Option.bind_eq_bind, Option.bind_eq_some_iff] at h
      obtain ⟨name, hname, more, hmore, h⟩ := h
      cases h
      obtain ⟨hlen, hrows⟩ := ih hmore
      obtain ⟨measure, hmeasure, rfl⟩ := Option.map_eq_some_iff.mp hname
      refine ⟨congrArg (· + 1) hlen, ?_⟩
      unfold told at hrows ⊢
      rw [List.map_cons, List.zip_cons_cons, List.zip_cons_cons, List.flatMap_cons, List.map_cons,
        List.flatten_cons]
      apply List.rel_append
      · unfold Cells.rowsOf
        rw [List.forall₂_map_left_iff, List.forall₂_map_right_iff, List.forall₂_same]
        exact fun cell _ => ⟨⟨measure, hmeasure, rfl⟩, rfl⟩
      · exact hrows

/-- The rows are the measures' cells. -/
theorem forall₂_rows {spec : Spec} {e : Evaluation} {c : Cells} (h : collect spec e = some c) :
    c.names = e.catalog.items.map (·.name) ∧
      c.starts = Ranges.startsFrom 0 (c.measures.map (·.2)) ∧
      List.Forall₂ (Row e c.names) (told e.targets (e.targets.map fun t =>
        (e.out t).cells.insertionSort (InOrder (cats spec)))) c.rows := by
  unfold collect at h
  simp only [Option.bind_eq_bind, Option.bind_eq_some_iff] at h
  obtain ⟨names, hnames, h⟩ := h
  have hnamed := forall₂_named hnames
  cases h
  refine ⟨rfl, ?_, (hnamed _ _).2⟩
  show Ranges.startsFrom 0 _ = Ranges.startsFrom 0 ((names.zip _).map Prod.snd)
  rw [List.map_snd_zip]
  rw [List.length_map]
  exact (hnamed ⟨[], [], []⟩ fun _ => []).1.ge

/-- Any cuts read all rows. -/
theorem readAll_range {c : Cells} (hstarts : c.starts = Ranges.startsFrom 0 (c.measures.map (·.2)))
    {cut : List Nat} (hsorted : (0 :: cut).Pairwise (· ≤ ·))
    (hend : (0 :: cut).getLast (List.cons_ne_nil _ _) = c.len) :
    Ranges.readAll c.range 0 cut = some c.rows := by
  rw [Cells.len_eq hstarts] at hend
  rw [Ranges.readAll_eq (fun lo hi => Cells.range_eq hstarts) hsorted hend.le, hend,
    List.take_length]
  rfl

theorem names_of_mem {c : Cells} {r : CellRow} (h : r ∈ c.rows) : r.names = c.names := by
  unfold Cells.rows Cells.rowsOf at h
  rw [List.mem_flatten] at h
  obtain ⟨l, hl, hr⟩ := h
  obtain ⟨p, -, rfl⟩ := List.mem_map.mp hl
  obtain ⟨q, -, rfl⟩ := List.mem_map.mp hr
  rfl

/-- The names of the rows' items are looked up among the listed ones. -/
theorem dim_of_item {r : CellRow} {i id : Nat} (h : itemOf r.key (i + 1) = some id) :
    r.dim i = if id = 0 then none else r.names[id - 1]?.map some := by
  unfold CellRow.dim
  rw [h]

theorem mem_told {targets : List MeasureId} {list : MeasureId → List (CoordKey × CellValue)}
    {p : MeasureId × (CoordKey × CellValue)} :
    p ∈ told targets (targets.map list) ↔ p.1 ∈ targets ∧ p.2 ∈ list p.1 := by
  unfold told
  induction targets with
  | nil => simp
  | cons t ts ih =>
      rw [List.map_cons, List.zip_cons_cons, List.flatMap_cons, List.mem_append, ih,
        List.mem_cons, List.mem_map]
      constructor
      · rintro (⟨cell, hcell, rfl⟩ | ⟨ht, hcell⟩)
        · exact ⟨.inl rfl, hcell⟩
        · exact ⟨.inr ht, hcell⟩
      · rintro ⟨ht, hcell⟩
        by_cases h : p.1 ∈ ts
        · exact .inr ⟨h, hcell⟩
        · have heq : p.1 = t := ht.resolve_right h
          rw [heq] at hcell
          exact .inl ⟨p.2, hcell, by rw [← heq]⟩

/-- A measure's cell is one of those told, however its cells are ordered. -/
theorem mem_told_of_perm {e : Evaluation} {targets : List MeasureId}
    {lists : List (List (CoordKey × CellValue))} {R : List (CoordKey × CellValue) → Prop}
    (h : List.Forall₂ (fun t l => l.Perm (e.out t).cells ∧ R l) targets lists)
    {t : MeasureId} (ht : t ∈ targets) {cell : CoordKey × CellValue}
    (hcell : cell ∈ (e.out t).cells) : (t, cell) ∈ told targets lists := by
  unfold told
  induction h with
  | nil => cases ht
  | @cons t' l ts ls hl _ ih =>
      rw [List.zip_cons_cons, List.flatMap_cons, List.mem_append]
      rcases List.mem_cons.mp ht with rfl | ht
      · exact .inl (List.mem_map.mpr ⟨cell, hl.1.mem_iff.mpr hcell, rfl⟩)
      · exact .inr (ih ht)

section
variable {x : Calls} {o : Orders} {cal : Calendar} {spec : Spec} {bound : Bound}
  {items : List (List String)} {facts : List (List FactRow)} {e : Evaluation} {c : Cells}

/-- A cell of a listed item is told by it. -/
theorem told_row (hx : x.Ranged) (he : evaluation x o cal spec bound items facts = some (.ok e))
    (hlisted : ListedCells spec items e) {p : MeasureId × (CoordKey × CellValue)} {r : CellRow}
    (ht : p.1 ∈ e.targets) (hp : p.2 ∈ (e.out p.1).cells)
    (hr : Row e (listedNames spec items) p r) : Told spec e p.1 p.2 r := by
  obtain ⟨hcatalog, hbears, htargets, hevaluate⟩ := evaluation_ok he
  obtain ⟨⟨measure, hmeasure, hname⟩, hrow⟩ := hr
  obtain ⟨measure', hmeasure', hover⟩ := hx _ _ _ hevaluate p.1 ht p.2 hp
  rw [hmeasure, Option.some.injEq] at hmeasure'
  subst hmeasure'
  have hkey : r.key = p.2.1 := by rw [hrow]
  have hnames : r.names = listedNames spec items := by rw [hrow]
  refine ⟨by rw [hrow], measure, hmeasure, hname, fun i hi => ⟨fun hnot => ?_, fun hin => ?_⟩⟩
  · rw [← hover, Option.isSome_iff_ne_none, ne_eq, not_not, ← hkey] at hnot
    unfold CellRow.dim
    rw [hnot]
  · rw [← hover, Option.isSome_iff_exists] at hin
    obtain ⟨id, hid⟩ := hin
    obtain ⟨hpos, hle⟩ := hlisted p.1 ht p.2 hp i hi id hid
    obtain ⟨name, hn⟩ : ∃ name, (listedNames spec items)[id - 1]? = some name := by
      refine ⟨_, List.getElem?_eq_getElem ?_⟩
      rw [length_listedNames]
      omega
    have hitem := hbears (id - 1) name hn
    rw [Nat.sub_add_cancel hpos, Option.map_eq_some_iff] at hitem
    obtain ⟨item, hitem, hitemName⟩ := hitem
    rw [← hkey] at hid
    refine ⟨id, item, hid, hitem, ?_⟩
    rw [dim_of_item hid, if_neg (by omega), hnames, hn, hitemName]
    rfl

/-- A cell that is told by its items has listed ones. -/
theorem listed_of_told (hx : x.Ranged)
    (he : evaluation x o cal spec bound items facts = some (.ok e))
    {p : MeasureId × (CoordKey × CellValue)} {r : CellRow} (ht : p.1 ∈ e.targets)
    (hp : p.2 ∈ (e.out p.1).cells) (hr : r.names = listedNames spec items)
    (htold : Told spec e p.1 p.2 r) {i id : Nat} (hi : i < spec.categories.length)
    (hid : itemOf p.2.1 (i + 1) = some id) : 1 ≤ id ∧ id ≤ listedCount spec items := by
  obtain ⟨-, -, -, hevaluate⟩ := evaluation_ok he
  obtain ⟨hcell, measure, hmeasure, -, hdims⟩ := htold
  obtain ⟨measure', hmeasure', hover⟩ := hx _ _ _ hevaluate p.1 ht p.2 hp
  rw [hmeasure, Option.some.injEq] at hmeasure'
  subst hmeasure'
  have hin : (⟨i + 1⟩ : CategoryId) ∈ measure.categories := by
    rw [← hover, hid]
    rfl
  obtain ⟨id', item, hid', -, hdim⟩ := (hdims i hi).2 hin
  have hkey : r.key = p.2.1 := congrArg Prod.fst hcell
  have hsame : id' = id := by
    rw [hkey, hid, Option.some.injEq] at hid'
    exact hid'.symm
  subst hsame
  rw [dim_of_item hid', hr] at hdim
  split at hdim
  · cases hdim
  · rw [Option.map_eq_some_iff] at hdim
    obtain ⟨name, hname, -⟩ := hdim
    have hlt := (List.getElem?_eq_some_iff.mp hname).1
    rw [length_listedNames] at hlt
    omega

theorem cells_ok (he : evaluation x o cal spec bound items facts = some (.ok e))
    (hc : cells x o cal spec bound items facts = some (.ok c)) :
    c.names = listedNames spec items ∧ c.starts = Ranges.startsFrom 0 (c.measures.map (·.2)) ∧
      List.Forall₂ (Row e (listedNames spec items)) (told e.targets (e.targets.map fun t =>
        (e.out t).cells.insertionSort (InOrder (cats spec)))) c.rows := by
  unfold cells at hc
  rw [he] at hc
  simp only [Option.map_eq_some_iff, Except.ok.injEq, exists_eq_right] at hc
  obtain ⟨hnames, hstarts, hrows⟩ := forall₂_rows hc
  have hlisted : c.names = listedNames spec items := by
    rw [hnames, listedNames, ← (evaluation_ok he).1]
  rw [hlisted] at hrows
  exact ⟨hlisted, hstarts, hrows⟩

theorem listed_of_streams (hx : x.Ranged)
    (he : evaluation x o cal spec bound items facts = some (.ok e))
    (hc : cells x o cal spec bound items facts = some (.ok c)) (h : Streams spec e c) :
    ListedCells spec items e := by
  intro t ht cell hcell i hi id hid
  obtain ⟨hnames, hstarts, -⟩ := cells_ok he hc
  obtain ⟨lists, hlists, hread⟩ := h.read
  -- one range of everything reads the cell
  obtain ⟨rows, hread, htold⟩ := hread [c.len] (by simp) rfl
  rw [readAll_range hstarts (by simp) rfl, Option.some.injEq] at hread
  subst hread
  obtain ⟨r, hr, htold⟩ := exists_of_mem_left htold (mem_told_of_perm hlists ht hcell)
  have hrnames : r.names = listedNames spec items := by
    rw [← hnames]
    exact names_of_mem hr
  exact listed_of_told hx he ht hcell hrnames htold hi hid

theorem streams_of_listed (hx : x.Ranged)
    (he : evaluation x o cal spec bound items facts = some (.ok e))
    (hc : cells x o cal spec bound items facts = some (.ok c)) (h : ListedCells spec items e) :
    Streams spec e c := by
  obtain ⟨-, hstarts, hrows⟩ := cells_ok he hc
  refine ⟨(evaluation_ok he).2.2.1,
    e.targets.map fun t => (e.out t).cells.insertionSort (InOrder (cats spec)),
    ?_, fun cut hsorted hend => ⟨c.rows, readAll_range hstarts hsorted hend, ?_⟩⟩
  · rw [List.forall₂_map_right_iff, List.forall₂_same]
    exact fun t _ => ⟨List.perm_insertionSort _ _, pairwise_sorted _ _⟩
  · rw [List.forall₂_iff_zip] at hrows ⊢
    refine ⟨hrows.1, fun {p r} hpr => ?_⟩
    obtain ⟨ht, hp⟩ := mem_told.mp (List.of_mem_zip hpr).1
    rw [List.mem_insertionSort] at hp
    exact told_row hx he h ht hp (hrows.2 hpr)

/-- The stream is the evaluation just when its cells' items are listed. -/
theorem streams_iff (hx : x.Ranged) (he : evaluation x o cal spec bound items facts = some (.ok e))
    (hc : cells x o cal spec bound items facts = some (.ok c)) :
    Streams spec e c ↔ ListedCells spec items e :=
  ⟨listed_of_streams hx he hc, streams_of_listed hx he hc⟩

end

/-! ## A copied measure -/

/-- The sales of each region. -/
def regionSales (m : Model) : Computed where
  cells := m.items.keys.filterMap fun i =>
    (m.inputs.get? ⟨⟨1⟩, .ofList [(⟨1⟩, i)]⟩).map fun v => ([(1, i.id)], .fromModelValue v)
  nodup := by
    have hnodup := m.items.nodup_keys.map (f := fun i : ItemId => [(1, i.id)]) fun a b h => by
      have hid : a.id = b.id := by simpa using h
      exact congrArg ItemId.mk hid
    refine hnodup.sublist ?_
    induction m.items.keys with
    | nil => exact .slnil
    | cons i is ih =>
        rw [List.filterMap_cons, List.map_cons]
        cases m.inputs.get? ⟨⟨1⟩, .ofList [(⟨1⟩, i)]⟩ with
        | none => exact ih.cons _
        | some v => exact ih.cons_cons _

/-- A derived measure that copies the sales. -/
def copying : Calls where
  stored _ _ := .definition "Copy" ⟨.ref ⟨1⟩ .default⟩
  define _ text id := .ok ⟨id, "Copy", "number", "derived", some text, none, [1]⟩
  evaluate m _ := .ok fun t =>
    if (m.measures.get? t).map (·.categories) = some [⟨1⟩] then regionSales m else ⟨[], .nil⟩

theorem copying_ranged : copying.Ranged := by
  intro m targets out h t _ cell hcell
  cases h
  dsimp only at hcell
  split at hcell
  · next hcats =>
      rw [Option.map_eq_some_iff] at hcats
      obtain ⟨measure, hmeasure, hcats⟩ := hcats
      refine ⟨measure, hmeasure, fun c => ?_⟩
      obtain ⟨i, -, hi⟩ := List.mem_filterMap.mp hcell
      obtain ⟨v, -, rfl⟩ := Option.map_eq_some_iff.mp hi
      rw [hcats]
      by_cases hc : c = 1
      · subst hc
        simp [itemOf]
      · simp [itemOf, hc, eq_comm]
  · cases hcell

/-- Regions and their sales, copied. -/
def salesSpec : Spec := ⟨[⟨"Region"⟩], [⟨"Sales", 2⟩], [⟨"Copy = Sales", 3⟩]⟩

/-- A walk of the listed regions as they are numbered. -/
def listedOrders (regions : List String) : Orders :=
  ⟨(regions.zipIdx 1).map fun p => ⟨⟨p.2⟩, ⟨1⟩, p.1⟩, ItemInterner.pairs⟩

def salesEvaluation (regions : List String) (facts : List FactRow) :
    Option (Except Error Evaluation) :=
  evaluation copying (listedOrders regions) noCalendar salesSpec ⟨[.number]⟩ [regions] [facts]

def salesCells (regions : List String) (facts : List FactRow) : Option (Except Error Cells) :=
  cells copying (listedOrders regions) noCalendar salesSpec ⟨[.number]⟩ [regions] [facts]

/-- Sales that are evaluated to copies at the items `ids`. -/
theorem sales_ok {regions : List String} {facts : List FactRow} {ids : List Nat}
    (h : (match salesEvaluation regions facts, salesCells regions facts with
      | some (.ok e), some (.ok _) => decide (e.targets = [⟨2⟩]) &&
        decide ((e.out ⟨2⟩).cells.map (·.1) = ids.map fun i => [(1, i)])
      | _, _ => false) = true) :
    ∃ e c, salesEvaluation regions facts = some (.ok e) ∧
      salesCells regions facts = some (.ok c) ∧ e.targets = [⟨2⟩] ∧
      (e.out ⟨2⟩).cells.map (·.1) = ids.map fun i => [(1, i)] := by
  split at h
  · next e c he hc =>
      rw [Bool.and_eq_true, decide_eq_true_eq, decide_eq_true_eq] at h
      exact ⟨e, c, he, hc, h⟩
  · cases h

theorem streams_north : ∃ e c, salesEvaluation ["North"] [([some "North"], some (.num 0))] =
      some (.ok e) ∧
    salesCells ["North"] [([some "North"], some (.num 0))] = some (.ok c) ∧
    Streams salesSpec e c := by
  obtain ⟨e, c, he, hc, htargets, hcells⟩ :=
    @sales_ok ["North"] [([some "North"], some (.num 0))] [1] (by decide +kernel)
  refine ⟨e, c, he, hc, (streams_iff copying_ranged he hc).mpr ?_⟩
  intro t ht cell hcell i hi id hid
  rw [htargets, List.mem_singleton] at ht
  subst ht
  have hkey : cell.1 = [(1, 1)] := by
    have hmem := List.mem_map_of_mem (f := (·.1)) hcell
    rw [hcells] at hmem
    exact List.mem_singleton.mp hmem
  have hzero : i = 0 := Nat.lt_one_iff.mp hi
  rw [hkey, hzero] at hid
  cases hid
  decide

/-- The facts name a region that the list lacks. -/
theorem south_unnamed : ∃ e c, salesEvaluation ["North"] [([some "South"], some (.num 0))] =
      some (.ok e) ∧
    salesCells ["North"] [([some "South"], some (.num 0))] = some (.ok c) ∧
    ¬Streams salesSpec e c := by
  obtain ⟨e, c, he, hc, htargets, hcells⟩ :=
    @sales_ok ["North"] [([some "South"], some (.num 0))] [2] (by decide +kernel)
  refine ⟨e, c, he, hc, fun h => ?_⟩
  have hmem : [(1, 2)] ∈ (e.out ⟨2⟩).cells.map (·.1) := by
    rw [hcells]
    exact List.mem_singleton_self _
  obtain ⟨cell, hcell, hkey⟩ := List.mem_map.mp hmem
  have htarget : (⟨2⟩ : MeasureId) ∈ e.targets := by
    rw [htargets]
    exact List.mem_singleton_self _
  have hlisted := listed_of_streams copying_ranged he hc h ⟨2⟩ htarget cell hcell 0 (by decide) 2
    (by rw [hkey]; rfl)
  revert hlisted
  decide

end Improv.DuckdbModel
