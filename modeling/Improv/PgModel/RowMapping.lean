import Improv.Engine.ExactTerms
import Improv.PgModel.Batches
import Improv.PgModel.Edits
/-!
# A model follows its tables

A model loaded from its bound tables and then kept by batches of their changes
has, after each, the cells that loading the tables as they then stand gives;
items are minted on the way, and a batch may ask for a rebuild instead.
-/

namespace Improv.PgModel

open Improv.Lib Improv.CoreModel Improv.Engine

variable {cal : Calendar} {read : Loader} {describe : Nat → Relation} {T T' : Tables}

/-! ## Loading the tables -/

/-- The rows the loader reads for each binding. -/
def boundRows (read : Loader) (describe : Nat → Relation)
    (bindings : SortedMap Nat (List Binding)) (m : Model) (T : Tables) : List BoundRows :=
  (allBound bindings).map fun p =>
    ⟨p.2.measure.id, (T p.1).map (read (describe p.1) p.2 (vtOf m p.2))⟩

/-- Whether a binding feeds a cell. -/
def Feeds (bindings : SortedMap Nat (List Binding)) (k : Cell) : Prop :=
  ∃ rel, ∃ b ∈ bindings.group rel, b.measure = k.measure

theorem measureId_injective : Function.Injective MeasureId.id := fun _ _ h =>
  congrArg MeasureId.mk h

theorem map_measureId_boundRows (bindings : SortedMap Nat (List Binding)) (m : Model)
    (T : Tables) : (boundRows read describe bindings m T).map BoundRows.measureId =
      ((allBound bindings).map fun p => p.2.measure).map MeasureId.id := by
  unfold boundRows
  rw [List.map_map, List.map_map]
  rfl

theorem boundOnce_boundRows {bindings : SortedMap Nat (List Binding)} (h : Plain bindings)
    (m : Model) (T : Tables) : BoundOnce (boundRows read describe bindings m T) := by
  unfold BoundOnce
  rw [map_measureId_boundRows]
  exact h.once.map measureId_injective

theorem mem_boundRows_iff {bindings : SortedMap Nat (List Binding)} {m : Model} {k : Cell} :
    k.measure.id ∈ (boundRows read describe bindings m T).map BoundRows.measureId ↔
      Feeds bindings k := by
  rw [map_measureId_boundRows, List.mem_map_of_injective measureId_injective, List.mem_map]
  unfold Feeds
  constructor
  · intro h
    obtain ⟨⟨rel, b⟩, hmem, hmeasure⟩ := h
    exact ⟨rel, b, mem_allBound_iff.mp hmem, hmeasure⟩
  · intro h
    obtain ⟨rel, b, hb, hmeasure⟩ := h
    exact ⟨(rel, b), mem_allBound_iff.mpr hb, hmeasure⟩

/-- The cells loading the tables into a model gives, its unbound cells and its
items being as they are. -/
def Loads (cal : Calendar) (read : Loader) (describe : Nat → Relation)
    (bindings : SortedMap Nat (List Binding)) (m : Model) (T : Tables)
    (cells : SortedMap Cell Value) : Prop :=
  ∃ m' l, loadInputs cal m (boundRows read describe bindings m T) = .ok (m', l) ∧
    m'.inputs = cells

/-! ## A model kept by batches -/

/-- What a worker holds for a model, with the tables as the batches left them. -/
structure Live where
  mapper : Mapper
  model : Model
  tables : Tables

namespace Live

/-- A step of the worker: an item minted for a new name, or a batch of the
tables' changes mapped. -/
inductive Step (cal : Calendar) (read : Loader) (describe : Nat → Relation) : Live → Live → Prop
  | mint (l : Live) (c : CategoryId) (name : String) (id : ItemId)
      (hid : l.model.items.get? id = none) (hname : l.mapper.items.find c name = none) :
      Step cal read describe l
        ⟨l.mapper.addItem c name id, l.model.addItem id c name, l.tables⟩
  | batch (l : Live) (rels : SortedMap Nat Relation) (txns : List Txn) (replayUntil : Nat)
      (es : List Edit) (mp : Mapper) (m : Model) (T : Tables)
      (hrels : Mapper.Described rels describe) (hlater : ∀ t ∈ txns, replayUntil < t.endLsn)
      (hist : Mapper.History read describe l.mapper l.model (txns.flatMap Txn.changes) l.tables T)
      (hmap : l.mapper.map cal l.model rels txns replayUntil = .ok (es, mp, m)) :
      Step cal read describe l ⟨mp, m, T⟩

/-- A worker's model follows its tables: its bound cells are the views of their
rows, and the others are as they were loaded. -/
structure Follows (cal : Calendar) (read : Loader) (describe : Nat → Relation)
    (bindings : SortedMap Nat (List Binding)) (base : Model) (l : Live) : Prop where
  binds : l.mapper.bindings = bindings
  catalogued : Mapper.Catalogued l.mapper
  keyed : ∀ k x, l.model.items.get? k = some x → x.id = k
  names : ∀ c n, l.mapper.items.find c n = (Items.ofModel l.model).find c n
  measures : l.model.measures = base.measures
  shown : Mapper.Shown cal read describe l.mapper l.model l.tables
  allowed : Mapper.Allowed read describe l.mapper l.model l.tables
  unbound : ∀ k, ¬Feeds bindings k → l.model.inputs.get? k = base.inputs.get? k

namespace Follows

variable {bindings : SortedMap Nat (List Binding)} {base : Model} {l l' : Live}

/-- A load follows the tables it read. -/
theorem start (hplain : Plain bindings)
    (hdims : ∀ rel, ∀ b ∈ bindings.group rel, b.cats.Nodup ∧
      ∀ x, base.measures.get? b.measure = some x → b.cats = x.categories)
    (hkeyed : ∀ k x, base.items.get? k = some x → x.id = k)
    (hfree : ∀ k, Feeds bindings k → base.inputs.get? k = none) {m : Model} {loaded : Loaded}
    (hload : loadInputs cal base (boundRows read describe bindings base T) = .ok (m, loaded))
    (hallowed : Mapper.Allowed read describe (.new m bindings) m T) :
    Follows cal read describe bindings base ⟨.new m bindings, m, T⟩ := by
  obtain ⟨hfits, hmeasures, hkeyed', hothers⟩ := loadInputs_fits hkeyed
    (boundOnce_boundRows hplain _ _)
    (fun b hb c => hfree _ (mem_boundRows_iff.mp (List.mem_map_of_mem hb))) hload
  refine ⟨rfl, ⟨hplain, fun rel b hb => (hdims rel b hb).1, ?_⟩, hkeyed', fun _ _ => rfl,
    hmeasures, ?_, hallowed, ?_⟩
  · intro c n n' i h h'
    exact Items.find_injective hkeyed' h h'
  · intro rel b hb
    have hmem : (⟨b.measure.id, (T rel).map (read (describe rel) b (vtOf base b))⟩ : BoundRows) ∈
        boundRows read describe bindings base T :=
      List.mem_map.mpr ⟨(rel, b), mem_allBound_iff.mpr hb, rfl⟩
    obtain ⟨x, hx, hfit⟩ := hfits _ hmem
    have hcats := (hdims rel b hb).2 x hx
    refine ⟨x, ?_, hcats, ?_⟩
    · rw [hmeasures]
      exact hx
    · rw [hcats, ← vtOf_eq hx]
      exact hfit
  · intro k hk
    exact hothers k fun hmem => hk (mem_boundRows_iff.mp hmem)

/-- A minted item leaves the cells as they are. -/
theorem mint (h : Follows cal read describe bindings base l) {c : CategoryId} {name : String}
    {id : ItemId} (hid : l.model.items.get? id = none)
    (hname : l.mapper.items.find c name = none) :
    Follows cal read describe bindings base
      ⟨l.mapper.addItem c name id, l.model.addItem id c name, l.tables⟩ := by
  have hkeyed : ∀ k x, (l.model.addItem id c name).items.get? k = some x → x.id = k := by
    intro k x hx
    change (l.model.items.insert id ⟨id, c, name⟩).get? k = some x at hx
    rw [SortedMap.get?_insert] at hx
    by_cases hk : k = id
    · rw [if_pos hk, Option.some.injEq] at hx
      rw [← hx, hk]
    · rw [if_neg hk] at hx
      exact h.keyed k x hx
  have hnames : ∀ c' n, (l.mapper.addItem c name id).items.find c' n =
      (Items.ofModel (l.model.addItem id c name)).find c' n := by
    intro c' n
    rw [Items.find_ofModel_insert rfl hid (by rw [← h.names, hname])]
    change (l.mapper.items.add c name id).find c' n = _
    rw [Items.find_add, Items.find_add, h.names]
  refine ⟨h.binds, ⟨h.catalogued.plain, h.catalogued.dims, ?_⟩, hkeyed, hnames, h.measures, ?_,
    h.allowed, h.unbound⟩
  · intro c' n n' i hi hi'
    rw [hnames] at hi hi'
    exact Items.find_injective hkeyed hi hi'
  · intro rel b hb
    obtain ⟨x, hx, hcats, hfit⟩ := h.shown rel b hb
    exact ⟨x, hx, hcats, hfit.mono (Items.extends_add hname id)⟩

/-- A batch that is mapped follows the tables. -/
theorem batch (ag : read.Agrees cal) (h : Follows cal read describe bindings base l)
    {rels : SortedMap Nat Relation} {txns : List Txn} {replayUntil : Nat} {es : List Edit}
    {mp : Mapper} {m : Model} (hrels : Mapper.Described rels describe)
    (hlater : ∀ t ∈ txns, replayUntil < t.endLsn)
    (hist : Mapper.History read describe l.mapper l.model (txns.flatMap Txn.changes) l.tables T)
    (hmap : l.mapper.map cal l.model rels txns replayUntil = .ok (es, mp, m)) :
    Follows cal read describe bindings base ⟨mp, m, T⟩ := by
  unfold Mapper.map at hmap
  rw [bind_eq_ok_iff] at hmap
  obtain ⟨⟨mp1, m1, touched⟩, hfold, hmap⟩ := hmap
  cases hmap
  have hadv := Mapper.txns_advanced ag hrels h.catalogued hlater h.allowed h.shown hist hfold
  obtain rfl : mp = l.mapper := hadv.mapper
  have hrest : m = { l.model with inputs := m.inputs } := hadv.rest
  have hitems : m.items = l.model.items := by rw [hrest]
  have hmeasures : m.measures = l.model.measures := by rw [hrest]
  have hnames : Items.ofModel m = .ofModel l.model := ItemInterner.ofModel_congr hitems
  refine ⟨h.binds, h.catalogued, ?_, ?_, hmeasures.trans h.measures, hadv.shown,
    (hist.allowed h.allowed).of_rest hadv.rest, ?_⟩
  · intro k x hx
    exact h.keyed k x (hitems ▸ hx)
  · intro c n
    change l.mapper.items.find c n = (Items.ofModel m).find c n
    rw [hnames, h.names]
  · intro k hk
    have hothers : ∀ rel, ∀ b ∈ l.mapper.bound rel, b.measure ≠ k.measure := by
      intro rel b hb heq
      rw [← h.binds] at hk
      exact hk ⟨rel, b, hb, heq⟩
    exact (hadv.others k hothers).trans (h.unbound k hk)

theorem step (ag : read.Agrees cal) (h : Follows cal read describe bindings base l)
    (hstep : Step cal read describe l l') : Follows cal read describe bindings base l' := by
  cases hstep with
  | mint c name id hid hname => exact h.mint hid hname
  | batch rels txns replayUntil es mp m T hrels hlater hist hmap =>
      exact h.batch ag hrels hlater hist hmap

theorem run (ag : read.Agrees cal) (h : Follows cal read describe bindings base l)
    (hrun : Relation.ReflTransGen (Step cal read describe) l l') :
    Follows cal read describe bindings base l' := by
  induction hrun with
  | refl => exact h
  | tail _ hstep ih => exact ih.step ag hstep

/-- Cells that follow the tables are those loading them gives. -/
theorem loads (h : Follows cal read describe bindings base l)
    (hfree : ∀ k, Feeds bindings k → base.inputs.get? k = none) :
    Loads cal read describe bindings { l.model with inputs := base.inputs } l.tables
      l.model.inputs := by
  have hplain : Plain bindings := h.binds ▸ h.catalogued.plain
  obtain ⟨m'', loaded, hload, hinputs⟩ := fits_loadInputs h.keyed
    (boundOnce_boundRows hplain l.model l.tables) (by
      intro b hb
      obtain ⟨⟨rel, b⟩, hmem, rfl⟩ := List.mem_map.mp hb
      have hb := mem_allBound_iff.mp hmem
      rw [← h.binds] at hb
      obtain ⟨x, hx, hcats, hfit⟩ := h.shown rel b hb
      refine ⟨x, hx, ?_⟩
      rw [vtOf_eq hx, ← hcats]
      refine hfit.mono fun c n i hi => ?_
      rw [← h.names]
      exact hi)
  have hwithout : withoutBound l.model (boundRows read describe bindings l.model l.tables) =
      { l.model with inputs := base.inputs } := by
    have hcells : (withoutBound l.model
        (boundRows read describe bindings l.model l.tables)).inputs = base.inputs := by
      ext1 k
      rw [get?_withoutBound]
      by_cases hk : Feeds bindings k
      · rw [if_pos (mem_boundRows_iff.mpr hk), hfree k hk]
      · rw [if_neg (fun hmem => hk (mem_boundRows_iff.mp hmem)), h.unbound k hk]
    exact congrArg (fun cells => { l.model with inputs := cells }) hcells
  refine ⟨m'', loaded, ?_, hinputs⟩
  rw [← hwithout]
  exact hload

end Follows

end Live

/-- The loader's casts as the texts show them. -/
def readText (cal : Calendar) : Loader := fun r b vt t =>
  ((b.dims.mapM fun d => dimName r d.2 t).toOption.getD [],
    (value cal r b t vt).toOption.join.map CellValue.fromModelValue)

theorem toValue_of_parse {vt : ValueType} {s : String} {bpchar : Bool} {v : Value}
    (h : parse noCalendar vt s bpchar = .ok v) :
    toValue noCalendar (.fromModelValue v) = some v := by
  unfold parse at h
  cases vt with
  | number =>
      cases hf : Decimal.parseF64 s with
      | none => simp [hf] at h
      | some f =>
          simp only [hf, Option.map_some, Option.elim_some, Except.ok.injEq] at h
          rw [← h]
          exact congrArg (fun f => some (Value.number f)) (ofBits_toBits f)
  | boolean =>
      dsimp only at h
      split at h
      · cases h
        rfl
      · split at h
        · cases h
          rfl
        · cases h
  | text =>
      cases h
      rfl
  | dateTime => cases h
  | enum => cases h

theorem readText_agrees : (readText noCalendar).Agrees noCalendar := by
  constructor
  · intro r b vt t names h
    unfold readText
    rw [h]
    rfl
  · intro r b vt t v h
    unfold readText
    rw [h]
    cases v with
    | none => rfl
    | some v =>
        unfold value at h
        rw [bind_eq_ok_iff] at h
        obtain ⟨s, _, h⟩ := h
        cases s with
        | none => cases h
        | some s =>
            cases hv : parse noCalendar vt s (valueOid r b = BPCHAR) with
            | error e =>
                simp only [hv] at h
                cases h
            | ok w =>
                simp only [hv] at h
                cases h
                exact congrArg some (toValue_of_parse hv)

/-- A text measure over one category, one of whose items has a note. -/
def regions : Model :=
  { Model.new with
    categories := .ofList [(⟨1⟩, ⟨⟨1⟩, "Region", []⟩)]
    measures := .ofList [(⟨10⟩, ⟨⟨10⟩, "Note", .text, [⟨1⟩], .input, none, none⟩)] }

def regionsLoaded : Model :=
  { regions with
    categories := .ofList [(⟨1⟩, ⟨⟨1⟩, "Region", [⟨1⟩]⟩)]
    items := .ofList [(⟨1⟩, ⟨⟨1⟩, ⟨1⟩, "north"⟩)]
    inputs := .ofList [(⟨⟨10⟩, .fromPairs [(⟨1⟩, ⟨1⟩)]⟩, .text "open")] }

/-- A relation of a region and its note, wholly sent. -/
def notes : Relation := ⟨'f', [⟨false, "region", 25⟩, ⟨false, "note", 25⟩]⟩

def noteBinding : Binding := ⟨⟨10⟩, "note", [(⟨1⟩, "region")], none⟩

def noteBindings : SortedMap Nat (List Binding) := .ofList [(7, [noteBinding])]

theorem eq_of_mem_noteBindings {rel : Nat} {b : Binding} (h : b ∈ noteBindings.group rel) :
    b = noteBinding := by
  have hmem := mem_allBound_iff.mpr h
  rw [show allBound noteBindings = [(7, noteBinding)] from rfl, List.mem_singleton] at hmem
  exact (Prod.mk.inj hmem).2

def oneNote (note : String) : Tables := fun rel =>
  if rel = 7 then [[.text "north", .text note]] else []

theorem exists_loaded {m m' : Model} {bound : List BoundRows}
    (h : (loadInputs cal m bound).map Prod.fst = .ok m') :
    ∃ loaded, loadInputs cal m bound = .ok (m', loaded) := by
  cases hx : loadInputs cal m bound with
  | error e =>
      rw [hx] at h
      cases h
  | ok x =>
      rw [hx] at h
      exact ⟨x.2, by rw [← Except.ok.inj h]⟩

theorem load_oneNote : (loadInputs noCalendar regions (boundRows (readText noCalendar)
    (fun _ => notes) noteBindings regions (oneNote "open"))).map Prod.fst = .ok regionsLoaded := by
  decide +kernel

/-- The note changed, in one transaction. -/
def shut : List Txn :=
  [⟨1, 5, [.update 7 (some [.text "north", .text "open"]) [.text "north", .text "shut"]]⟩]

theorem plain_noteBindings : Plain noteBindings :=
  ⟨fun rel b hb => by rw [eq_of_mem_noteBindings hb]; rfl, by decide +kernel⟩

/-- The cells with one note. -/
def noteCells (note : String) : SortedMap Cell Value :=
  .ofList [(⟨⟨10⟩, .fromPairs [(⟨1⟩, ⟨1⟩)]⟩, .text note)]

theorem map_shut : ((Mapper.new regionsLoaded noteBindings).map noCalendar regionsLoaded
    (.ofList [(7, notes)]) shut 0).map (fun x => x.2.2) =
      .ok { regionsLoaded with inputs := noteCells "shut" } := by
  decide +kernel

theorem dims_noteBindings : ∀ rel, ∀ b ∈ noteBindings.group rel, b.cats.Nodup ∧
    ∀ x, regions.measures.get? b.measure = some x → b.cats = x.categories := by
  intro rel b hb
  rw [eq_of_mem_noteBindings hb]
  refine ⟨by decide, fun x hx => ?_⟩
  cases hx
  rfl

theorem described_notes : Mapper.Described (.ofList [(7, notes)]) fun _ => notes := by
  intro rel r hr
  have hmem := SortedMap.get?_eq_some_iff.mp hr
  rw [show (SortedMap.ofList [(7, notes)]).entries = [(7, notes)] from rfl,
    List.mem_singleton] at hmem
  exact (Prod.mk.inj hmem).2

/-- The row change that `shut` is. -/
theorem history_shut (mp : Mapper) (m : Model) :
    Mapper.History (readText noCalendar) (fun _ => notes) mp m (shut.flatMap Txn.changes)
      (oneNote "open") (oneNote "shut") := by
  refine ⟨oneNote "shut", ⟨[.text "north", .text "open"], [.text "north", .text "shut"], [],
    ?_, ?_, .refl _, .refl _, ?_⟩, fun _ _ _ hnot => absurd rfl hnot, rfl⟩
  · exact .cons (.inr rfl) (.cons (.inr rfl) .nil)
  · intro t ht
    cases ht
    exact .cons (.inr rfl) (.cons (.inr rfl) .nil)
  · intro q hq
    unfold oneNote
    rw [if_neg hq, if_neg hq]

end Improv.PgModel
