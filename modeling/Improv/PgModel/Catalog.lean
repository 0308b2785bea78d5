import Improv.PgModel.LoadRuns
import Mathlib.Data.List.Sort
/-!
# A model built from its catalog

The rows a model is stored as, without named LAMBDAs, and the model of them:
categories, items and measures first, then the formulas of the derived ones, so
that a formula may read any measure.
-/

namespace Improv.PgModel

open Improv.Lib Improv.CoreModel

structure CategoryRow where
  id : Nat
  name : String
deriving DecidableEq

structure ItemRow where
  id : Nat
  categoryId : Nat
  name : String
deriving DecidableEq

structure MeasureRow where
  id : Nat
  name : String
  valueType : String
  kind : String
  formula : Option String
  description : Option String
  categories : List Nat
deriving DecidableEq

def MeasureRow.input (id : Nat) (name : String) (categories : List Nat) : MeasureRow :=
  ⟨id, name, "number", "input", none, none, categories⟩

def MeasureRow.isDerived (r : MeasureRow) : Bool := r.kind = "derived"

def valueTypeName : ValueType → String
  | .number => "number"
  | .boolean => "boolean"
  | .text => "text"
  | .dateTime => "datetime"
  | .enum => "enum"

/-- Why a catalog is no model. -/
inductive CatalogError
  | unknownCategory (item category : Nat)
  | kind (measure kind : String) (formula : Option String)
  | valueType (text : String)
  | definition (text : String)
  | target (measure target : String)
  | unreadable (measure why : String)
deriving DecidableEq

def valueTypeParse (s : String) : Except CatalogError ValueType :=
  match s with
  | "number" => .ok .number
  | "boolean" => .ok .boolean
  | "text" => .ok .text
  | "datetime" => .ok .dateTime
  | "enum" => .ok .enum
  | other => .error (.valueType other)

structure Catalog where
  categories : List CategoryRow
  items : List ItemRow
  measures : List MeasureRow
deriving DecidableEq

def Catalog.empty : Catalog := ⟨[], [], []⟩

/-- What the text of a stored formula is read as. -/
inductive Stored
  /-- A formula as JSON, none when it nests too deeply. -/
  | json (formula : Option Formula)
  /-- Past the load bounds. -/
  | limit (message : String)
  | refused (message : String)
  | definition (target : String) (formula : Formula)

/-! ## Building -/

def buildItem (m : Model) (i : ItemRow) : Except CatalogError Model :=
  if m.categories.contains ⟨i.categoryId⟩ then .ok (m.addItem ⟨i.id⟩ ⟨i.categoryId⟩ i.name)
  else .error (.unknownCategory i.id i.categoryId)

/-- A measure added, a derived one as a placeholder until its formula is parsed. -/
def buildMeasure (m : Model) (r : MeasureRow) : Except CatalogError Model :=
  if r.kind = "input" ∨ r.kind = "derived" ∧ r.formula.isSome then do
    let valueType ← valueTypeParse r.valueType
    return m.addMeasure ⟨⟨r.id⟩, r.name, valueType, r.categories.map .mk, .input, r.description,
      none⟩
  else .error (.kind r.name r.kind r.formula)

/-- The formula that a row's text holds. -/
def storedFormula (stored : Model → String → Stored) (m : Model) (r : MeasureRow) (text : String) :
    Except CatalogError Formula :=
  match stored m text with
  | .json (some f) => .ok f
  | .json none => .error (.unreadable r.name "its stored formula nests too deeply to load")
  | .limit why => .error (.unreadable r.name why)
  | .refused why => .error (.definition why)
  | .definition target f => if target = r.name then .ok f else .error (.target r.name target)

/-- A derived measure's formula put in its place. -/
def buildFormula (stored : Model → String → Stored) (m : Model) (r : MeasureRow) :
    Except CatalogError Model :=
  match r.formula.filter fun _ => r.isDerived with
  | none => .ok m
  | some text => do
    let formula ← storedFormula stored m r text
    return { m with
      measures := m.measures.map fun k x =>
        if k = ⟨r.id⟩ then { x with kind := .derived formula } else x }

/-- The model of a catalog, without cells. -/
def buildModel (stored : Model → String → Stored) (catalog : Catalog) :
    Except CatalogError Model := do
  let m := catalog.categories.foldl (fun m c => m.addCategory ⟨c.id⟩ c.name) Model.new
  let m ← catalog.items.foldlM buildItem m
  let rows := catalog.measures.insertionSort fun a b => a.id ≤ b.id
  let m ← rows.foldlM buildMeasure m
  rows.foldlM (buildFormula stored) m

/-! ## Items -/

theorem items_buildMeasure {m m' : Model} {r : MeasureRow} (h : buildMeasure m r = .ok m') :
    m'.items = m.items := by
  unfold buildMeasure at h
  split at h
  · cases hty : valueTypeParse r.valueType with
    | error e =>
        rw [hty] at h
        cases h
    | ok ty =>
        rw [hty] at h
        cases h
        rfl
  · cases h

theorem items_buildFormula {stored : Model → String → Stored} {m m' : Model} {r : MeasureRow}
    (h : buildFormula stored m r = .ok m') : m'.items = m.items := by
  unfold buildFormula at h
  split at h
  · cases h
    rfl
  · rw [bind_eq_ok_iff] at h
    obtain ⟨f, -, h⟩ := h
    cases h
    rfl

theorem get?_items_buildItem {m m' : Model} {i : ItemRow} (h : buildItem m i = .ok m') :
    m'.items = m.items.insert ⟨i.id⟩ ⟨⟨i.id⟩, ⟨i.categoryId⟩, i.name⟩ := by
  unfold buildItem at h
  split at h
  · cases h
    rfl
  · cases h

/-- The items of a model are its catalog's. -/
theorem items_buildModel {stored : Model → String → Stored} {catalog : Catalog} {m : Model}
    (h : buildModel stored catalog = .ok m) :
    m.items = catalog.items.foldl
      (fun items i => items.insert ⟨i.id⟩ ⟨⟨i.id⟩, ⟨i.categoryId⟩, i.name⟩) .empty := by
  have hcategories : ∀ (cs : List CategoryRow) (m : Model),
      (cs.foldl (fun m c => m.addCategory ⟨c.id⟩ c.name) m).items = m.items := by
    intro cs
    induction cs with
    | nil => exact fun _ => rfl
    | cons c cs ih => exact fun m => ih _
  have hitems : ∀ (is : List ItemRow) (m m' : Model), is.foldlM buildItem m = .ok m' →
      m'.items = is.foldl
        (fun items i => items.insert ⟨i.id⟩ ⟨⟨i.id⟩, ⟨i.categoryId⟩, i.name⟩) m.items := by
    intro is
    induction is with
    | nil =>
        intro m m' h
        cases h
        rfl
    | cons i is ih =>
        intro m m' h
        rw [List.foldlM_cons, bind_eq_ok_iff] at h
        obtain ⟨m₁, hm₁, h⟩ := h
        rw [ih m₁ m' h, get?_items_buildItem hm₁]
        rfl
  have hkept : ∀ (rs : List MeasureRow) (f : Model → MeasureRow → Except CatalogError Model),
      (∀ m m' r, f m r = .ok m' → m'.items = m.items) → ∀ m m' : Model,
        rs.foldlM f m = .ok m' → m'.items = m.items := by
    intro rs f hf
    induction rs with
    | nil =>
        intro m m' h
        cases h
        rfl
    | cons r rs ih =>
        intro m m' h
        rw [List.foldlM_cons, bind_eq_ok_iff] at h
        obtain ⟨m₁, hm₁, h⟩ := h
        rw [ih m₁ m' h, hf m m₁ r hm₁]
  unfold buildModel at h
  simp only at h
  rw [bind_eq_ok_iff] at h
  obtain ⟨m₁, hm₁, h⟩ := h
  rw [bind_eq_ok_iff] at h
  obtain ⟨m₂, hm₂, h⟩ := h
  rw [hkept _ _ (fun _ _ _ => items_buildFormula) m₂ m h,
    hkept _ _ (fun _ _ _ => items_buildMeasure) m₁ m₂ hm₂, hitems _ _ m₁ hm₁, hcategories]
  rfl

end Improv.PgModel
