import Improv.Service.Structures
/-!
# Things under their ids

A model's maps keep each category, item, measure and view under its own id.
Every structural request keeps it so.
-/

namespace Improv.Service

open Improv.Lib Improv.CoreModel Improv.Engine

/-- Each thing of a model stands under its id. -/
structure Keyed (m : Model) : Prop where
  category : ∀ k x, m.categories.get? k = some x → x.id = k
  item : ∀ k x, m.items.get? k = some x → x.id = k
  measure : ∀ k x, m.measures.get? k = some x → x.id = k
  view : ∀ k x, m.views.get? k = some x → x.id = k

namespace Keyed

variable {κ α : Type} [LinearOrder κ] {key : α → κ} {m : SortedMap κ α}

theorem get?_insert (h : ∀ k x, m.get? k = some x → key x = k) {j : κ} {a : α}
    (ha : key a = j) : ∀ k x, (m.insert j a).get? k = some x → key x = k := by
  intro k x hx
  rw [SortedMap.get?_insert] at hx
  split at hx
  · rename_i hkj
    cases hx
    rw [ha, hkj]
  · exact h k x hx

theorem get?_erase (h : ∀ k x, m.get? k = some x → key x = k) (j : κ) :
    ∀ k x, (m.erase j).get? k = some x → key x = k := by
  intro k x hx
  rw [SortedMap.get?_erase] at hx
  split at hx
  · cases hx
  · exact h k x hx

theorem get?_filter (h : ∀ k x, m.get? k = some x → key x = k) (keep : κ → α → Bool) :
    ∀ k x, (m.filter keep).get? k = some x → key x = k := by
  intro k x hx
  rw [SortedMap.get?_filter, Option.filter_eq_some_iff] at hx
  exact h k x hx.1

theorem get?_filterMap (h : ∀ k x, m.get? k = some x → key x = k) {f : κ → α → Option α}
    (hf : ∀ k x y, f k x = some y → key y = key x) :
    ∀ k x, (m.filterMap f).get? k = some x → key x = k := by
  intro k x hx
  rw [SortedMap.get?_filterMap, Option.bind_eq_some_iff] at hx
  obtain ⟨y, hy, hyx⟩ := hx
  rw [hf k y x hyx, h k y hy]

theorem get?_map (h : ∀ k x, m.get? k = some x → key x = k) {f : κ → α → α}
    (hf : ∀ k x, key (f k x) = key x) :
    ∀ k x, (m.map f).get? k = some x → key x = k := by
  intro k x hx
  rw [SortedMap.get?_map, Option.map_eq_some_iff] at hx
  obtain ⟨y, hy, rfl⟩ := hx
  rw [hf, h k y hy]

end Keyed

/-- Each entry of a map stands under its id. -/
theorem keyed_entries {κ α : Type} [LinearOrder κ] (key : α → κ) (m : SortedMap κ α) :
    (∀ p ∈ m.entries, key p.2 = p.1) ↔ ∀ k x, m.get? k = some x → key x = k := by
  constructor
  · intro h k x hx
    exact h (k, x) (SortedMap.get?_eq_some_iff.mp hx)
  · intro h p hp
    exact h p.1 p.2 (SortedMap.get?_eq_some_iff.mpr hp)

instance (m : Model) : Decidable (Keyed m) :=
  decidable_of_iff
    ((∀ p ∈ m.categories.entries, p.2.id = p.1) ∧ (∀ p ∈ m.items.entries, p.2.id = p.1) ∧
      (∀ p ∈ m.measures.entries, p.2.id = p.1) ∧ ∀ p ∈ m.views.entries, p.2.id = p.1)
    ⟨fun h => ⟨(keyed_entries _ _).mp h.1, (keyed_entries _ _).mp h.2.1,
        (keyed_entries _ _).mp h.2.2.1, (keyed_entries _ _).mp h.2.2.2⟩,
      fun h => ⟨(keyed_entries _ _).mpr h.category, (keyed_entries _ _).mpr h.item,
        (keyed_entries _ _).mpr h.measure, (keyed_entries _ _).mpr h.view⟩⟩

theorem keyed_structureOf (m : Model) : Keyed m.structureOf ↔ Keyed m :=
  ⟨fun ⟨c, i, x, v⟩ => ⟨c, i, x, v⟩, fun ⟨c, i, x, v⟩ => ⟨c, i, x, v⟩⟩

theorem withoutMeasure_id {mid : MeasureId} {v w : View} (h : withoutMeasure mid v = some w) :
    w.id = v.id := by
  unfold withoutMeasure at h
  split at h
  · cases h
  · cases h
    rfl

namespace Keyed

variable {S E : Type} {env : Env S E} {m c : Model}

theorem dropMeasure (h : Keyed m) (mid : MeasureId) : Keyed (Authority.dropMeasure m mid) where
  category := h.category
  item := h.item
  measure := get?_erase h.measure mid
  view := get?_filterMap h.view fun _ _ _ hw => withoutMeasure_id hw

theorem dropCategory (h : Keyed m) (cid : CategoryId) :
    Keyed (Authority.dropCategory m cid) where
  category := get?_erase h.category cid
  item := get?_filter h.item _
  measure := h.measure
  view := h.view

theorem dropItem (h : Keyed m) (iid : ItemId) (it : Item) :
    Keyed (Authority.dropItem m iid it) where
  category := get?_map h.category fun k x => by split <;> rfl
  item := get?_erase h.item iid
  measure := h.measure
  view := get?_map h.view fun _ _ => rfl

theorem addCategory (h : Keyed m) (id : CategoryId) (name : String) :
    Keyed (m.addCategory id name) :=
  { h with category := get?_insert h.category rfl }

theorem addItem (h : Keyed m) (id : ItemId) (category : CategoryId) (name : String) :
    Keyed (m.addItem id category name) where
  category := by
    unfold Model.addItem
    simp only
    split
    · rename_i k hk
      split
      · exact get?_insert h.category (h.category category k hk)
      · exact h.category
    · exact h.category
  item := get?_insert h.item rfl
  measure := h.measure
  view := h.view

theorem addMeasure (h : Keyed m) (x : Measure) : Keyed (m.addMeasure x) :=
  { h with measure := get?_insert h.measure rfl }

theorem addView (h : Keyed m) (v : View) : Keyed (m.addView v) :=
  { h with view := get?_insert h.view rfl }

open Authority

theorem updateMeasure {who : Principal} {id : Nat} {u : UpdateMeasureReq} {a : Authority S E}
    {msg : String} {made : Option Nat} (h : Keyed a.model)
    (hok : Authority.updateMeasure env who id u a = .ok (c, msg, made)) : Keyed c := by
  obtain ⟨x, c₁, c₂, said₁, said₂, said₃, hx, hname, hformula, hformat⟩ := updateMeasure_ok hok
  have hbase : Keyed a.model.structureOf := (keyed_structureOf _).mpr h
  have h₁ : Keyed c₁ := by
    rcases withName_ok hname with rfl | ⟨n, _, rfl⟩
    · exact hbase
    · exact { hbase with measure := get?_insert hbase.measure (h.measure _ x hx) }
  have h₂ : Keyed c₂ := by
    rcases withFormula_ok hformula with rfl | ⟨_, y, _, _, _, _, hy, _, rfl, _⟩
    · exact h₁
    · exact { h₁ with measure := get?_insert h₁.measure (h₁.measure _ y hy) }
  rcases withFormat_ok hformat with rfl | ⟨f, rfl⟩
  · exact h₂
  · exact { h₂ with measure := get?_map h₂.measure fun k x => by split <;> rfl }

theorem define {who : Principal} {d : DefineReq} {a : Authority S E} {msg : String}
    {made : Option Nat} (h : Keyed a.model)
    (hok : Authority.define env who d a = .ok (c, msg, made)) : Keyed c := by
  have hbase : Keyed a.model.structureOf := (keyed_structureOf _).mpr h
  rcases define_ok hok with hinput | ⟨text, hlambda⟩ | ⟨id, u, hupdate⟩ |
    ⟨name, rhs, offset, hderived⟩
  · obtain ⟨name, categories, _, _, rfl⟩ := defineInput_ok hinput
    exact hbase.addMeasure _
  · obtain ⟨l, id, _, _, _, _, rfl⟩ := defineLambda_ok hlambda
    exact { hbase with }
  · exact h.updateMeasure hupdate
  · obtain ⟨formula, valueType, categories, _, _, _, rfl⟩ := defineDerived_ok hderived
    exact hbase.addMeasure _

/-- Every structural request keeps things under their ids. -/
theorem plan {who : Principal} {req : Request} {a : Authority S E} {msg : String}
    {made : Option Nat} (h : Keyed a.model)
    (hok : Authority.plan env who req a = .ok (c, msg, made)) : Keyed c := by
  have hbase : Keyed a.model.structureOf := (keyed_structureOf _).mpr h
  cases req with
  | define d => exact h.define hok
  | updateMeasure id u => exact h.updateMeasure hok
  | deleteMeasure id =>
      obtain ⟨_, rfl⟩ := deleteMeasure_ok hok
      exact h.dropMeasure _
  | addCategory n =>
      obtain ⟨_, rfl⟩ := addCategory_ok hok
      exact hbase.addCategory _ _
  | renameCategory id n =>
      obtain ⟨k, hk, _, rfl⟩ := renameCategory_ok hok
      exact { hbase with category := get?_insert hbase.category (h.category _ k hk) }
  | deleteCategory id =>
      obtain ⟨_, rfl⟩ := deleteCategory_ok hok
      exact h.dropCategory _
  | addItem category n =>
      obtain ⟨_, _, _, rfl⟩ := addItem_ok hok
      exact hbase.addItem _ _ _
  | renameItem id n =>
      obtain ⟨it, hit, _, rfl⟩ := renameItem_ok hok
      exact { hbase with item := get?_insert hbase.item (h.item _ it hit) }
  | deleteItem id =>
      obtain ⟨it, _, rfl⟩ := deleteItem_ok hok
      exact h.dropItem _ _
  | saveView v =>
      obtain ⟨_, view, _, _, rfl⟩ := saveView_ok hok
      exact hbase.addView _
  | updateView id v =>
      obtain ⟨_, _, view, _, _, _, rfl⟩ := updateView_ok hok
      exact hbase.addView _
  | deleteView id =>
      rw [deleteView_ok hok]
      exact { hbase with view := get?_erase hbase.view _ }
  | readStructure => cases hok
  | window id w => cases hok
  | edit e => cases hok
  | undo => cases hok
  | redo => cases hok

end Keyed

end Improv.Service

/-!
## What the store and the engine promise

The documented behaviour of the two parameters the authority is built on.  A
store numbers its transactions, each later one higher, and a number names one
content; a save is refused where another writer came between.  An engine's
round lists what it changed, so that the list leads from one snapshot to the
next.
-/

namespace Improv.Service

open Improv.Lib Improv.CoreModel Improv.Engine WriteBatch

/-- What a world holds: its last transaction's number, and the model it left. -/
structure Holding (S : Type) where
  clock : S → Int
  content : S → Model

/-- A world that comes after another: its content is the same unless a later
transaction changed it. -/
structure Holding.Later {S : Type} (h : Holding S) (w w' : S) : Prop where
  clock : h.clock w ≤ h.clock w'
  content : h.clock w' = h.clock w → h.content w' = h.content w

namespace Holding.Later

variable {S : Type} {h : Holding S} {w w' w'' : S}

@[refl] theorem refl (w : S) : h.Later w w := ⟨le_refl _, fun _ => rfl⟩

theorem trans (hw : h.Later w w') (hw' : h.Later w' w'') : h.Later w w'' := by
  refine ⟨hw.clock.trans hw'.clock, fun heq => ?_⟩
  have hfirst : h.clock w' = h.clock w := le_antisymm (heq ▸ hw'.clock) hw.clock
  rw [hw'.content (heq.trans hfirst.symm), hw.content hfirst]

end Holding.Later

/-- A change set names everything that differs from one model to another. -/
structure ChangeSet.Names (changes : ChangeSet) (old new : Model) : Prop where
  cells : ∀ c, old.inputs.get? c ≠ new.inputs.get? c → c ∈ changes.cells
  structural : changes.structural = false → old.structureOf = new.structureOf

/-- The documented behaviour of a store. -/
structure LawfulStore {S : Type} (store : StoreApi S) extends Holding S where
  openStore : ∀ w, toHolding.Later w (store.openStore w).2
  txHighWater : ∀ w, toHolding.Later w (store.txHighWater w).2
  loadModel : ∀ w, toHolding.Later w (store.loadModel w).2
  saveChanges : ∀ tx m changes w, toHolding.Later w (store.saveChanges tx m changes w).2
  /-- The high-water mark is a number the clock passed during the call. -/
  highWater : ∀ w hw w', store.txHighWater w = (.ok hw, w') → clock w ≤ hw ∧ hw ≤ clock w'
  /-- A load answers a model with each thing under its id, and the transaction
  it is at. -/
  loaded : ∀ w m tx w', store.loadModel w = (.ok (m, tx), w') → Keyed m ∧
    ∃ t, tx = some t ∧ clock w ≤ t ∧ t ≤ clock w' ∧ (t = clock w' → content w' = m)
  /-- A save over a transaction that is not the last is refused.  One that is
  taken leaves the model saved, as far as its changes name what differs; one
  that stays at its transaction found it there. -/
  saved : ∀ t m changes w tx w', store.saveChanges (some t) m changes w = (.ok tx, w') →
    t = clock w ∧ ∃ t', tx = some t' ∧ clock w ≤ t' ∧ t' ≤ clock w' ∧
      (changes.Names (content w) m →
        (t' = clock w' → content w' = m) ∧ (t' = clock w → content w = m))

/-- What a round changed, as writes. -/
def roundWrites (delta : RoundChanges) : List (FeedCell × Option CellValue) :=
  delta.flatMap fun x => x.2.map fun c => (⟨x.1.id, c.coord⟩, c.new)

/-- The documented behaviour of an engine. -/
structure LawfulEngine {E : Type} (engine : EngineApi E) where
  /-- The measures an engine tracks. -/
  tracked : E → List MeasureId
  new : ∀ m targets e s, engine.new m targets = .ok (e, s) →
    engine.snapshot e = .ok s ∧ ∀ id ∈ tracked e, id ∈ targets
  applyDelta : ∀ e edits delta e' s s', engine.applyDelta e edits = .ok (delta, e') →
    engine.snapshot e = .ok s → engine.snapshot e' = .ok s' →
      (∀ id ∈ tracked e', id ∈ tracked e) ∧ (∀ x ∈ delta, x.1 ∈ tracked e) ∧
      ∀ c : FeedCell, (s' ⟨c.measure⟩).lookup c.coord =
        (lastValue (roundWrites delta) c).getD ((s ⟨c.measure⟩).lookup c.coord)

/-- Decisions are over the structure; the number that names it is a key to them
and nothing more. -/
def Policy.IgnoresNumber (policy : Policy) : Prop :=
  ∀ m v v' who, policy.session m v who = policy.session m v' who

end Improv.Service
