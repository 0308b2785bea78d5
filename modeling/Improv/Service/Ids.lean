import Improv.Service.Serve
import Improv.Service.Runs
/-!
# Ids

A new item, measure or category gets the id past the highest of its kind, so an
id comes back once the thing that had the highest is gone.  In a run where
nothing takes the highest id of a kind out of the model, the highest never
falls, and what a structural request makes has an id no state of the run knew.
-/

namespace Improv.Service

open Improv.Lib Improv.CoreModel Improv.Engine

/-- The kinds of things whose ids requests and logs keep. -/
inductive Kind
  | item
  | measure
  | category
deriving DecidableEq

/-- The ids of a kind that a model uses. -/
def idsOf : Kind → Model → List Nat
  | .item, m => m.items.keys.map ItemId.id
  | .measure, m => m.measures.keys.map MeasureId.id
  | .category, m => m.categories.keys.map CategoryId.id

/-- The highest of some ids, 0 for none. -/
def highest (ids : List Nat) : Nat := ids.max?.getD 0

theorem le_highest {ids : List Nat} {i : Nat} (h : i ∈ ids) : i ≤ highest ids := by
  unfold highest
  cases hmax : ids.max? with
  | none =>
      rw [List.max?_eq_none_iff] at hmax
      simp [hmax] at h
  | some m => exact (List.max?_eq_some_iff.mp hmax).2 i h

theorem highest_le {ids : List Nat} {n : Nat} (h : ∀ i ∈ ids, i ≤ n) : highest ids ≤ n := by
  unfold highest
  cases hmax : ids.max? with
  | none => exact Nat.zero_le n
  | some m => exact h m (List.max?_eq_some_iff.mp hmax).1

theorem highest_mem_or (ids : List Nat) : highest ids ∈ ids ∨ ids = [] := by
  unfold highest
  cases hmax : ids.max? with
  | none => exact .inr (List.max?_eq_none_iff.mp hmax)
  | some m => exact .inl (List.max?_eq_some_iff.mp hmax).1

/-- Where 32 bits hold it, a new id is past every id in use. -/
theorem highest_lt_nextId {ids : List Nat} (h : highest ids + 1 < 2 ^ 32) :
    highest ids < nextId ids := by
  unfold highest at *
  unfold nextId
  cases hmax : ids.max? with
  | none => simp
  | some m =>
      rw [hmax, Option.getD_some] at h
      simp only [Option.getD_some]
      rw [Nat.mod_eq_of_lt h]
      omega

/-! ## What a structural request does to the ids -/

/-- A request takes an id of a kind out of a model. -/
def removes (m : Model) : Request → Kind → Nat → Prop
  | .deleteItem id, .item, i => i = id
  | .deleteMeasure id, .measure, i => i = id
  | .deleteCategory id, .category, i => i = id
  | .deleteCategory id, .item, i => ⟨i⟩ ∈ itemsOf m ⟨id⟩
  | _, _, _ => False

/-- A request may make a thing of a kind. -/
def makes : Request → Kind → Bool
  | .addItem .., .item => true
  | .define _, .measure => true
  | .addCategory _, .category => true
  | _, _ => false

@[simp] theorem mem_idsOf_item {m : Model} {i : Nat} :
    i ∈ idsOf .item m ↔ m.items.contains ⟨i⟩ = true := by
  rw [← SortedMap.mem_keys_iff, idsOf, List.mem_map]
  exact ⟨fun ⟨⟨_⟩, h, hi⟩ => hi ▸ h, fun h => ⟨_, h, rfl⟩⟩

@[simp] theorem mem_idsOf_measure {m : Model} {i : Nat} :
    i ∈ idsOf .measure m ↔ m.measures.contains ⟨i⟩ = true := by
  rw [← SortedMap.mem_keys_iff, idsOf, List.mem_map]
  exact ⟨fun ⟨⟨_⟩, h, hi⟩ => hi ▸ h, fun h => ⟨_, h, rfl⟩⟩

@[simp] theorem mem_idsOf_category {m : Model} {i : Nat} :
    i ∈ idsOf .category m ↔ m.categories.contains ⟨i⟩ = true := by
  rw [← SortedMap.mem_keys_iff, idsOf, List.mem_map]
  exact ⟨fun ⟨⟨_⟩, h, hi⟩ => hi ▸ h, fun h => ⟨_, h, rfl⟩⟩

/-- A candidate's ids: those of the model but the removed ones, and the next id
of a kind the request makes. -/
structure IdsMove (m c : Model) (req : Request) : Prop where
  new : ∀ k i, i ∈ idsOf k c → i ∈ idsOf k m ∨ makes req k = true ∧ i = nextId (idsOf k m)
  kept : ∀ k i, i ∈ idsOf k m → i ∈ idsOf k c ∨ removes m req k i

/-- A candidate with the model's ids. -/
def SameIds (m c : Model) : Prop := ∀ k i, i ∈ idsOf k c ↔ i ∈ idsOf k m

theorem SameIds.idsMove {m c : Model} (h : SameIds m c) (req : Request) : IdsMove m c req :=
  ⟨fun k i hi => .inl ((h k i).mp hi), fun k i hi => .inl ((h k i).mpr hi)⟩

theorem SameIds.trans {m c d : Model} (h : SameIds m c) (h' : SameIds c d) : SameIds m d :=
  fun k i => (h' k i).trans (h k i)

theorem sameIds_of_keys {m c : Model} (hi : ∀ i, c.items.contains i = m.items.contains i)
    (hm : ∀ i, c.measures.contains i = m.measures.contains i)
    (hc : ∀ i, c.categories.contains i = m.categories.contains i) : SameIds m c := by
  intro k i
  cases k with
  | item => rw [mem_idsOf_item, mem_idsOf_item, hi]
  | measure => rw [mem_idsOf_measure, mem_idsOf_measure, hm]
  | category => rw [mem_idsOf_category, mem_idsOf_category, hc]

theorem IdsMove.of_keys {m c : Model} {req : Request}
    (hi : ∀ i, c.items.contains i = m.items.contains i)
    (hm : ∀ i, c.measures.contains i = m.measures.contains i)
    (hc : ∀ i, c.categories.contains i = m.categories.contains i) : IdsMove m c req :=
  (sameIds_of_keys hi hm hc).idsMove req

/-- A candidate that keeps the highest id has one no lower. -/
theorem IdsMove.highest_le {m c : Model} {req : Request} (h : IdsMove m c req) {k : Kind}
    (hk : ¬removes m req k (highest (idsOf k m))) :
    highest (idsOf k m) ≤ highest (idsOf k c) := by
  rcases highest_mem_or (idsOf k m) with hmem | hnil
  · rcases h.kept k _ hmem with hc | hremoved
    · exact le_highest hc
    · exact absurd hremoved hk
  · rw [hnil]
    exact Nat.zero_le _

/-! ### Request by request -/

namespace Authority

open SortedMap

variable {S E : Type} {env : Env S E} {g : Gate} {m c : Model} {msg : String}
  {made : Option Nat}

theorem idsMove_deleteMeasure {id : Nat} (h : deleteMeasure g m id = .ok (c, msg, made)) :
    IdsMove m c (.deleteMeasure id) := by
  obtain ⟨_, rfl⟩ := deleteMeasure_ok h
  constructor
  · intro k i hi
    left
    cases k <;> simp_all [dropMeasure, Model.structureOf, contains_erase]
  · intro k i hi
    cases k <;> simp_all [dropMeasure, Model.structureOf, contains_erase, removes]
    by_cases hid : i = id <;> simp [hid]

theorem idsMove_deleteItem {id : Nat} (h : deleteItem g m id = .ok (c, msg, made)) :
    IdsMove m c (.deleteItem id) := by
  obtain ⟨it, _, rfl⟩ := deleteItem_ok h
  constructor
  · intro k i hi
    left
    cases k <;> simp_all [dropItem, Model.structureOf, contains_erase, contains_map]
  · intro k i hi
    cases k <;> simp_all [dropItem, Model.structureOf, contains_erase, contains_map, removes]
    by_cases hid : i = id <;> simp [hid]

theorem contains_items_dropCategory (m : Model) (id : CategoryId) (i : ItemId) :
    (dropCategory m id).items.contains i = true ↔
      m.items.contains i = true ∧ i ∉ itemsOf m id := by
  change (SortedMap.filter _ _).contains i = true ↔ _
  rw [contains_filter, contains]
  cases m.items.get? i <;> simp

theorem idsMove_deleteCategory {id : Nat} (h : deleteCategory g m id = .ok (c, msg, made)) :
    IdsMove m c (.deleteCategory id) := by
  obtain ⟨_, rfl⟩ := deleteCategory_ok h
  have hcats : ∀ i, (dropCategory m ⟨id⟩).categories.contains i = true ↔
      i ≠ ⟨id⟩ ∧ m.categories.contains i = true := contains_erase m.categories ⟨id⟩
  constructor
  · intro k i hi
    left
    cases k with
    | item =>
        rw [mem_idsOf_item, contains_items_dropCategory] at hi
        exact mem_idsOf_item.mpr hi.1
    | measure => exact hi
    | category =>
        rw [mem_idsOf_category, hcats] at hi
        exact mem_idsOf_category.mpr hi.2
  · intro k i hi
    cases k with
    | item =>
        rw [mem_idsOf_item] at hi
        by_cases hin : (⟨i⟩ : ItemId) ∈ itemsOf m ⟨id⟩
        · exact .inr hin
        · left
          exact mem_idsOf_item.mpr ((contains_items_dropCategory m _ _).mpr ⟨hi, hin⟩)
    | measure => exact .inl hi
    | category =>
        rw [mem_idsOf_category] at hi
        by_cases hid : i = id
        · exact .inr hid
        · left
          exact mem_idsOf_category.mpr ((hcats _).mpr ⟨by simpa using hid, hi⟩)

theorem idsMove_addCategory {n : NameReq} (h : addCategory g m n = .ok (c, msg, made)) :
    IdsMove m c (.addCategory n) := by
  obtain ⟨_, rfl⟩ := addCategory_ok h
  have hcats : ∀ i, (m.structureOf.addCategory ⟨nextId (idsOf .category m)⟩
      (trim n.name)).categories.contains i = true ↔
      i = ⟨nextId (idsOf .category m)⟩ ∨ m.categories.contains i = true :=
    contains_insert m.categories _ _
  constructor
  · intro k i hi
    cases k with
    | item => exact .inl hi
    | measure => exact .inl hi
    | category =>
        rw [mem_idsOf_category, ← idsOf, hcats] at hi
        rcases hi with hi | hi
        · exact .inr ⟨rfl, by simpa using hi⟩
        · exact .inl (mem_idsOf_category.mpr hi)
  · intro k i hi
    left
    cases k with
    | item => exact hi
    | measure => exact hi
    | category =>
        rw [mem_idsOf_category] at hi
        exact mem_idsOf_category.mpr ((hcats _).mpr (.inr hi))

theorem contains_categories_addItem (m : Model) (i : ItemId) (cat : CategoryId) (name : String)
    (j : CategoryId) : (m.addItem i cat name).categories.contains j = m.categories.contains j := by
  unfold Model.addItem
  simp only
  split
  · rename_i k hk
    split
    · exact contains_insert_of_get? hk _ j
    · rfl
  · rfl

theorem idsMove_addItem {category : Nat} {n : NameReq}
    (h : addItem g m category n = .ok (c, msg, made)) : IdsMove m c (.addItem category n) := by
  obtain ⟨_, _, _, rfl⟩ := addItem_ok h
  rw [← idsOf]
  have hitems : ∀ i, (m.structureOf.addItem ⟨nextId (idsOf .item m)⟩ ⟨category⟩
      (trim n.name)).items.contains i = true ↔
      i = ⟨nextId (idsOf .item m)⟩ ∨ m.items.contains i = true :=
    contains_insert m.items _ _
  constructor
  · intro k i hi
    cases k with
    | item =>
        rw [mem_idsOf_item, hitems] at hi
        rcases hi with hi | hi
        · exact .inr ⟨rfl, by simpa using hi⟩
        · exact .inl (mem_idsOf_item.mpr hi)
    | measure => exact .inl hi
    | category =>
        rw [mem_idsOf_category, contains_categories_addItem] at hi
        exact .inl (mem_idsOf_category.mpr hi)
  · intro k i hi
    left
    cases k with
    | item =>
        rw [mem_idsOf_item] at hi
        exact mem_idsOf_item.mpr ((hitems _).mpr (.inr hi))
    | measure => exact hi
    | category =>
        rw [mem_idsOf_category] at hi ⊢
        rw [contains_categories_addItem]
        exact hi

theorem idsMove_addMeasure {d : DefineReq} {x : Measure}
    (hx : x.id = ⟨nextId (idsOf .measure m)⟩) :
    IdsMove m (m.structureOf.addMeasure x) (.define d) := by
  have hmeasures : ∀ i, (m.structureOf.addMeasure x).measures.contains i = true ↔
      i = x.id ∨ m.measures.contains i = true := contains_insert m.measures _ _
  constructor
  · intro k i hi
    cases k with
    | item => exact .inl hi
    | measure =>
        rw [mem_idsOf_measure, hmeasures, hx] at hi
        rcases hi with hi | hi
        · exact .inr ⟨rfl, by simpa using hi⟩
        · exact .inl (mem_idsOf_measure.mpr hi)
    | category => exact .inl hi
  · intro k i hi
    left
    cases k with
    | item => exact hi
    | measure =>
        rw [mem_idsOf_measure] at hi
        exact mem_idsOf_measure.mpr ((hmeasures _).mpr (.inr hi))
    | category => exact hi

/-! ### Requests that only change things the model has -/

theorem sameIds_renameCategory {id : Nat} {n : NameReq}
    (h : renameCategory g m id n = .ok (c, msg, made)) : SameIds m c := by
  obtain ⟨k, hk, _, rfl⟩ := renameCategory_ok h
  exact sameIds_of_keys (fun _ => rfl) (fun _ => rfl) (contains_insert_of_get? hk _)

theorem sameIds_renameItem {id : Nat} {n : NameReq}
    (h : renameItem g m id n = .ok (c, msg, made)) : SameIds m c := by
  obtain ⟨it, hit, _, rfl⟩ := renameItem_ok h
  exact sameIds_of_keys (contains_insert_of_get? hit _) (fun _ => rfl) (fun _ => rfl)

theorem sameIds_updateMeasure {who : Principal} {id : Nat} {u : UpdateMeasureReq}
    {a : Authority S E} (h : updateMeasure env who id u a = .ok (c, msg, made)) :
    SameIds a.model c := by
  obtain ⟨x, c₁, c₂, _, _, _, hx, hname, hformula, hformat⟩ := updateMeasure_ok h
  have h₁ : SameIds a.model c₁ := by
    rcases withName_ok hname with rfl | ⟨n, _, rfl⟩
    · exact sameIds_of_keys (fun _ => rfl) (fun _ => rfl) (fun _ => rfl)
    · exact sameIds_of_keys (fun _ => rfl) (contains_insert_of_get? hx _) (fun _ => rfl)
  have h₂ : SameIds c₁ c₂ := by
    rcases withFormula_ok hformula with rfl | ⟨_, y, _, _, _, _, hy, _, rfl, _⟩
    · exact fun _ _ => Iff.rfl
    · exact sameIds_of_keys (fun _ => rfl) (contains_insert_of_get? hy _) (fun _ => rfl)
  have h₃ : SameIds c₂ c := by
    rcases withFormat_ok hformat with rfl | ⟨f, rfl⟩
    · exact fun _ _ => Iff.rfl
    · exact sameIds_of_keys (fun _ => rfl) (contains_map c₂.measures _) (fun _ => rfl)
  exact (h₁.trans h₂).trans h₃

theorem idsMove_define {who : Principal} {d : DefineReq} {a : Authority S E}
    (h : define env who d a = .ok (c, msg, made)) : IdsMove a.model c (.define d) := by
  rcases define_ok h with h | ⟨_, h⟩ | ⟨_, _, h⟩ | ⟨_, _, _, h⟩
  · obtain ⟨_, _, _, _, rfl⟩ := defineInput_ok h
    exact idsMove_addMeasure rfl
  · obtain ⟨_, _, _, _, _, _, rfl⟩ := defineLambda_ok h
    exact .of_keys (fun _ => rfl) (fun _ => rfl) (fun _ => rfl)
  · exact (sameIds_updateMeasure h).idsMove _
  · obtain ⟨_, _, _, _, _, _, rfl⟩ := defineDerived_ok h
    exact idsMove_addMeasure rfl

/-- What an accepted request does to the ids. -/
theorem idsMove_plan {who : Principal} {req : Request} {a : Authority S E}
    (h : plan env who req a = .ok (c, msg, made)) : IdsMove a.model c req := by
  cases req with
  | define d => exact idsMove_define h
  | updateMeasure id u => exact (sameIds_updateMeasure h).idsMove _
  | deleteMeasure id => exact idsMove_deleteMeasure h
  | addCategory n => exact idsMove_addCategory h
  | renameCategory id n => exact (sameIds_renameCategory h).idsMove _
  | deleteCategory id => exact idsMove_deleteCategory h
  | addItem category n => exact idsMove_addItem h
  | renameItem id n => exact (sameIds_renameItem h).idsMove _
  | deleteItem id => exact idsMove_deleteItem h
  | saveView v =>
      obtain ⟨_, _, _, _, rfl⟩ := saveView_ok h
      exact .of_keys (fun _ => rfl) (fun _ => rfl) (fun _ => rfl)
  | updateView id v =>
      obtain ⟨_, _, _, _, _, _, rfl⟩ := updateView_ok h
      exact .of_keys (fun _ => rfl) (fun _ => rfl) (fun _ => rfl)
  | deleteView id =>
      obtain rfl := deleteView_ok h
      exact .of_keys (fun _ => rfl) (fun _ => rfl) (fun _ => rfl)
  | readStructure | window _ _ | edit _ | undo | redo => cases h

/-! ## Runs that keep the highest ids -/

variable (env) in
/-- An event leaves the highest id of every kind in the model: a delete is not of
the thing that has it, a structure put back and a model loaded again have one
no lower, and what is made has room for its id. -/
def KeepsHighest (a : Authority S E) : Event → Prop
  | .refresh => ∀ b, refresh env a = .ok true b →
      ∀ k, highest (idsOf k a.model) ≤ highest (idsOf k b.model)
  | .change _ _ req => ∀ k, ¬removes a.model req k (highest (idsOf k a.model)) ∧
      (makes req k = true → highest (idsOf k a.model) + 1 < 2 ^ 32)
  | .undo _ session redo => ∀ before dropped rest,
      source (a.sessions session) redo = .structural before dropped :: rest →
        ∀ k, highest (idsOf k a.model) ≤ highest (idsOf k before)
  | .attempt .. | .record .. => True

theorem idsOf_structureOf (k : Kind) (m : Model) : idsOf k m.structureOf = idsOf k m := by
  cases k <;> rfl

theorem idsOf_of_structureOf {m c : Model} (h : c.structureOf = m.structureOf) (k : Kind) :
    idsOf k c = idsOf k m := by
  rw [← idsOf_structureOf, h, idsOf_structureOf]

theorem step_highest {a : Authority S E} {e : Event} (h : KeepsHighest env a e) (k : Kind) :
    highest (idsOf k a.model) ≤ highest (idsOf k (step env a e).model) := by
  cases e with
  | refresh =>
      cases hr : refresh env a with
      | error r b =>
          simp only [step, hr, Outcome.state, (refresh_error hr).model, le_refl]
      | ok moved b =>
          cases moved with
          | true =>
              simp only [step, hr, Outcome.state]
              exact h b hr k
          | false => simp only [step, hr, Outcome.state, (refresh_unmoved hr).model, le_refl]
  | attempt who edits =>
      simp only [step]
      split
      · exact le_refl _
      · rw [idsOf_of_structureOf (applyCells_structureOf env _ a)]
  | record session before after => exact le_refl _
  | change who session req =>
      simp only [step]
      rcases changeStructure_cases env who session req a with
        hk | ⟨c, _, _, _, _, b, hplan, hadopt, hb⟩
      · rw [hk.model]
      · rw [hb]
        change _ ≤ highest (idsOf k b.model)
        rw [(adopt_ok hadopt).model, idsOf_of_structureOf (structureOf_fitCells c _ _)]
        exact (idsMove_plan hplan).highest_le (h k).1
  | undo who session redo =>
      simp only [step]
      rcases undo_structureOf env who session redo a with
        heq | ⟨before, dropped, rest, hs, heq⟩
      · rw [idsOf_of_structureOf heq]
      · rw [idsOf_of_structureOf heq]
        exact h before dropped rest hs k

/-- A request for an item of the only category. -/
def addQuarter (name : String) : Event := .change ⟨"ann", []⟩ "s" (.addItem 1 ⟨name⟩)

end Authority

end Improv.Service
