import Improv.Lib.ExceptLemmas
import Improv.Service.Plan
/-!
# What a structural request can do

One lemma a request: an accepted one met its guards, and its candidate is the
model's structure with this change.  Every fact about plans rests on these.
-/

namespace Improv.Service

open Improv.Lib Improv.CoreModel Improv.Engine

namespace Authority

variable {S E : Type} {env : Env S E} {g : Gate} {m c : Model} {msg : String}
  {made : Option Nat}

/-! ## Deleting -/

theorem deleteMeasure_ok {id : Nat} (h : deleteMeasure g m id = .ok (c, msg, made)) :
    (∀ y ∈ m.measures.values, y.id ≠ ⟨id⟩ → readsMeasure m ⟨id⟩ y = false) ∧
      c = dropMeasure m ⟨id⟩ := by
  unfold deleteMeasure at h
  cases hx : m.measures.get? ⟨id⟩ with
  | none => simp [hx] at h
  | some x =>
      simp only [hx, ite_error_eq_ok_iff] at h
      obtain ⟨_, _, husers, h⟩ := h
      cases h
      refine ⟨?_, rfl⟩
      intro y hy hne
      simp only [ne_eq, List.map_eq_nil_iff, List.filter_eq_nil_iff, not_not] at husers
      simpa [hne] using husers y hy

theorem deleteCategory_ok {id : Nat} (h : deleteCategory g m id = .ok (c, msg, made)) :
    (∀ y ∈ m.measures.values, usesCategory ⟨id⟩ y = false) ∧ c = dropCategory m ⟨id⟩ := by
  unfold deleteCategory at h
  cases hk : m.categories.get? ⟨id⟩ with
  | none => simp [hk] at h
  | some k =>
      simp only [hk, ite_error_eq_ok_iff] at h
      obtain ⟨_, husers, h⟩ := h
      cases h
      simp only [ne_eq, List.filter_eq_nil_iff, not_not, Bool.not_eq_true] at husers
      exact ⟨husers, rfl⟩

theorem deleteItem_ok {id : Nat} (h : deleteItem g m id = .ok (c, msg, made)) :
    ∃ it, m.items.get? ⟨id⟩ = some it ∧ c = dropItem m ⟨id⟩ it := by
  unfold deleteItem at h
  cases hit : m.items.get? ⟨id⟩ with
  | none => simp [hit] at h
  | some it =>
      simp only [hit, ite_error_eq_ok_iff] at h
      obtain ⟨_, _, h⟩ := h
      cases h
      exact ⟨it, rfl, rfl⟩

/-! ## Adding and renaming -/

theorem addCategory_ok {n : NameReq} (h : addCategory g m n = .ok (c, msg, made)) :
    taken m (trim n.name) none = false ∧
      c = m.structureOf.addCategory ⟨nextId (m.categories.keys.map CategoryId.id)⟩
        (trim n.name) := by
  unfold addCategory at h
  simp only [ite_error_eq_ok_iff] at h
  obtain ⟨_, _, hfree, h⟩ := h
  cases h
  exact ⟨by simpa using hfree, rfl⟩

theorem renameCategory_ok {id : Nat} {n : NameReq}
    (h : renameCategory g m id n = .ok (c, msg, made)) :
    ∃ k, m.categories.get? ⟨id⟩ = some k ∧
      taken m (trim n.name) (some (.category ⟨id⟩)) = false ∧
      c = { m.structureOf with
        categories := m.categories.insert ⟨id⟩ { k with name := trim n.name } } := by
  unfold renameCategory at h
  cases hk : m.categories.get? ⟨id⟩ with
  | none => simp [hk] at h
  | some k =>
      simp only [hk, ite_error_eq_ok_iff] at h
      obtain ⟨_, _, hfree, h⟩ := h
      cases h
      exact ⟨k, rfl, by simpa using hfree, rfl⟩

theorem addItem_ok {category : Nat} {n : NameReq}
    (h : addItem g m category n = .ok (c, msg, made)) :
    ∃ k, m.categories.get? ⟨category⟩ = some k ∧
      itemNamed m k.items (trim n.name) = false ∧
      c = m.structureOf.addItem ⟨nextId (m.items.keys.map ItemId.id)⟩ ⟨category⟩
        (trim n.name) := by
  unfold addItem at h
  cases hk : m.categories.get? ⟨category⟩ with
  | none => simp [hk] at h
  | some k =>
      simp only [hk, ite_error_eq_ok_iff] at h
      obtain ⟨_, _, hfree, h⟩ := h
      cases h
      exact ⟨k, rfl, by simpa using hfree, rfl⟩

theorem renameItem_ok {id : Nat} {n : NameReq}
    (h : renameItem g m id n = .ok (c, msg, made)) :
    ∃ it, m.items.get? ⟨id⟩ = some it ∧
      itemNamed m ((itemsOf m it.category).filter (· ≠ ⟨id⟩)) (trim n.name) = false ∧
      c = { m.structureOf with
        items := m.items.insert ⟨id⟩ { it with name := trim n.name } } := by
  unfold renameItem at h
  cases hit : m.items.get? ⟨id⟩ with
  | none => simp [hit] at h
  | some it =>
      simp only [hit, ite_error_eq_ok_iff] at h
      obtain ⟨_, _, _, hfree, h⟩ := h
      cases h
      exact ⟨it, rfl, by simpa using hfree, rfl⟩

/-! ## Views -/

theorem saveView_ok {v : ViewReq} (h : saveView g m v = .ok (c, msg, made)) :
    ∃ name view, m.viewByName name = none ∧
      viewOf g ⟨nextId (m.views.keys.map ViewId.id)⟩ name (v.matrices.getD []) = .ok view ∧
      c = m.structureOf.addView view := by
  unfold saveView at h
  simp only [ite_error_eq_ok_iff] at h
  obtain ⟨_, _, hfree, h⟩ := h
  split at h
  · cases h
  · rename_i view hview
    cases h
    exact ⟨_, view, by simpa using hfree, hview, rfl⟩

theorem updateView_ok {id : Nat} {v : ViewReq}
    (h : updateView g m id v = .ok (c, msg, made)) :
    ∃ old name view, shownView g m ⟨id⟩ = some old ∧
      (∀ x, m.viewByName name = some x → x.id = ⟨id⟩) ∧
      viewOf g ⟨id⟩ name (v.matrices.getD old.matrices) = .ok view ∧
      c = m.structureOf.addView view := by
  unfold updateView at h
  cases hold : shownView g m ⟨id⟩ with
  | none => simp [hold] at h
  | some old =>
      simp only [hold, ite_error_eq_ok_iff] at h
      obtain ⟨_, hfree, h⟩ := h
      split at h
      · cases h
      · rename_i view hview
        cases h
        refine ⟨old, _, view, rfl, ?_, hview, rfl⟩
        intro x hx
        rw [hx] at hfree
        simpa using hfree

theorem deleteView_ok {id : Nat} (h : deleteView g m id = .ok (c, msg, made)) :
    c = { m.structureOf with views := m.views.erase ⟨id⟩ } := by
  unfold deleteView at h
  cases hold : shownView g m ⟨id⟩ with
  | none => simp [hold] at h
  | some old =>
      simp only [hold, ite_error_eq_ok_iff] at h
      obtain ⟨_, h⟩ := h
      cases h
      rfl

/-! ## Measures -/

theorem defineLambda_ok {text : String} (h : defineLambda env g m text = .ok (c, msg, made)) :
    ∃ l id, env.formulas.parseLambda m text = .ok (some l) ∧
      m.measureByName l.name = none ∧ m.categoryByName l.name = none ∧
      id = ((m.lambdaByName l.name).map (·.1)).getD (nextId m.lambdas.keys) ∧
      c = { m.structureOf with lambdas := m.lambdas.insert id l } := by
  unfold defineLambda at h
  simp only [ite_error_eq_ok_iff] at h
  obtain ⟨_, h⟩ := h
  split at h
  · cases h
  · cases h
  · rename_i l hparse
    simp only [ite_error_eq_ok_iff] at h
    obtain ⟨hfree, h⟩ := h
    cases h
    simp only [Bool.or_eq_true, not_or, Option.not_isSome_iff_eq_none] at hfree
    exact ⟨l, _, hparse, hfree.1, hfree.2, rfl, rfl⟩

theorem defineDerived_ok {name rhs : String} {offset : Nat}
    (h : defineDerived env g m name rhs offset = .ok (c, msg, made)) :
    ∃ formula valueType categories,
      let id : MeasureId := ⟨nextId (m.measures.keys.map MeasureId.id)⟩
      taken m name none = false ∧
      env.formulas.parseFormula (withProvisional m id name) rhs = .ok formula ∧
      env.formulas.derivedShape m.structureOf id name formula = .ok (valueType, categories) ∧
      c = m.structureOf.addMeasure
        ⟨id, name, valueType, categories, .derived formula, none, none⟩ := by
  unfold defineDerived at h
  simp only [ite_error_eq_ok_iff, parseFormula] at h
  obtain ⟨_, hfree, h⟩ := h
  split at h
  · cases h
  · rename_i formula hparse
    split at h
    · cases h
    · rename_i shape valueType categories hshape
      cases h
      refine ⟨formula, valueType, categories, by simpa using hfree, ?_, hshape, rfl⟩
      split at hparse
      · rename_i hf
        cases hparse
        exact hf
      · cases hparse

theorem defineInput_ok {d : DefineReq} (h : defineInput g m d = .ok (c, msg, made)) :
    ∃ name categories, taken m name none = false ∧
      inputCategories m d.categories = .ok categories ∧
      c = m.structureOf.addMeasure
        ⟨⟨nextId (m.measures.keys.map MeasureId.id)⟩, name, d.valueType.getD .number,
          categories, .input, none, none⟩ := by
  unfold defineInput at h
  simp only [ite_error_eq_ok_iff] at h
  obtain ⟨_, _, hfree, h⟩ := h
  split at h
  · cases h
  · rename_i categories hcats
    cases h
    exact ⟨_, categories, by simpa using hfree, hcats, rfl⟩

theorem withName_ok {mid : MeasureId} {x : Measure} {name : Option String}
    {said : List String} {c' : Model} (h : withName m c mid x name = .ok (c', said)) :
    c' = c ∨ ∃ n, taken m n (some (.measure mid)) = false ∧
      c' = { c with measures := c.measures.insert mid { x with name := n } } := by
  unfold withName at h
  split at h
  · cases h
    exact .inl rfl
  · simp only [ite_error_eq_ok_iff] at h
    obtain ⟨_, hfree, h⟩ := h
    cases h
    exact .inr ⟨_, by simpa using hfree, rfl⟩

theorem withFormula_ok {mid : MeasureId} {text : Option String} {said : List String}
    {c' : Model} (h : withFormula env g m c mid text = .ok (c', said)) :
    c' = c ∨ ∃ t x formula valueType categories engine,
      c.measures.get? mid = some x ∧ env.formulas.parseFormula c t = .ok formula ∧
      c' = { c with
        measures := c.measures.insert mid
          { x with kind := .derived formula, valueType, categories } } ∧
      buildEngine env c'.structureOf = .ok engine := by
  unfold withFormula at h
  split at h
  · cases h
    exact .inl rfl
  · rename_i text
    simp only [ite_error_eq_ok_iff] at h
    obtain ⟨_, h⟩ := h
    split at h
    · cases h
    · cases h
    · rename_i formula x hparse hx
      split at h
      · cases h
      · split at h
        · cases h
        · rename_i valueType categories _
          split at h
          · cases h
          · rename_i engine hbuild
            cases h
            refine .inr ⟨text, x, formula, valueType, categories, engine, hx, ?_, rfl, hbuild⟩
            unfold parseFormula at hparse
            split at hparse
            · rename_i hf
              cases hparse
              exact hf
            · cases hparse

theorem withFormat_ok {mid : MeasureId} {x : Measure} {format : Option (Option NumberFormat)}
    {said : List String} {c' : Model} (h : withFormat c mid x format = .ok (c', said)) :
    c' = c ∨ ∃ f, c' = { c with
      measures := c.measures.map fun k y => if k = mid then { y with format := f } else y } := by
  unfold withFormat at h
  split at h
  · cases h
    exact .inl rfl
  · simp only [ite_error_eq_ok_iff] at h
    obtain ⟨_, h⟩ := h
    cases h
    exact .inr ⟨_, rfl⟩

theorem updateMeasure_ok {who : Principal} {id : Nat} {u : UpdateMeasureReq}
    {a : Authority S E} (h : updateMeasure env who id u a = .ok (c, msg, made)) :
    ∃ x c₁ c₂ said₁ said₂ said₃, a.model.measures.get? ⟨id⟩ = some x ∧
      withName a.model a.model.structureOf ⟨id⟩ x u.name = .ok (c₁, said₁) ∧
      withFormula env (gate env who a) a.model c₁ ⟨id⟩ u.formula = .ok (c₂, said₂) ∧
      withFormat c₂ ⟨id⟩ x u.format = .ok (c, said₃) := by
  unfold updateMeasure at h
  cases hx : a.model.measures.get? ⟨id⟩ with
  | none => simp [hx] at h
  | some x =>
      simp only [hx, ite_error_eq_ok_iff] at h
      obtain ⟨_, _, h⟩ := h
      split at h
      · cases h
      · rename_i c₁ said₁ hname
        split at h
        · cases h
        · rename_i c₂ said₂ hformula
          split at h
          · cases h
          · rename_i c₃ said₃ hformat
            simp only [ite_error_eq_ok_iff] at h
            obtain ⟨_, h⟩ := h
            cases h
            exact ⟨x, c₁, c₂, said₁, said₂, said₃, rfl, hname, hformula, hformat⟩

theorem define_ok {who : Principal} {d : DefineReq} {a : Authority S E}
    (h : define env who d a = .ok (c, msg, made)) :
    defineInput (gate env who a) a.model d = .ok (c, msg, made) ∨
    (∃ text, defineLambda env (gate env who a) a.model text = .ok (c, msg, made)) ∨
    (∃ id u, updateMeasure env who id u a = .ok (c, msg, made)) ∨
    ∃ name rhs offset,
      defineDerived env (gate env who a) a.model name rhs offset = .ok (c, msg, made) := by
  unfold define at h
  split at h
  · exact .inl h
  · rename_i text _
    split at h
    · cases h
    · simp only at h
      split at h
      · exact .inr (.inl ⟨text, h⟩)
      · split at h
        · cases h
        · split at h
          · rename_i x _
            split at h
            · cases h
            · rename_i p hp
              cases h
              exact .inr (.inr (.inl ⟨_, _, hp⟩))
          · exact .inr (.inr (.inr ⟨_, _, _, h⟩))

end Authority

end Improv.Service
