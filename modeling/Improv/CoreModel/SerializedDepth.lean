import Improv.CoreModel.Serialized
/-!
# How deep a serialized model nests

A level of a formula takes three levels of the text, a leaf four, and a whole
model five around each formula; nothing else in a model nests as deep.  So a
model whose formulas pass `checkDepth` nests no deeper than the reader reads.
-/

namespace Improv.CoreModel

open Improv.Lib

theorem Expr.depthFrom_le_depthOf {args : List Expr} {a : Expr} (h : a ∈ args) (d : Nat) :
    a.depthFrom d ≤ Expr.depthFrom.depthOf args d := by
  induction args with
  | nil => exact absurd h List.not_mem_nil
  | cons b as ih =>
      rw [Expr.depthFrom.depthOf]
      cases List.mem_cons.mp h with
      | inl heq => rw [heq]; exact le_max_left _ _
      | inr hmem => exact (ih hmem).trans (le_max_right _ _)

namespace Serialized

variable (date : DateTime → String) {d : Nat}

/-! ## Pieces -/

@[simp] theorem depth_null : (Json.null : Tree).depth = 0 := rfl

@[simp] theorem depth_bool (b : Bool) : (Json.bool b : Tree).depth = 0 := rfl

@[simp] theorem depth_string (s : String) : (Json.string s : Tree).depth = 0 := rfl

@[simp] theorem depth_nat (n : Nat) : (nat n).depth = 0 := rfl

@[simp] theorem depth_float (x : F64) : (float x).depth = 0 := by
  unfold float
  split_ifs <;> rfl

@[simp] theorem depth_single (bits : UInt32) : (single bits).depth = 0 := by
  unfold single
  split_ifs <;> rfl

@[simp] theorem depth_variant_le_iff {name : String} {body : Tree} :
    (variant name body).depth ≤ d + 1 ↔ body.depth ≤ d := by
  unfold variant
  simp

@[simp] theorem depth_list_le_iff {α : Type} {f : α → Tree} {xs : List α} :
    (list f xs).depth ≤ d + 1 ↔ ∀ x ∈ xs, (f x).depth ≤ d := by
  unfold list
  simp

@[simp] theorem depth_mapping_le_iff {κ α : Type} [LinearOrder κ] {key : κ → String}
    {f : α → Tree} {m : SortedMap κ α} :
    (mapping key f m).depth ≤ d + 1 ↔ ∀ p ∈ m.entries, (f p.2).depth ≤ d := by
  unfold mapping
  rw [Json.depth_object_le_iff, List.forall_mem_map]

@[simp] theorem depth_valueType (t : ValueType) : (ofValueType t).depth = 0 := by
  cases t <;> rfl

theorem depth_option_le {α : Type} {f : α → Tree} (h : ∀ a, (f a).depth ≤ d) (o : Option α) :
    (option f o).depth ≤ d := by
  cases o with
  | none => exact Nat.zero_le d
  | some a => exact h a

/-! ## Values and formulas -/

theorem depth_ofKind (k : ValueErrorKind) : (ofKind k).depth ≤ 1 := by
  cases k <;> simp [ofKind]

theorem depth_ofError (e : ValueError) : (ofError e).depth ≤ 2 := by
  have hkind := depth_ofKind e.kind
  have hsource : (option (fun m : MeasureId => nat m.id) e.sourceMeasure).depth ≤ 1 :=
    depth_option_le (fun m => Nat.zero_le 1) _
  simp [ofError, hkind, hsource]

theorem depth_ofValue (v : Value) : (ofValue date v).depth ≤ 3 := by
  cases v with
  | error e => simpa [ofValue] using depth_ofError e
  | _ => simp [ofValue]

theorem depth_ofCategories (cs : List CategoryId) : (ofCategories cs).depth ≤ 1 := by
  simp [ofCategories]

theorem depth_ofSpec (s : DimensionSpec) : (ofSpec s).depth ≤ 2 := by
  simp [ofSpec, depth_ofCategories]

theorem mem_ofExprs {args : List Expr} {t : Tree} :
    t ∈ ofExpr.ofExprs date args ↔ ∃ a ∈ args, ofExpr date a = t := by
  induction args with
  | nil => simp [ofExpr.ofExprs]
  | cons a as ih => simp [ofExpr.ofExprs, ih, eq_comm]

/-- A level of a formula takes at most three of the text, a leaf four. -/
theorem depth_ofExpr_le (e : Expr) {k D : Nat} (h : 3 * e.depthFrom k + 4 ≤ D + 3 * k) :
    (ofExpr date e).depth ≤ D := by
  induction e generalizing k D with
  | literal v =>
      rw [Expr.depthFrom] at h
      have hdepth : (ofExpr date (.literal v)).depth ≤ 4 := by
        simpa [ofExpr] using depth_ofValue date v
      omega
  | ref m spec =>
      rw [Expr.depthFrom] at h
      have hdepth : (ofExpr date (.ref m spec)).depth ≤ 4 := by
        simpa [ofExpr] using (depth_ofSpec spec).trans (by decide : 2 ≤ 2)
      omega
  | category c =>
      rw [Expr.depthFrom] at h
      have hdepth : (ofExpr date (.category c)).depth ≤ 1 := by simp [ofExpr]
      omega
  | unaryOp op a iha =>
      rw [Expr.depthFrom] at h
      have hbelow := a.le_depthFrom (k + 1)
      obtain ⟨D, rfl⟩ : ∃ D', D = D' + 3 := ⟨D - 3, by omega⟩
      have ha := @iha (k + 1) D (by omega)
      have hdepth : (ofExpr date (.unaryOp op a)).depth ≤ D + 1 + 1 := by
        simp only [ofExpr, depth_variant_le_iff, Json.depth_array_le_iff]
        simp [ha]
      omega
  | binaryOp op a b iha ihb =>
      rw [Expr.depthFrom] at h
      have hbelow := a.le_depthFrom (k + 1)
      obtain ⟨D, rfl⟩ : ∃ D', D = D' + 3 := ⟨D - 3, by omega⟩
      have ha := @iha (k + 1) D (by omega)
      have hb := @ihb (k + 1) D (by omega)
      have hdepth : (ofExpr date (.binaryOp op a b)).depth ≤ D + 1 + 1 := by
        simp only [ofExpr, depth_variant_le_iff, Json.depth_array_le_iff]
        simp [ha, hb]
      omega
  | call f args ih =>
      rw [Expr.depthFrom] at h
      obtain ⟨D, rfl⟩ : ∃ D', D = D' + 3 := ⟨D - 3, by omega⟩
      have hargs : ∀ a ∈ args, (ofExpr date a).depth ≤ D := fun a ha => by
        have hle := Expr.depthFrom_le_depthOf ha (k + 1 + Expr.lazyLevels f args.length)
        exact ih a ha (k := k + 1 + Expr.lazyLevels f args.length) (by omega)
      simp only [ofExpr, depth_variant_le_iff, Json.depth_array_le_iff, List.mem_cons,
        List.not_mem_nil, or_false, forall_eq_or_imp, forall_eq, depth_nat, Nat.zero_le, true_and]
      intro t ht
      obtain ⟨a, ha, rfl⟩ := (mem_ofExprs date).mp ht
      exact hargs a ha

/-- A formula's text nests at most as deep as its `checkDepth` allows. -/
theorem depth_ofExpr_of_checkDepth {e : Expr}
    (h : e.checkDepth Expr.maxStoredFormulaDepth = .ok ()) :
    (ofExpr date e).depth ≤ 3 * Expr.maxStoredFormulaDepth + 1 := by
  have hdepth := ((e.checkDepth_eq_ok_iff _).mp h).2
  unfold Expr.depth at hdepth
  exact depth_ofExpr_le date e (k := 1) (by omega)
/-! ## Models -/

theorem depth_ofNumberFormat (f : NumberFormat) : (ofNumberFormat f).depth ≤ 1 := by
  have hdecimals : (option nat f.decimals).depth ≤ 0 :=
    depth_option_le (fun n => (depth_nat n).le) _
  simpa [ofNumberFormat] using hdecimals

theorem depth_ofMeasure {m : Measure}
    (h : ∀ f, m.kind = .derived f → (ofExpr date f.expr).depth ≤ d) :
    (ofMeasure date m).depth ≤ d + 3 := by
  have hkind : (ofMeasureKind date m.kind).depth ≤ d + 2 := by
    cases hk : m.kind with
    | input => exact Nat.zero_le _
    | derived f => simpa [ofMeasureKind, ofFormula] using h f hk
  have hcategories := (depth_ofCategories m.categories).trans (Nat.le_add_left 1 (d + 1))
  have hdescription : (option Json.string m.description : Tree).depth ≤ d + 2 :=
    depth_option_le (fun s => Nat.zero_le _) _
  have hformat : ∀ f ∈ (m.format.map fun f => ("format", ofNumberFormat f)).toList,
      f.2.depth ≤ d + 2 := fun f hf => by
    rw [Option.mem_toList, Option.map_eq_some_iff] at hf
    obtain ⟨format, -, rfl⟩ := hf
    exact (depth_ofNumberFormat format).trans (by omega)
  unfold ofMeasure
  rw [Json.depth_object_le_iff, List.forall_mem_append]
  refine ⟨?_, hformat⟩
  simp [hkind, hcategories, hdescription]

theorem depth_ofLambda {l : NamedLambda} (h : (ofExpr date l.body).depth ≤ d + 1) :
    (ofLambda date l).depth ≤ d + 2 := by
  simp [ofLambda, h]

theorem depth_ofCategory (c : Category) : (ofCategory c).depth ≤ 2 := by
  simp [ofCategory]

theorem depth_ofItem (i : Item) : (ofItem i).depth ≤ 1 := by
  simp [ofItem]

theorem depth_ofCoordinate (c : Coordinate) : (ofCoordinate c).depth ≤ 2 := by
  simp [ofCoordinate]

theorem depth_ofInputs (inputs : SortedMap Cell Value) : (ofInputs date inputs).depth ≤ 5 := by
  unfold ofInputs
  rw [depth_list_le_iff]
  intro p _
  have hvalue := depth_ofValue date p.2
  simp [depth_ofCoordinate, hvalue]

theorem depth_ofRefreshPolicy (p : RefreshPolicy) : (ofRefreshPolicy p).depth ≤ 2 := by
  cases p <;> simp [ofRefreshPolicy]

theorem depth_ofSqlSource (s : SqlSource) : (ofSqlSource s).depth ≤ 3 := by
  simp [ofSqlSource, depth_ofRefreshPolicy]

theorem depth_ofMatrix (p : MatrixPlacement) : ∀ f ∈ ofMatrix p, f.2.depth ≤ 3 := by
  have hcategories := (depth_ofCategories p.axisOrder).trans (by decide : 1 ≤ 3)
  simp [ofMatrix, hcategories, ofFilter, ofRect]

theorem depth_ofView (v : View) : (ofView v).depth ≤ 6 := by
  have hprimary : ∀ f ∈ ofMatrix v.primary, f.2.depth ≤ 5 := fun f hf =>
    (depth_ofMatrix v.primary f hf).trans (by decide)
  have hplacement : ∀ p ∈ v.placements, ∀ f ∈ ofMatrix p, f.2.depth ≤ 3 := fun p _ =>
    depth_ofMatrix p
  unfold ofView
  rw [Json.depth_object_le_iff, List.forall_mem_append, List.forall_mem_append]
  refine ⟨⟨?_, hprimary⟩, ?_⟩
  · simp
  · simp only [List.forall_mem_singleton, depth_list_le_iff, Json.depth_object_le_iff]
    exact hplacement

theorem depth_ofExternalFn (f : ExternalFn) : (ofExternalFn f).depth ≤ 2 := by
  have hlanguage : (ofLanguage f.language).depth = 0 := by cases f.language <;> rfl
  simp [ofExternalFn, hlanguage]

theorem depth_ofExternalCall (c : ExternalCall) : (ofExternalCall c).depth ≤ 3 := by
  simp [ofExternalCall, depth_ofRefreshPolicy]

theorem depth_ofScenario (s : Scenario) : (ofScenario date s).depth ≤ 6 := by
  simp [ofScenario, depth_ofInputs]

theorem depth_unlessEmpty_le {κ α : Type} [LinearOrder κ] {name : String} {key : κ → String}
    {f : α → Tree} {m : SortedMap κ α} (h : ∀ p ∈ m.entries, (f p.2).depth ≤ d) :
    ∀ x ∈ unlessEmpty name key f m, x.2.depth ≤ d + 1 := by
  unfold unlessEmpty
  split_ifs
  · exact fun x hx => absurd hx List.not_mem_nil
  · rw [List.forall_mem_singleton]
    exact depth_mapping_le_iff.mpr h

/-- A model whose formulas and lambdas nest `d + 1` levels nests five more. -/
theorem depth_ofModel {m : Model} (hd : 2 ≤ d)
    (hmeasures : ∀ p ∈ m.measures.entries, ∀ f, p.2.kind = .derived f →
      (ofExpr date f.expr).depth ≤ d + 1)
    (hlambdas : ∀ p ∈ m.lambdas.entries, (ofExpr date p.2.body).depth ≤ d + 1) :
    (ofModel date m).depth ≤ d + 6 := by
  unfold ofModel
  simp only [Json.depth_object_le_iff, List.forall_mem_append]
  refine ⟨⟨⟨⟨⟨⟨?_, ?_⟩, ?_⟩, ?_⟩, ?_⟩, ?_⟩, ?_⟩
  · have hinputs := (depth_ofInputs date m.inputs).trans (by omega : 5 ≤ d + 5)
    simp only [List.forall_mem_cons, depth_mapping_le_iff]
    exact ⟨fun p _ => (depth_ofCategory p.2).trans (by omega),
      fun p _ => (depth_ofItem p.2).trans (by omega),
      fun p hp => depth_ofMeasure date (hmeasures p hp), hinputs,
      fun x hx => absurd hx List.not_mem_nil⟩
  · exact depth_unlessEmpty_le fun p _ => (depth_ofSqlSource p.2).trans (by omega)
  · exact depth_unlessEmpty_le fun p _ => (depth_ofView p.2).trans (by omega)
  · exact depth_unlessEmpty_le fun p _ => (depth_ofExternalFn p.2).trans (by omega)
  · exact depth_unlessEmpty_le fun p _ => (depth_ofExternalCall p.2).trans (by omega)
  · exact depth_unlessEmpty_le fun p _ => (depth_ofScenario date p.2).trans (by omega)
  · exact depth_unlessEmpty_le fun p hp =>
      (depth_ofLambda date (hlambdas p hp)).trans (by omega)

end Serialized

end Improv.CoreModel
