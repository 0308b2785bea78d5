import Improv.CoreModel.Functions
import Improv.Policy.Lint
/-!
# What the lint tells

A formula reads what its text names and what the bodies of the named lambdas it
calls name, and it may total a category anywhere in its text.  The lint tells
all of it exactly where the formulas as stored lead to what a principal may not
see, and no readable measure keeps a category it also totals.
-/

namespace Improv.Policy

open Improv.Lib Improv.CoreModel Improv.Service Relation

/-! ## Totals in a formula -/

/-- The clauses of an aggregation, which are no arguments of it. -/
def isClause : Expr → Bool
  | .call f _ => f = Functions.INTO || f = Functions.WHERE || f = Functions.WINDOW
  | _ => false

/-- The measures an aggregation reduces, with the categories of their `OVER`. -/
def reducedRefs (registry : Registry) (f : FuncId) (args : List Expr) :
    List (MeasureId × List CategoryId) :=
  match registry.byId f with
  | none => []
  | some d =>
    let rest := args.filter fun a => !isClause a
    (rest.zipIdx.filter fun p => d.reduced p.2 p.1).filterMap fun p =>
      match p.1 with
      | .ref x spec => some (x, spec.overCats)
      | _ => none

/-- The functions that fold a measure along one category. -/
def isFold (f : FuncId) : Bool := f.id = 911 || f.id = 912

/-- The measure a fold runs through, and its category. -/
def foldedRefs : List Expr → List (MeasureId × List CategoryId)
  | [_, .ref x spec, _] => if spec.overCats.length = 1 then [(x, spec.overCats)] else []
  | _ => []

/-- The measures one call totals, each over the categories of its `OVER`. -/
def callTotals (registry : Registry) (f : FuncId) (args : List Expr) :
    List (MeasureId × List CategoryId) :=
  if registry.isAggregation f then reducedRefs registry f args
  else if isFold f then foldedRefs args
  else []

/-- The measures an expression totals, at any depth of its tree. -/
def totalsIn (registry : Registry) : Expr → List (MeasureId × List CategoryId)
  | .literal _ | .category _ | .ref .. => []
  | .unaryOp _ a => totalsIn registry a
  | .binaryOp _ a b => totalsIn registry a ++ totalsIn registry b
  | .call f args => callTotals registry f args ++ totalsOf args
where
  totalsOf : List Expr → List (MeasureId × List CategoryId)
    | [] => []
    | a :: as => totalsIn registry a ++ totalsOf as

/-! ## What formulas read and total -/

section Reading

variable (registry : Registry) (model : Model)

/-- A formula with the lambdas it calls expanded; one that does not expand is
as it stands. -/
def expanded (f : Formula) : Expr :=
  match expandLambdas model.lambdas f.expr with
  | .ok e => e
  | .error _ => f.expr

/-- The formula of `a`, if it is a derived measure. -/
def formulaOf (a : MeasureId) : Option Formula :=
  (model.measures.get? a).bind fun x =>
    match x.kind with
    | .input => none
    | .derived f => some f

/-- Derived measure `a` reads `b`. -/
def Reads (a b : MeasureId) : Prop :=
  ∃ f, formulaOf model a = some f ∧ b ∈ (expanded model f).referencedMeasures

/-- The measure `x` ranges over the category. -/
def RangesOver (x : MeasureId) (c : CategoryId) : Prop :=
  ∃ y, model.measures.get? x = some y ∧ c ∈ y.categories

/-- The formula of `p` aggregates over the category. -/
def Totals (p : MeasureId) (c : CategoryId) : Prop :=
  ∃ f x cats, formulaOf model p = some f ∧ (x, cats) ∈ totalsIn registry (expanded model f) ∧
    c ∈ cats ∧ RangesOver model x c

end Reading

/-- The session of a principal whom the policies answer so. -/
def sessionOf (model : Model) (answers : Option (Action → Resource → Bool)) : Session :=
  ⟨Structure.of model, answers⟩

/-! ## What the lint should tell, and when it does -/

section Telling

variable (registry : Registry) (model : Model) (s : Session)

/-- A measure of the model that the principal may not see. -/
def Hidden (h : MeasureId) : Prop :=
  model.measures.contains h = true ∧ s.measureVisible h = false

/-- A derived measure the principal may see. -/
def Readable (m : MeasureId) : Prop :=
  (formulaOf model m).isSome = true ∧ s.measureVisible m = true

/-- The lint misses nothing: of every hidden measure read along a path from a
readable one, some readable measure on that path is told; and a readable
measure under which a category with hidden items is totalled is told of it, with
all of them. -/
structure MissesNothing : Prop where
  measures : ∀ m via h, (m :: via ++ [h]).IsChain (Reads model) → Readable model s m →
    Hidden model s h → ∃ v ∈ m :: via, s.measureVisible v = true ∧ (v, .measure h) ∈ s.lint
  totals : ∀ m p c, Readable model s m → ReflTransGen (Reads model) m p →
    Totals registry model p c → model.categories.contains c = true → s.hiddenItems c ≠ [] →
    (m, .items c (s.hiddenItems c)) ∈ s.lint

/-- `a` reads the hidden `b`. -/
def ReadsHidden (a b : MeasureId) : Prop := Reads model a b ∧ s.measureVisible b = false

/-- Whatever hidden measure a readable one reads through hidden measures, the
formulas as stored lead to. -/
def StoredLeadToHidden : Prop :=
  ∀ m h, Readable model s m → Hidden model s h → TransGen (ReadsHidden model s) m h →
    TransGen s.NamesHidden m h

/-- A readable measure under which a category with hidden items is totalled
lacks the category, and the formulas as stored lead it to an input that has it. -/
def TotalsLeaveCategory : Prop :=
  ∀ m x p c, model.measures.get? m = some x → Readable model s m →
    ReflTransGen (Reads model) m p → Totals registry model p c →
    model.categories.contains c = true → s.hiddenItems c ≠ [] →
    c ∉ x.categories ∧ s.NamesInputOver m c

end Telling

/-! ## The structure of a model -/

section Shapes

variable {model : Model} {answers : Option (Action → Resource → Bool)}

theorem get?_shape (m : MeasureId) :
    (sessionOf model answers).shape.measures.get? m = (model.measures.get? m).map shapeOf := by
  simp [sessionOf, Structure.of, SortedMap.get?_map]

theorem contains_shape_categories (c : CategoryId) :
    (sessionOf model answers).shape.categories.contains c = model.categories.contains c := by
  simp [sessionOf, Structure.of, SortedMap.contains_map]

/-- A measure with a formula is a derived measure of the model. -/
theorem formulaOf_eq_some {m : MeasureId} {f : Formula} (h : formulaOf model m = some f) :
    ∃ x, model.measures.get? m = some x ∧ x.kind = .derived f := by
  obtain ⟨x, hx, hkind⟩ := Option.bind_eq_some_iff.mp h
  refine ⟨x, hx, ?_⟩
  split at hkind <;> simp_all

theorem not_input_of_readable {s : Session} {m : MeasureId} (h : Readable model s m) :
    ∃ x, model.measures.get? m = some x ∧ (shapeOf x).input = false := by
  obtain ⟨f, hf⟩ := Option.isSome_iff_exists.mp h.1
  obtain ⟨x, hx, hkind⟩ := formulaOf_eq_some hf
  exact ⟨x, hx, by simp [shapeOf, Measure.isInput, hkind]⟩

/-! ## Paths to a hidden measure -/

variable {s : Session}

/-- Along a path to a hidden measure, some visible measure reads it through
hidden measures only, or the start does. -/
theorem exists_last_visible {h : MeasureId} (hhidden : s.measureVisible h = false)
    {m : MeasureId} {via : List MeasureId} (hchain : (m :: via ++ [h]).IsChain (Reads model)) :
    TransGen (ReadsHidden model s) m h ∨
      ∃ v ∈ via, s.measureVisible v = true ∧ TransGen (ReadsHidden model s) v h := by
  induction via generalizing m with
  | nil =>
      have hread : Reads model m h := by simpa using hchain
      exact .inl (.single ⟨hread, hhidden⟩)
  | cons b via ih =>
      simp only [List.cons_append, List.isChain_cons_cons] at hchain
      obtain ⟨hread, hrest⟩ := hchain
      rcases ih (by simpa using hrest) with hb | ⟨v, hv, hvis, hpath⟩
      · by_cases hvis : s.measureVisible b = true
        · exact .inr ⟨b, List.mem_cons_self, hvis, hb⟩
        · exact .inl (.head ⟨hread, by simpa using hvis⟩ hb)
      · exact .inr ⟨v, List.mem_cons_of_mem b hv, hvis, hpath⟩

/-- What reads a hidden measure through hidden measures does so along a path of
hidden ones. -/
theorem exists_hidden_chain {m h : MeasureId} (hpath : TransGen (ReadsHidden model s) m h) :
    ∃ via, (m :: via ++ [h]).IsChain (Reads model) ∧ ∀ v ∈ via, s.measureVisible v = false := by
  induction hpath using TransGen.head_induction_on with
  | single hread => exact ⟨[], by simpa using hread.1, by simp⟩
  | @head a b hread _ ih =>
      obtain ⟨via, hchain, hvia⟩ := ih
      refine ⟨b :: via, ?_, by simpa using ⟨hread.2, hvia⟩⟩
      simp only [List.cons_append, List.isChain_cons_cons]
      exact ⟨hread.1, by simpa using hchain⟩

theorem isSome_of_transGen {m h : MeasureId} (hpath : TransGen (ReadsHidden model s) m h) :
    (formulaOf model m).isSome = true := by
  obtain ⟨b, ⟨⟨f, hf, -⟩, -⟩, -⟩ := TransGen.head'_iff.mp hpath
  simp [hf]

/-! ## The two kinds of findings -/

theorem mem_lint_measure_iff {m h : MeasureId}
    (hm : Readable model (sessionOf model answers) m) :
    (m, .measure h) ∈ (sessionOf model answers).lint ↔
      TransGen (sessionOf model answers).NamesHidden m h := by
  obtain ⟨x, hx, hinput⟩ := not_input_of_readable hm
  rw [Session.mem_lint_measure]
  constructor
  · rintro ⟨-, -, -, -, hpath⟩
    exact hpath
  · intro hpath
    exact ⟨shapeOf x, by rw [get?_shape, hx]; rfl, hinput, hm.2, hpath⟩

theorem mem_lint_items_iff {m : MeasureId} {x : Measure} {c : CategoryId}
    (hm : Readable model (sessionOf model answers) m) (hx : model.measures.get? m = some x)
    (hc : model.categories.contains c = true)
    (hitems : (sessionOf model answers).hiddenItems c ≠ []) :
    (m, .items c ((sessionOf model answers).hiddenItems c)) ∈ (sessionOf model answers).lint ↔
      c ∉ x.categories ∧ (sessionOf model answers).NamesInputOver m c := by
  obtain ⟨y, hy, hinput⟩ := not_input_of_readable hm
  obtain rfl : x = y := Option.some.inj (hx.symm.trans hy)
  have hshape : (sessionOf model answers).shape.measures.get? m = some (shapeOf x) := by
    rw [get?_shape, hx]
    rfl
  rw [Session.mem_lint_items]
  constructor
  · rintro ⟨z, hz, -, -, -, -, -, hnot, hover⟩
    obtain rfl : z = shapeOf x := Option.some.inj (hz.symm.trans hshape)
    exact ⟨hnot, hover⟩
  · intro ⟨hnot, hover⟩
    exact ⟨shapeOf x, hshape, rfl, hitems, hinput, hm.2, by rwa [contains_shape_categories],
      hnot, hover⟩

theorem tells_measures_iff :
    (∀ m via h, (m :: via ++ [h]).IsChain (Reads model) →
      Readable model (sessionOf model answers) m → Hidden model (sessionOf model answers) h →
      ∃ v ∈ m :: via, (sessionOf model answers).measureVisible v = true ∧
        (v, .measure h) ∈ (sessionOf model answers).lint) ↔
      StoredLeadToHidden model (sessionOf model answers) := by
  constructor
  · intro htells m h hm hh hpath
    obtain ⟨via, hchain, hvia⟩ := exists_hidden_chain hpath
    obtain ⟨v, hv, hvis, hfinding⟩ := htells m via h hchain hm hh
    rcases List.mem_cons.mp hv with rfl | hv
    · exact (mem_lint_measure_iff hm).mp hfinding
    · have hnot := hvia v hv
      rw [hvis] at hnot
      exact absurd hnot (by simp)
  · intro hstored m via h hchain hm hh
    have tell : ∀ v, (sessionOf model answers).measureVisible v = true →
        TransGen (ReadsHidden model (sessionOf model answers)) v h →
        (v, .measure h) ∈ (sessionOf model answers).lint := by
      intro v hvis hpath
      have hv : Readable model (sessionOf model answers) v := ⟨isSome_of_transGen hpath, hvis⟩
      exact (mem_lint_measure_iff hv).mpr (hstored v h hv hh hpath)
    rcases exists_last_visible hh.2 hchain with hpath | ⟨v, hv, hvis, hpath⟩
    · exact ⟨m, List.mem_cons_self, hm.2, tell m hm.2 hpath⟩
    · exact ⟨v, List.mem_cons_of_mem m hv, hvis, tell v hvis hpath⟩

theorem tells_totals_iff {registry : Registry} :
    (∀ m p c, Readable model (sessionOf model answers) m → ReflTransGen (Reads model) m p →
      Totals registry model p c → model.categories.contains c = true →
      (sessionOf model answers).hiddenItems c ≠ [] →
      (m, .items c ((sessionOf model answers).hiddenItems c)) ∈
        (sessionOf model answers).lint) ↔
      TotalsLeaveCategory registry model (sessionOf model answers) := by
  constructor
  · intro htells m x p c hx hm hpath htotals hc hitems
    exact (mem_lint_items_iff hm hx hc hitems).mp (htells m p c hm hpath htotals hc hitems)
  · intro hleave m p c hm hpath htotals hc hitems
    obtain ⟨x, hx, -⟩ := not_input_of_readable hm
    exact (mem_lint_items_iff hm hx hc hitems).mpr
      (hleave m x p c hx hm hpath htotals hc hitems)

end Shapes

/-! ## A share of a total -/

/-- Sales by product and each product's sales less their total. -/
def shareModel : Model where
  categories := .ofList [(⟨1⟩, ⟨⟨1⟩, "Product", [⟨10⟩, ⟨11⟩]⟩)]
  items := .ofList [(⟨10⟩, ⟨⟨10⟩, ⟨1⟩, "Falcon"⟩), (⟨11⟩, ⟨⟨11⟩, ⟨1⟩, "Kite"⟩)]
  measures := .ofList
    [(⟨100⟩, ⟨⟨100⟩, "Sales", .number, [⟨1⟩], .input, none, none⟩),
      (⟨101⟩, ⟨⟨101⟩, "Rest", .number, [⟨1⟩], .derived ⟨shareFormula⟩, none, none⟩)]
  inputs := .empty
  sqlSources := .empty
  views := .empty
  externalFns := .empty
  externalCalls := .empty
  scenarios := .empty
  lambdas := .empty
where
  shareFormula : Expr :=
    .binaryOp .sub (.call ⟨1⟩ [.ref ⟨100⟩ ⟨[], [⟨1⟩], []⟩]) (.ref ⟨100⟩ .default)

def sumOnly : Registry where
  all := [⟨⟨1⟩, "SUM", ["DSUM"], .aggregate, .aggregation, [.number], 1, false,
    .fixed .number, .at [0]⟩]

/-- Everything may be read but one product. -/
def butFalcon (action : Action) (r : Resource) : Bool :=
  !(decide (action = .readItem) && decide (r = .item ⟨10⟩))

end Improv.Policy
