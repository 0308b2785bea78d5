import Improv.CoreModel.LambdaFaults
import Improv.CoreModel.Model
/-!
# What a formula reads

The measures an expression refers to anywhere in it, and those its named
lambdas' bodies refer to.  A named lambda reads only its parameters, so what a
formula reads is what it refers to itself.
-/

namespace Improv.CoreModel

open Improv.Lib Functions

/-- The measure `m` stands somewhere in an expression. -/
inductive Expr.Refers (m : MeasureId) : Expr → Prop
  | ref {spec : DimensionSpec} : Refers m (.ref m spec)
  | operand {op : UnaryOp} {a : Expr} : Refers m a → Refers m (.unaryOp op a)
  | left {op : BinaryOp} {a b : Expr} : Refers m a → Refers m (.binaryOp op a b)
  | right {op : BinaryOp} {a b : Expr} : Refers m b → Refers m (.binaryOp op a b)
  | arg {f : FuncId} {args : List Expr} {a : Expr} : a ∈ args → Refers m a →
      Refers m (.call f args)

namespace Expr

@[simp] theorem collectRefs_eq (args : List Expr) :
    referencedMeasures.collectRefs args = args.flatMap referencedMeasures := by
  induction args with
  | nil => rfl
  | cons a as ih => rw [referencedMeasures.collectRefs, ih, List.flatMap_cons]

/-- The traversal finds every reference. -/
theorem mem_referencedMeasures {m : MeasureId} {e : Expr} :
    m ∈ e.referencedMeasures ↔ e.Refers m := by
  constructor
  · intro h
    induction e with
    | literal v => exact absurd h List.not_mem_nil
    | category c => exact absurd h List.not_mem_nil
    | ref n spec =>
        rw [referencedMeasures, List.mem_singleton] at h
        exact h ▸ .ref
    | unaryOp op a iha => exact .operand (iha h)
    | binaryOp op a b iha ihb =>
        rw [referencedMeasures, List.mem_append] at h
        exact h.elim (fun h => .left (iha h)) fun h => .right (ihb h)
    | call f args ih =>
        rw [referencedMeasures, collectRefs_eq, List.mem_flatMap] at h
        obtain ⟨a, ha, hm⟩ := h
        exact .arg ha (ih a ha hm)
  · intro h
    induction h with
    | ref => exact List.mem_singleton.mpr rfl
    | operand _ ih => exact ih
    | left _ ih => exact List.mem_append_left _ ih
    | right _ ih => exact List.mem_append_right _ ih
    | arg ha _ ih =>
        rw [referencedMeasures, collectRefs_eq, List.mem_flatMap]
        exact ⟨_, ha, ih⟩

end Expr

/-- A formula reads `m`: it refers to it, or reaches a named lambda whose body
refers to it otherwise than as a parameter. -/
inductive Reads (lambdas : Lambdas) (e : Expr) (m : MeasureId) : Prop
  | here : e.Refers m → Reads lambdas e m
  | through {id n : Nat} {l : NamedLambda} : Reaches lambdas e (id, n) →
      lambdas.get? id = some l → l.body.Refers m → lambdaParamOf m = none → Reads lambdas e m

/-- Every named lambda reads only its parameters. -/
def Lambdas.ReadParams (lambdas : Lambdas) : Prop :=
  ∀ id l, lambdas.get? id = some l → ∀ m, l.body.Refers m → (lambdaParamOf m).isSome

theorem Lambdas.ReadParams.reads_iff {lambdas : Lambdas} (h : lambdas.ReadParams) {e : Expr}
    {m : MeasureId} : Reads lambdas e m ↔ e.Refers m := by
  constructor
  · intro hreads
    cases hreads with
    | here hrefers => exact hrefers
    | through _ hl hbody hparam =>
        have hsome := h _ _ hl m hbody
        rw [hparam] at hsome
        cases hsome
  · exact .here

/-- The formula of a measure, if it is derived. -/
def Measure.formula (x : Measure) : Option Formula :=
  match x.kind with
  | .derived f => some f
  | .input => none

namespace Model

/-- The formula of a derived measure. -/
def derivedFormula (model : Model) (m : MeasureId) : Option Formula :=
  (model.measures.get? m).bind Measure.formula

/-- The derived measures with their formulas, in some order. -/
structure Enumerates (model : Model) (derived : List (MeasureId × Formula)) : Prop where
  nodup : (derived.map Prod.fst).Nodup
  mem_iff : ∀ m f, (m, f) ∈ derived ↔ model.derivedFormula m = some f

/-- The derived measures by id. -/
def derivedEntries (model : Model) : List (MeasureId × Formula) :=
  model.measures.entries.filterMap fun p => p.2.formula.map (p.1, ·)

theorem enumerates_derivedEntries (model : Model) : model.Enumerates model.derivedEntries where
  nodup := by
    have hsub : (model.derivedEntries.map Prod.fst).Sublist model.measures.keys := by
      unfold derivedEntries SortedMap.keys
      induction model.measures.entries with
      | nil => exact List.Sublist.slnil
      | cons p entries ih =>
          cases hp : p.2.formula with
          | none =>
              rw [List.filterMap_cons_none (by rw [hp]; rfl)]
              exact .cons _ ih
          | some f =>
              rw [List.filterMap_cons_some (by rw [hp]; rfl)]
              exact .cons_cons _ ih
    exact hsub.nodup model.measures.nodup_keys
  mem_iff m f := by
    unfold derivedEntries derivedFormula
    rw [List.mem_filterMap, Option.bind_eq_some_iff]
    constructor
    · rintro ⟨⟨id, x⟩, hmem, heq⟩
      obtain ⟨f', hf, hpair⟩ := Option.map_eq_some_iff.mp heq
      cases hpair
      exact ⟨x, SortedMap.get?_eq_some_iff.mpr hmem, hf⟩
    · rintro ⟨x, hget, hf⟩
      exact ⟨(m, x), SortedMap.get?_eq_some_iff.mp hget, Option.map_eq_some_iff.mpr ⟨f, hf, rfl⟩⟩

/-- The derived measure `m` reads the derived measure `d`, another one. -/
def DependsOn (model : Model) (m d : MeasureId) : Prop :=
  d ≠ m ∧ (model.derivedFormula d).isSome ∧
    ∃ f, model.derivedFormula m = some f ∧ Reads model.lambdas f.expr d

end Model

end Improv.CoreModel
