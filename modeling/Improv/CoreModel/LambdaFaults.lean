import Improv.CoreModel.LambdaExpansion
/-!
# When an expansion fails

The causes of a failed expansion, each one visible in the call graph or in the
arguments of a reached call: a cycle, an unknown lambda, a wrong number of
arguments, an argument of the wrong kind, or a tree past the limits.
-/

namespace Improv.CoreModel

open Improv.Lib Functions

variable {lambdas : Lambdas}

/-! ## What a call can reach -/

/-- A call, by lambda id and number of arguments, that expanding `e` reaches:
one in `e` itself or in the body of a reached lambda. -/
inductive Reaches (lambdas : Lambdas) (e : Expr) : Nat × Nat → Prop
  | direct {c} : c ∈ e.lambdaCalls → Reaches lambdas e c
  | through {id n l c} : Reaches lambdas e (id, n) → lambdas.get? id = some l →
      c ∈ l.body.lambdaCalls → Reaches lambdas e c

/-- The body of lambda `i` calls lambda `j`. -/
def CallsLambda (lambdas : Lambdas) (i j : Nat) : Prop :=
  ∃ l n, lambdas.get? i = some l ∧ (j, n) ∈ l.body.lambdaCalls

/-- A call of lambda `id` with the expanded arguments `args` that arises while
`e` is expanded. -/
inductive Arises (lambdas : Lambdas) : Expr → Nat → List Expr → Prop
  | unary {op a id args} : Arises lambdas a id args → Arises lambdas (.unaryOp op a) id args
  | left {op a b id args} : Arises lambdas a id args →
      Arises lambdas (.binaryOp op a b) id args
  | right {op a b id args} : Arises lambdas b id args →
      Arises lambdas (.binaryOp op a b) id args
  | arg {f as a id args} : a ∈ as → Arises lambdas a id args →
      Arises lambdas (.call f as) id args
  | here {f as id args} : namedLambdaOf f = some id →
      List.Forall₂ (Interpretation.terms.Means lambdas) as args →
      Arises lambdas (.call f as) id args
  | inside {f as id' args' l body id args} : namedLambdaOf f = some id' →
      List.Forall₂ (Interpretation.terms.Means lambdas) as args' →
      lambdas.get? id' = some l → substituteParams args' l.body = .ok body →
      Arises lambdas body id args → Arises lambdas (.call f as) id args

def ReachesCycle (lambdas : Lambdas) (e : Expr) : Prop :=
  ∃ c, Reaches lambdas e c ∧ Relation.TransGen (CallsLambda lambdas) c.1 c.1

def ReachesUnknown (lambdas : Lambdas) (e : Expr) : Prop :=
  ∃ c, Reaches lambdas e c ∧ lambdas.get? c.1 = none

def ReachesArgumentCount (lambdas : Lambdas) (e : Expr) : Prop :=
  ∃ c l, Reaches lambdas e c ∧ lambdas.get? c.1 = some l ∧ l.params.length ≠ c.2

/-- Every category an expression names, in projections and as an argument. -/
def Expr.categoriesUsed : Expr → List CategoryId
  | .literal _ => []
  | .ref _ spec => spec.byCats ++ spec.overCats ++ spec.exceptCats
  | .unaryOp _ a => a.categoriesUsed
  | .binaryOp _ a b => a.categoriesUsed ++ b.categoriesUsed
  | .call _ args => usedIn args
  | .category c => [c]
where
  usedIn : List Expr → List CategoryId
    | [] => []
    | a :: as => a.categoriesUsed ++ usedIn as

/-- Every measure an expression references under a projection. -/
def Expr.projectedRefs : Expr → List MeasureId
  | .literal _ | .category _ => []
  | .ref m spec => if spec = .default then [] else [m]
  | .unaryOp _ a => a.projectedRefs
  | .binaryOp _ a b => a.projectedRefs ++ b.projectedRefs
  | .call _ args => projectedIn args
where
  projectedIn : List Expr → List MeasureId
    | [] => []
    | a :: as => a.projectedRefs ++ projectedIn as

/-- The arguments are what `body` uses its parameters as: a category where it
names one, a measure reference where it projects one. -/
structure RightKinds (args : List Expr) (body : Expr) : Prop where
  categories : ∀ c ∈ body.categoriesUsed, ∀ i, lambdaCategoryOf c = some i →
    ∃ a, args[i]? = some (.category a)
  refs : ∀ m ∈ body.projectedRefs, ∀ i, lambdaParamOf m = some i → ∀ a, args[i]? = some a →
    ∃ m' spec, a = .ref m' spec

def ReachesArgumentKind (lambdas : Lambdas) (e : Expr) : Prop :=
  ∃ id args l, Arises lambdas e id args ∧ lambdas.get? id = some l ∧
    ¬ RightKinds args l.body

/-- The limits a named-lambda expansion is held to. -/
def Expr.WithinLimits (e : Expr) : Prop :=
  e.nodes ≤ Expr.maxFormulaNodes ∧ e.depth ≤ Expr.maxStoredFormulaDepth

/-- A body with its arguments bound, or the whole expansion, is past the
limits. -/
def ReachesLimit (lambdas : Lambdas) (e : Expr) : Prop :=
  (∃ id args l body, Arises lambdas e id args ∧ lambdas.get? id = some l ∧
      substituteParams args l.body = .ok body ∧ ¬ body.WithinLimits) ∨
    ∃ e', Interpretation.terms.Means lambdas e e' ∧ ¬ e'.WithinLimits

/-! ## Binding fails exactly on arguments of the wrong kind -/

section RightKinds

variable {args : List Expr}

theorem paramCategory_ok_iff (c : CategoryId) :
    (∃ c', paramCategory args c = .ok c') ↔
      ∀ i, lambdaCategoryOf c = some i → ∃ a, args[i]? = some (.category a) := by
  unfold paramCategory
  cases lambdaCategoryOf c with
  | none => simp
  | some i =>
      simp only [Option.some.injEq, forall_eq']
      constructor
      · rintro ⟨c', h⟩
        split at h
        · next a ha => exact ⟨a, ha⟩
        · simp at h
      · rintro ⟨a, ha⟩
        exact ⟨a, by rw [ha]⟩

theorem paramCategories_ok_iff (cs : List CategoryId) :
    (∃ cs', paramCategories args cs = .ok cs') ↔
      ∀ c ∈ cs, ∃ c', paramCategory args c = .ok c' := by
  induction cs with
  | nil => simp [paramCategories]
  | cons c cs ih =>
      simp only [paramCategories, bind_eq_ok_iff, List.forall_mem_cons, ← ih]
      constructor
      · rintro ⟨_, c', hc, cs', hcs, -⟩
        exact ⟨⟨c', hc⟩, cs', hcs⟩
      · rintro ⟨⟨c', hc⟩, cs', hcs⟩
        exact ⟨c' :: cs', c', hc, cs', hcs, rfl⟩

theorem paramSpec_ok_iff (spec : DimensionSpec) :
    (∃ spec', paramSpec args spec = .ok spec') ↔
      ∀ c ∈ spec.byCats ++ spec.overCats ++ spec.exceptCats,
        ∃ c', paramCategory args c = .ok c' := by
  simp only [List.forall_mem_append, ← paramCategories_ok_iff, paramSpec, bind_eq_ok_iff]
  constructor
  · rintro ⟨_, b, hb, o, ho, x, hx, -⟩
    exact ⟨⟨⟨b, hb⟩, o, ho⟩, x, hx⟩
  · rintro ⟨⟨⟨b, hb⟩, o, ho⟩, x, hx⟩
    exact ⟨⟨b, o, x⟩, b, hb, o, ho, x, hx, rfl⟩

theorem paramCategories_eq_nil_iff {cs cs' : List CategoryId}
    (h : paramCategories args cs = .ok cs') : cs' = [] ↔ cs = [] := by
  cases cs with
  | nil =>
      cases h
      rfl
  | cons c cs =>
      simp only [paramCategories, bind_eq_ok_iff] at h
      obtain ⟨c', -, cs'', -, hres⟩ := h
      cases hres
      simp

theorem paramSpec_eq_default_iff {spec spec' : DimensionSpec}
    (h : paramSpec args spec = .ok spec') : spec' = .default ↔ spec = .default := by
  simp only [paramSpec, bind_eq_ok_iff] at h
  obtain ⟨b, hb, o, ho, x, hx, hres⟩ := h
  cases hres
  cases spec
  simp only [DimensionSpec.default, DimensionSpec.mk.injEq]
  rw [paramCategories_eq_nil_iff hb, paramCategories_eq_nil_iff ho,
    paramCategories_eq_nil_iff hx]

theorem bindRef_ok_iff (m : MeasureId) (spec : DimensionSpec) :
    (∃ e, bindRef args m spec = .ok e) ↔
      (spec ≠ .default → ∀ i, lambdaParamOf m = some i → ∀ a, args[i]? = some a →
        ∃ m' inner, a = .ref m' inner) := by
  unfold bindRef
  cases lambdaParamOf m with
  | none => simp
  | some i =>
      simp only [Option.bind_some, Option.some.injEq, forall_eq']
      cases args[i]? with
      | none => simp
      | some a =>
          by_cases hspec : spec = .default
          · simp [hspec]
          · cases a <;> simp [hspec]

theorem rightKinds_ref {m : MeasureId} {spec : DimensionSpec} :
    RightKinds args (.ref m spec) ↔
      (∀ c ∈ spec.byCats ++ spec.overCats ++ spec.exceptCats, ∃ c', paramCategory args c = .ok c') ∧
        ∃ e, bindRef args m spec = .ok e := by
  rw [bindRef_ok_iff]
  constructor
  · rintro ⟨hcats, hrefs⟩
    refine ⟨fun c hc => (paramCategory_ok_iff c).mpr (hcats c hc), fun hspec => ?_⟩
    exact hrefs m (by simp [Expr.projectedRefs, hspec])
  · rintro ⟨hcats, hrefs⟩
    refine ⟨fun c hc => (paramCategory_ok_iff c).mp (hcats c hc), fun m' hm' => ?_⟩
    by_cases hspec : spec = .default
    · simp [Expr.projectedRefs, hspec] at hm'
    · obtain rfl : m' = m := by simpa [Expr.projectedRefs, hspec] using hm'
      exact hrefs hspec

theorem rightKinds_unaryOp {op : UnaryOp} {a : Expr} :
    RightKinds args (.unaryOp op a) ↔ RightKinds args a :=
  ⟨fun ⟨hc, hr⟩ => ⟨hc, hr⟩, fun ⟨hc, hr⟩ => ⟨hc, hr⟩⟩

theorem rightKinds_binaryOp {op : BinaryOp} {a b : Expr} :
    RightKinds args (.binaryOp op a b) ↔ RightKinds args a ∧ RightKinds args b := by
  constructor
  · rintro ⟨hc, hr⟩
    simp only [Expr.categoriesUsed, Expr.projectedRefs, List.forall_mem_append] at hc hr
    exact ⟨⟨hc.1, hr.1⟩, ⟨hc.2, hr.2⟩⟩
  · rintro ⟨⟨hca, hra⟩, ⟨hcb, hrb⟩⟩
    refine ⟨?_, ?_⟩ <;>
      simp only [Expr.categoriesUsed, Expr.projectedRefs, List.forall_mem_append]
    · exact ⟨hca, hcb⟩
    · exact ⟨hra, hrb⟩

@[simp] theorem usedIn_eq (as : List Expr) :
    Expr.categoriesUsed.usedIn as = as.flatMap fun a => a.categoriesUsed := by
  induction as with
  | nil => rfl
  | cons a as ih => simp [Expr.categoriesUsed.usedIn, ih]

@[simp] theorem projectedIn_eq (as : List Expr) :
    Expr.projectedRefs.projectedIn as = as.flatMap fun a => a.projectedRefs := by
  induction as with
  | nil => rfl
  | cons a as ih => simp [Expr.projectedRefs.projectedIn, ih]

theorem rightKinds_call {f : FuncId} {as : List Expr} :
    RightKinds args (.call f as) ↔ ∀ a ∈ as, RightKinds args a := by
  constructor
  · rintro ⟨hc, hr⟩ a ha
    simp only [Expr.categoriesUsed, Expr.projectedRefs, usedIn_eq, projectedIn_eq] at hc hr
    exact ⟨fun c hca => hc c (List.mem_flatMap_of_mem ha hca),
      fun m hma => hr m (List.mem_flatMap_of_mem ha hma)⟩
  · intro h
    refine ⟨fun c hc => ?_, fun m hm => ?_⟩
    · simp only [Expr.categoriesUsed, usedIn_eq, List.mem_flatMap] at hc
      obtain ⟨a, ha, hca⟩ := hc
      exact (h a ha).categories c hca
    · simp only [Expr.projectedRefs, projectedIn_eq, List.mem_flatMap] at hm
      obtain ⟨a, ha, hma⟩ := hm
      exact (h a ha).refs m hma

theorem substituteAll_ok_iff (as : List Expr) :
    (∃ as', substituteParams.substituteAll args as = .ok as') ↔
      ∀ a ∈ as, ∃ a', substituteParams args a = .ok a' := by
  induction as with
  | nil => simp [substituteParams.substituteAll]
  | cons a as ih =>
      simp only [substituteParams.substituteAll, bind_eq_ok_iff, List.forall_mem_cons, ← ih]
      constructor
      · rintro ⟨_, a', ha, as', has, -⟩
        exact ⟨⟨a', ha⟩, as', has⟩
      · rintro ⟨⟨a', ha⟩, as', has⟩
        exact ⟨a' :: as', a', ha, as', has, rfl⟩

/-- Binding the parameters succeeds exactly when every argument is of the kind
the body uses its parameter as. -/
theorem substituteParams_ok_iff (body : Expr) :
    (∃ e, substituteParams args body = .ok e) ↔ RightKinds args body := by
  induction body with
  | literal v => exact ⟨fun _ => ⟨by simp [Expr.categoriesUsed], by simp [Expr.projectedRefs]⟩,
      fun _ => ⟨_, rfl⟩⟩
  | ref m spec =>
      rw [rightKinds_ref, ← paramSpec_ok_iff, bindRef_ok_iff]
      simp only [substituteParams, bind_eq_ok_iff]
      constructor
      · rintro ⟨e, spec', hspec, he⟩
        refine ⟨⟨spec', hspec⟩, ?_⟩
        rw [ne_eq, ← paramSpec_eq_default_iff hspec]
        exact (bindRef_ok_iff m spec').mp ⟨e, he⟩
      · rintro ⟨⟨spec', hspec⟩, h⟩
        rw [ne_eq, ← paramSpec_eq_default_iff hspec] at h
        obtain ⟨e, he⟩ := (bindRef_ok_iff m spec').mpr h
        exact ⟨e, spec', hspec, he⟩
  | unaryOp op a iha =>
      rw [rightKinds_unaryOp, ← iha]
      simp only [substituteParams, bind_eq_ok_iff]
      constructor
      · rintro ⟨_, a', ha, -⟩
        exact ⟨a', ha⟩
      · rintro ⟨a', ha⟩
        exact ⟨_, a', ha, rfl⟩
  | binaryOp op a b iha ihb =>
      rw [rightKinds_binaryOp, ← iha, ← ihb]
      simp only [substituteParams, bind_eq_ok_iff]
      constructor
      · rintro ⟨_, a', ha, b', hb, -⟩
        exact ⟨⟨a', ha⟩, b', hb⟩
      · rintro ⟨⟨a', ha⟩, b', hb⟩
        exact ⟨_, a', ha, b', hb, rfl⟩
  | call f as ih =>
      rw [rightKinds_call, ← forall₂_congr ih, ← substituteAll_ok_iff]
      simp only [substituteParams, bind_eq_ok_iff]
      constructor
      · rintro ⟨_, as', has, -⟩
        exact ⟨as', has⟩
      · rintro ⟨as', has⟩
        exact ⟨_, as', has, rfl⟩
  | category c =>
      simp only [substituteParams, bind_eq_ok_iff]
      constructor
      · rintro ⟨_, c', hc, -⟩
        refine ⟨fun d hd => ?_, by simp [Expr.projectedRefs]⟩
        obtain rfl : d = c := by simpa [Expr.categoriesUsed] using hd
        exact (paramCategory_ok_iff d).mp ⟨c', hc⟩
      · rintro ⟨hcats, -⟩
        obtain ⟨c', hc⟩ := (paramCategory_ok_iff c).mpr
          (hcats c (by simp [Expr.categoriesUsed]))
        exact ⟨_, c', hc, rfl⟩

end RightKinds

/-! ## Successful expansions meet no cause of failure -/

theorem checkDepth_ok_iff_withinLimits (e : Expr) :
    e.checkDepth Expr.maxStoredFormulaDepth = .ok () ↔ e.WithinLimits :=
  e.checkDepth_eq_ok_iff _

/-- A chain of `n` nested calls of known lambdas that starts at one of
`calls`. -/
def CallChain (lambdas : Lambdas) : Nat → List (Nat × Nat) → Prop
  | 0, _ => True
  | n + 1, calls => ∃ c ∈ calls, ∃ l, lambdas.get? c.1 = some l ∧
      CallChain lambdas n l.body.lambdaCalls

/-- Every call of an expression that expands enters a known lambda with the
right number of arguments, and its body expands one level deeper. -/
theorem expandAt_call {left : Nat} {e e' : Expr}
    (h : expandAt lambdas (left + 1) e = .ok e') {id n : Nat} (hc : (id, n) ∈ e.lambdaCalls) :
    ∃ l body b, lambdas.get? id = some l ∧ l.params.length = n ∧
      body.lambdaCalls = l.body.lambdaCalls ∧ expandAt lambdas left body = .ok b := by
  induction e generalizing e' with
  | literal v => simp [Expr.lambdaCalls] at hc
  | ref m spec => simp [Expr.lambdaCalls] at hc
  | category c => simp [Expr.lambdaCalls] at hc
  | unaryOp op a iha =>
      simp only [expandAt, expandHere, bind_eq_ok_iff] at h
      obtain ⟨a', ha, -⟩ := h
      exact iha ha hc
  | binaryOp op a b iha ihb =>
      simp only [expandAt, expandHere, bind_eq_ok_iff] at h
      obtain ⟨a', ha, b', hb, -⟩ := h
      rcases List.mem_append.mp hc with hc | hc
      · exact iha ha hc
      · exact ihb hb hc
  | call f args ih =>
      obtain ⟨args', hargs, hcall⟩ := expandHere_call_eq_ok h
      simp only [Expr.lambdaCalls, Expr.callsOf_eq, List.mem_append, List.mem_flatMap,
        Option.mem_toList, Option.map_eq_some_iff, Prod.mk.injEq] at hc
      rcases hc with ⟨i, hf, rfl, rfl⟩ | ⟨a, ha, hca⟩
      · rcases hcall with ⟨hnone, -⟩ | ⟨id, body, hid, ⟨l, hl, hlen, hbody⟩, -, hnext⟩
        · rw [hf] at hnone
          simp at hnone
        · obtain rfl : i = id := Option.some.inj (hf.symm.trans hid)
          have hfree : ∀ a ∈ args', a.LambdaFree := forall₂_right <|
            hargs.imp fun a a' ha => (expandAt_sound Interpretation.terms le_rfl
              (show expandAt lambdas (left + 1) a = .ok a' from ha)).1
          exact ⟨l, body, e', hl, hlen.trans hargs.length_eq.symm,
            lambdaCalls_substituteParams hfree hbody, hnext⟩
      · obtain ⟨a', -, ha'⟩ := exists_of_mem_left hargs ha
        exact ih a ha ha' hca

theorem not_callChain_of_expandAt {left : Nat} {e e' : Expr}
    (h : expandAt lambdas left e = .ok e') : ¬ CallChain lambdas left e.lambdaCalls := by
  induction left generalizing e e' with
  | zero => simp [expandAt] at h
  | succ left ih =>
      rintro ⟨⟨id, n⟩, hc, l, hl, hchain⟩
      obtain ⟨l', body, b, hl', -, hcalls, hb⟩ := expandAt_call h hc
      obtain rfl : l = l' := Option.some.inj (hl.symm.trans hl')
      exact ih hb (hcalls ▸ hchain)

/-- Every call reached from an expression that expands is of a known lambda
with the right number of arguments, whose calls expand in turn. -/
theorem expandAt_reaches {left : Nat} {e e' : Expr} (h : expandAt lambdas left e = .ok e')
    {c : Nat × Nat} (hc : Reaches lambdas e c) :
    ∃ l k body b, lambdas.get? c.1 = some l ∧ l.params.length = c.2 ∧
      body.lambdaCalls = l.body.lambdaCalls ∧ expandAt lambdas k body = .ok b := by
  induction hc with
  | @direct c hc =>
      cases left with
      | zero => simp [expandAt] at h
      | succ left =>
          obtain ⟨l, body, b, hl, hn, hcalls, hb⟩ := expandAt_call h (show (c.1, c.2) ∈ _ from hc)
          exact ⟨l, left, body, b, hl, hn, hcalls, hb⟩
  | @through id n l c _ hl hc ih =>
      obtain ⟨l', k, body, b, hl', -, hcalls, hb⟩ := ih
      obtain rfl : l = l' := Option.some.inj (hl.symm.trans hl')
      cases k with
      | zero => simp [expandAt] at hb
      | succ k =>
          rw [← hcalls] at hc
          obtain ⟨l'', body', b', hl'', hn, hcalls', hb'⟩ :=
            expandAt_call hb (show (c.1, c.2) ∈ _ from hc)
          exact ⟨l'', k, body', b', hl'', hn, hcalls', hb'⟩

/-- A lambda on a cycle starts chains of every length. -/
theorem callChain_of_cycle {i : Nat} {l : NamedLambda}
    (hcycle : Relation.TransGen (CallsLambda lambdas) i i) (hl : lambdas.get? i = some l)
    (n : Nat) : CallChain lambdas n l.body.lambdaCalls := by
  induction n generalizing i l with
  | zero => trivial
  | succ n ih =>
      obtain ⟨j, ⟨l', k, hl', hj⟩, hback⟩ := Relation.TransGen.head'_iff.mp hcycle
      obtain rfl : l = l' := Option.some.inj (hl.symm.trans hl')
      have hcycle' : Relation.TransGen (CallsLambda lambdas) j j :=
        .tail' hback ⟨l, k, hl, hj⟩
      obtain ⟨_, ⟨l'', _, hl'', -⟩, -⟩ := Relation.TransGen.head'_iff.mp hcycle'
      exact ⟨(j, k), hj, l'', hl'', ih hcycle' hl''⟩

theorem means_terms_of_expandAt {left : Nat} {args args' : List Expr}
    (h : List.Forall₂ (fun a a' => expandAt lambdas left a = .ok a') args args') :
    List.Forall₂ (Interpretation.terms.Means lambdas) args args' :=
  h.imp fun _ a' ha => by
    have hmeans := means_of_expandAt Interpretation.terms ha
    rwa [Interpretation.eval_terms a'] at hmeans

theorem means_terms_unique {args bs bs' : List Expr}
    (h : List.Forall₂ (Interpretation.terms.Means lambdas) args bs)
    (h' : List.Forall₂ (Interpretation.terms.Means lambdas) args bs') : bs = bs' := by
  induction h generalizing bs' with
  | nil => exact (List.forall₂_nil_left_iff.mp h').symm
  | cons hab _ ih =>
      obtain ⟨b', bs', hab', hbs', rfl⟩ := List.forall₂_cons_left_iff.mp h'
      rw [hab.unique hab', ih hbs']

/-- Every call that arises in an expansion binds its arguments and stays within
the limits. -/
theorem expandAt_arises {e : Expr} {id : Nat} {args : List Expr}
    (harises : Arises lambdas e id args) {left : Nat} {e' : Expr}
    (h : expandAt lambdas left e = .ok e') :
    ∃ l body, lambdas.get? id = some l ∧ substituteParams args l.body = .ok body ∧
      body.WithinLimits := by
  induction harises generalizing left e' with
  | unary _ ih =>
      cases left with
      | zero => simp [expandAt] at h
      | succ left =>
          simp only [expandAt, expandHere, bind_eq_ok_iff] at h
          obtain ⟨a', ha, -⟩ := h
          exact @ih (left + 1) _ ha
  | left _ ih =>
      cases left with
      | zero => simp [expandAt] at h
      | succ left =>
          simp only [expandAt, expandHere, bind_eq_ok_iff] at h
          obtain ⟨a', ha, -⟩ := h
          exact @ih (left + 1) _ ha
  | right _ ih =>
      cases left with
      | zero => simp [expandAt] at h
      | succ left =>
          simp only [expandAt, expandHere, bind_eq_ok_iff] at h
          obtain ⟨a', -, b', hb, -⟩ := h
          exact @ih (left + 1) _ hb
  | arg hmem _ ih =>
      cases left with
      | zero => simp [expandAt] at h
      | succ left =>
          obtain ⟨args', hargs, -⟩ := expandHere_call_eq_ok h
          obtain ⟨a', -, ha⟩ := exists_of_mem_left hargs hmem
          exact @ih (left + 1) _ ha
  | here hf hmeans =>
      cases left with
      | zero => simp [expandAt] at h
      | succ left =>
          obtain ⟨args', hargs, ⟨hnone, -⟩ | ⟨i, body, hi, ⟨l, hl, -, hbody⟩, hdepth, -⟩⟩ :=
            expandHere_call_eq_ok h
          · rw [hf] at hnone
            simp at hnone
          · rw [hf] at hi
            cases hi
            obtain rfl := means_terms_unique hmeans
              (@means_terms_of_expandAt _ (left + 1) _ _ hargs)
            exact ⟨l, body, hl, hbody, (checkDepth_ok_iff_withinLimits body).mp hdepth⟩
  | inside hf hmeans hl hbody _ ih =>
      cases left with
      | zero => simp [expandAt] at h
      | succ left =>
          obtain ⟨args', hargs, ⟨hnone, -⟩ | ⟨i, body, hi, ⟨l, hl', -, hbody'⟩, -, hnext⟩⟩ :=
            expandHere_call_eq_ok h
          · rw [hf] at hnone
            simp at hnone
          · rw [hf] at hi
            cases hi
            obtain rfl := means_terms_unique hmeans
              (@means_terms_of_expandAt _ (left + 1) _ _ hargs)
            obtain rfl := Option.some.inj (hl.symm.trans hl')
            obtain rfl := Except.ok.inj (hbody.symm.trans hbody')
            exact ih hnext

/-! ## Every failure has a cause -/

/-- A cause of failure met when `e` expands with `left` levels to go. -/
def FailsBelow (lambdas : Lambdas) (left : Nat) (e : Expr) : Prop :=
  CallChain lambdas left e.lambdaCalls ∨ ReachesUnknown lambdas e ∨
    ReachesArgumentCount lambdas e ∨ ReachesArgumentKind lambdas e ∨
    ∃ id args l body, Arises lambdas e id args ∧ lambdas.get? id = some l ∧
      substituteParams args l.body = .ok body ∧ ¬ body.WithinLimits

theorem Reaches.mono {a e : Expr} (hcalls : a.lambdaCalls ⊆ e.lambdaCalls) {c : Nat × Nat}
    (h : Reaches lambdas a c) : Reaches lambdas e c := by
  induction h with
  | direct hc => exact .direct (hcalls hc)
  | through _ hl hc ih => exact .through ih hl hc

theorem CallChain.mono {n : Nat} {calls calls' : List (Nat × Nat)} (hcalls : calls ⊆ calls')
    (h : CallChain lambdas n calls) : CallChain lambdas n calls' := by
  cases n with
  | zero => trivial
  | succ n =>
      obtain ⟨c, hc, hl⟩ := h
      exact ⟨c, hcalls hc, hl⟩

/-- A cause met in a part of `e` is met in `e`. -/
theorem FailsBelow.of_part {left : Nat} {a e : Expr} (hcalls : a.lambdaCalls ⊆ e.lambdaCalls)
    (harises : ∀ id args, Arises lambdas a id args → Arises lambdas e id args)
    (h : FailsBelow lambdas left a) : FailsBelow lambdas left e := by
  rcases h with h | ⟨c, hc, h⟩ | ⟨c, l, hc, h⟩ | ⟨id, args, l, ha, h⟩ | ⟨id, args, l, b, ha, h⟩
  · exact .inl (h.mono hcalls)
  · exact .inr (.inl ⟨c, hc.mono hcalls, h⟩)
  · exact .inr (.inr (.inl ⟨c, l, hc.mono hcalls, h⟩))
  · exact .inr (.inr (.inr (.inl ⟨id, args, l, harises id args ha, h⟩)))
  · exact .inr (.inr (.inr (.inr ⟨id, args, l, b, harises id args ha, h⟩)))

theorem Reaches.of_body {e body : Expr} {id n : Nat} {l : NamedLambda}
    (hid : (id, n) ∈ e.lambdaCalls) (hl : lambdas.get? id = some l)
    (hcalls : body.lambdaCalls = l.body.lambdaCalls) {c : Nat × Nat}
    (h : Reaches lambdas body c) : Reaches lambdas e c := by
  induction h with
  | direct hc => exact .through (.direct hid) hl (hcalls ▸ hc)
  | through _ hl' hc ih => exact .through ih hl' hc

/-- A cause met in the body that a call of `e` enters is met in `e`, one level
up. -/
theorem FailsBelow.of_body {left : Nat} {e body : Expr} {id n : Nat} {l : NamedLambda}
    (hid : (id, n) ∈ e.lambdaCalls) (hl : lambdas.get? id = some l)
    (hcalls : body.lambdaCalls = l.body.lambdaCalls)
    (harises : ∀ id args, Arises lambdas body id args → Arises lambdas e id args)
    (h : FailsBelow lambdas left body) : FailsBelow lambdas (left + 1) e := by
  rcases h with h | ⟨c, hc, h⟩ | ⟨c, l', hc, h⟩ | ⟨id, args, l', ha, h⟩ | ⟨id, args, l', b, ha, h⟩
  · exact .inl ⟨(id, n), hid, l, hl, hcalls ▸ h⟩
  · exact .inr (.inl ⟨c, hc.of_body hid hl hcalls, h⟩)
  · exact .inr (.inr (.inl ⟨c, l', hc.of_body hid hl hcalls, h⟩))
  · exact .inr (.inr (.inr (.inl ⟨id, args, l', harises id args ha, h⟩)))
  · exact .inr (.inr (.inr (.inr ⟨id, args, l', b, harises id args ha, h⟩)))

theorem failsBelow_of_error {left : Nat} {e : Expr} {msg : String}
    (h : expandAt lambdas left e = .error msg) : FailsBelow lambdas left e := by
  induction left generalizing e msg with
  | zero => exact .inl trivial
  | succ left ihleft =>
      induction e generalizing msg with
      | literal v => simp [expandAt, expandHere] at h
      | ref m spec => simp [expandAt, expandHere] at h
      | category c => simp [expandAt, expandHere] at h
      | unaryOp op a iha =>
          simp only [expandAt, expandHere, bind_eq_error_iff] at h
          rcases h with ha | ⟨a', -, hres⟩
          · exact (iha ha).of_part (List.Subset.refl a.lambdaCalls) fun _ _ => .unary
          · simp [pure, Except.pure] at hres
      | binaryOp op a b iha ihb =>
          simp only [expandAt, expandHere, bind_eq_error_iff] at h
          rcases h with ha | ⟨a', -, hb | ⟨b', -, hres⟩⟩
          · exact (iha ha).of_part (List.subset_append_left _ _) fun _ _ => .left
          · exact (ihb hb).of_part (List.subset_append_right _ _) fun _ _ => .right
          · simp [pure, Except.pure] at hres
      | call f args ih =>
          rcases expandHere_call_eq_error h with ⟨a, ha, m, hm⟩ | ⟨args', id, hf, hargs, hcause⟩
          · refine (ih a ha hm).of_part (fun c hc => ?_) fun _ _ => .arg ha
            simp only [Expr.lambdaCalls, Expr.callsOf_eq, List.mem_append, List.mem_flatMap]
            exact .inr ⟨a, ha, hc⟩
          · have hid : (id, args.length) ∈ (Expr.call f args).lambdaCalls := by
              simp [Expr.lambdaCalls, hf]
            have hmeans := @means_terms_of_expandAt _ (left + 1) _ _ hargs
            have harises : Arises lambdas (.call f args) id args' := .here hf hmeans
            rcases hcause with hnone | ⟨l, hl, hlen | ⟨-, ⟨m, hm⟩ | ⟨body, hbody, hcause⟩⟩⟩
            · exact .inr (.inl ⟨_, .direct hid, hnone⟩)
            · rw [← hargs.length_eq] at hlen
              exact .inr (.inr (.inl ⟨_, l, .direct hid, hl, hlen⟩))
            · refine .inr (.inr (.inr (.inl ⟨id, args', l, harises, hl, fun hkinds => ?_⟩)))
              obtain ⟨b, hb⟩ := (substituteParams_ok_iff l.body).mpr hkinds
              rw [hb] at hm
              simp at hm
            · rcases hcause with ⟨m, hm⟩ | ⟨m, hm⟩
              · refine .inr (.inr (.inr (.inr ⟨id, args', l, body, harises, hl, hbody,
                  fun hlimits => ?_⟩)))
                rw [(checkDepth_ok_iff_withinLimits body).mpr hlimits] at hm
                simp at hm
              · have hfree : ∀ a ∈ args', a.LambdaFree := forall₂_right <|
                  hargs.imp fun a a' ha => (expandAt_sound Interpretation.terms le_rfl
                    (show expandAt lambdas (left + 1) a = .ok a' from ha)).1
                exact (ihleft hm).of_body hid hl (lambdaCalls_substituteParams hfree hbody)
                  fun _ _ => .inside hf hmeans hl hbody

/-- A long enough chain of calls goes through a lambda on a cycle. -/
theorem reachesCycle_of_callChain {n : Nat} (hn : lambdas.size < n) {e : Expr}
    (h : CallChain lambdas n e.lambdaCalls) : ReachesCycle lambdas e := by
  have hids : ∀ {n calls}, CallChain lambdas n calls → (∀ c ∈ calls, Reaches lambdas e c) →
      ∃ ids : List Nat, ids.length = n ∧ ids.IsChain (CallsLambda lambdas) ∧
        (∀ i ∈ ids, i ∈ lambdas.keys ∧ ∃ k, Reaches lambdas e (i, k)) ∧
        ∀ i ∈ ids.head?, ∃ k, (i, k) ∈ calls := by
    intro n
    induction n with
    | zero => exact fun _ _ => ⟨[], rfl, .nil, by simp, by simp⟩
    | succ n ih =>
        rintro calls ⟨⟨i, k⟩, hc, l, hl, hchain⟩ hreach
        obtain ⟨ids, hlen, hids, hknown, hhead⟩ :=
          ih hchain fun c' hc' => .through (hreach _ hc) hl hc'
        refine ⟨i :: ids, by simp [hlen], ?_, ?_, by simpa using ⟨k, hc⟩⟩
        · refine List.isChain_cons.mpr ⟨fun j hj => ?_, hids⟩
          obtain ⟨k', hk'⟩ := hhead j hj
          exact ⟨l, k', hl, hk'⟩
        · simp only [List.forall_mem_cons]
          exact ⟨⟨SortedMap.mem_keys_of_get? hl, k, hreach _ hc⟩, hknown⟩
  obtain ⟨ids, hlen, hchain, hknown, -⟩ := hids h fun c hc => .direct hc
  have hkeys : ids ⊆ lambdas.keys := fun i hi => (hknown i hi).1
  obtain ⟨i, hi, hcycle⟩ := exists_transGen_of_length_lt hchain hkeys (by simp; omega)
  obtain ⟨k, hk⟩ := (hknown i hi).2
  exact ⟨(i, k), hk, hcycle⟩

/-! ## The expansion, whole -/

theorem expandLambdas_eq_ok_iff {e e' : Expr} :
    expandLambdas lambdas e = .ok e' ↔
      expandAt lambdas (lambdas.size + 2) e = .ok e' ∧ e'.WithinLimits := by
  simp only [expandLambdas, bind_eq_ok_iff, ← checkDepth_ok_iff_withinLimits]
  constructor
  · rintro ⟨e₁, he, _, hdepth, hres⟩
    cases hres
    exact ⟨he, hdepth⟩
  · rintro ⟨he, hdepth⟩
    exact ⟨e', he, (), hdepth, rfl⟩

theorem exists_error_iff {α : Type} (x : Except String α) :
    (∃ msg, x = .error msg) ↔ ¬ ∃ a, x = .ok a := by
  cases x <;> simp

/-- The expansion of a formula fails exactly when one of its calls reaches a
cycle, an unknown lambda, a wrong number of arguments, an argument of the wrong
kind or the limits; otherwise it calls no lambda and means what the formula
means, each call read as its body with the parameters bound at once. -/
theorem expandLambdas_correct (lambdas : Lambdas) (e : Expr) :
    (∀ e', expandLambdas lambdas e = .ok e' → e'.LambdaFree ∧
      ∀ (D : Type) (I : Interpretation D), I.Means lambdas e (I.eval e').value) ∧
    ((∃ msg, expandLambdas lambdas e = .error msg) ↔
      ReachesCycle lambdas e ∨ ReachesUnknown lambdas e ∨ ReachesArgumentCount lambdas e ∨
        ReachesArgumentKind lambdas e ∨ ReachesLimit lambdas e) := by
  refine ⟨fun e' h => ?_, ?_⟩
  · have hexp := (expandLambdas_eq_ok_iff.mp h).1
    exact ⟨(expandAt_sound Interpretation.terms le_rfl hexp).1,
      fun D I => means_of_expandAt I hexp⟩
  rw [exists_error_iff]
  constructor
  · intro hfail
    cases hexp : expandAt lambdas (lambdas.size + 2) e with
    | error msg =>
        rcases failsBelow_of_error hexp with h | h | h | h | h
        · exact .inl (reachesCycle_of_callChain (by omega) h)
        · exact .inr (.inl h)
        · exact .inr (.inr (.inl h))
        · exact .inr (.inr (.inr (.inl h)))
        · exact .inr (.inr (.inr (.inr (.inl h))))
    | ok e' =>
        refine .inr (.inr (.inr (.inr (.inr ⟨e', ?_, fun hlimits => hfail ⟨e', ?_⟩⟩))))
        · simpa using means_of_expandAt Interpretation.terms hexp
        · exact expandLambdas_eq_ok_iff.mpr ⟨hexp, hlimits⟩
  · rintro hcause ⟨e', h⟩
    obtain ⟨hexp, hlimits⟩ := expandLambdas_eq_ok_iff.mp h
    rcases hcause with ⟨c, hc, hcycle⟩ | ⟨c, hc, hnone⟩ | ⟨c, l, hc, hl, hcount⟩ |
        ⟨id, args, l, ha, hl, hkind⟩ | ⟨id, args, l, body, ha, hl, hbody, hlimit⟩ |
        ⟨e₁, he₁, hlimit⟩
    · obtain ⟨l, k, body, b, hl, -, hcalls, hb⟩ := expandAt_reaches hexp hc
      exact not_callChain_of_expandAt hb (hcalls ▸ callChain_of_cycle hcycle hl k)
    · obtain ⟨l, -, -, -, hl, -⟩ := expandAt_reaches hexp hc
      rw [hnone] at hl
      simp at hl
    · obtain ⟨l', -, -, -, hl', hn, -⟩ := expandAt_reaches hexp hc
      obtain rfl := Option.some.inj (hl.symm.trans hl')
      exact hcount hn
    · obtain ⟨l', body, hl', hbody, -⟩ := expandAt_arises ha hexp
      obtain rfl := Option.some.inj (hl.symm.trans hl')
      exact hkind ((substituteParams_ok_iff l.body).mp ⟨body, hbody⟩)
    · obtain ⟨l', body', hl', hbody', hlimits'⟩ := expandAt_arises ha hexp
      obtain rfl := Option.some.inj (hl.symm.trans hl')
      obtain rfl := Except.ok.inj (hbody.symm.trans hbody')
      exact hlimit hlimits'
    · have hmeans := means_of_expandAt Interpretation.terms hexp
      rw [Interpretation.eval_terms] at hmeans
      exact hlimit (hmeans.unique he₁ ▸ hlimits)

/-! ## Arguments of the wrong kind -/

/-- One lambda, the position along its parameter, a category. -/
def positionLambda : Lambdas :=
  ⟨[(0, ⟨"At", ["c"], .call POSITION [.category (lambdaCategory 0)]⟩)], by simp⟩

/-- A call of it with a number. -/
def positionOfNumber : Expr := .call (namedLambda 0) [.literal (.number .zero)]

theorem reaches_positionOfNumber {c : Nat × Nat}
    (h : Reaches positionLambda positionOfNumber c) : c = (0, 1) := by
  induction h with
  | direct hc => exact List.mem_singleton.mp hc
  | @through id n l c _ hl hc ih =>
      obtain rfl : id = 0 := congrArg Prod.fst ih
      cases hl
      simp [Expr.lambdaCalls, POSITION, namedLambdaOf, checkedSub, namedLambdaBase] at hc

theorem means_literal (v : Value) :
    Interpretation.terms.Means lambdas (.literal v) (.literal v) :=
  ⟨1, fun k hk => by obtain ⟨k, rfl⟩ := Nat.exists_eq_add_of_le' hk; rfl⟩

theorem substituteParams_positionOfNumber {args : List Expr} {body : Expr}
    (hargs : List.Forall₂ (Interpretation.terms.Means positionLambda)
      [.literal (.number .zero)] args) :
    substituteParams args (.call POSITION [.category (lambdaCategory 0)]) ≠ .ok body := by
  obtain rfl := means_terms_unique hargs (.cons (means_literal _) .nil)
  rw [substituteParams, substituteParams.substituteAll, substituteParams, paramCategory,
    lambdaCategoryOf_lambdaCategory (by decide)]
  simp [bind, Except.bind]

theorem arises_positionOfNumber {id : Nat} {args : List Expr}
    (h : Arises positionLambda positionOfNumber id args) :
    id = 0 ∧ List.Forall₂ (Interpretation.terms.Means positionLambda)
      [.literal (.number .zero)] args := by
  cases h with
  | arg ha h =>
      obtain rfl := List.mem_singleton.mp ha
      cases h
  | here hf hargs =>
      rw [namedLambdaOf_namedLambda (by decide)] at hf
      exact ⟨(Option.some.inj hf).symm, hargs⟩
  | inside hf hargs hl hbody _ =>
      rw [namedLambdaOf_namedLambda (by decide)] at hf
      cases hf
      cases hl
      exact absurd hbody (substituteParams_positionOfNumber hargs)

/-- A call with a number where the body needs a category fails although it
reaches no cycle, no unknown lambda, no wrong number of arguments and no
limit. -/
theorem expandLambdas_fails_otherwise :
    (∃ msg, expandLambdas positionLambda positionOfNumber = .error msg) ∧
      ¬ (ReachesCycle positionLambda positionOfNumber ∨
        ReachesUnknown positionLambda positionOfNumber ∨
        ReachesArgumentCount positionLambda positionOfNumber ∨
        ReachesLimit positionLambda positionOfNumber) := by
  refine ⟨⟨_, rfl⟩, ?_⟩
  rintro (⟨c, hc, hcycle⟩ | ⟨c, hc, hnone⟩ | ⟨c, l, hc, hl, hcount⟩ |
    ⟨id, args, l, body, ha, hl, hbody, -⟩ | ⟨e', ⟨k, hk⟩, -⟩)
  · obtain rfl := reaches_positionOfNumber hc
    obtain ⟨j, ⟨l, n, hl, hj⟩, -⟩ := Relation.TransGen.head'_iff.mp hcycle
    cases hl
    simp [Expr.lambdaCalls, POSITION, namedLambdaOf, checkedSub, namedLambdaBase] at hj
  · obtain rfl := reaches_positionOfNumber hc
    simp [positionLambda, SortedMap.get?] at hnone
  · obtain rfl := reaches_positionOfNumber hc
    cases hl
    exact hcount rfl
  · obtain ⟨rfl, hargs⟩ := arises_positionOfNumber ha
    cases hl
    exact substituteParams_positionOfNumber hargs hbody
  · have hread := hk (k + 2) (by omega)
    rw [positionOfNumber, Interpretation.read, Interpretation.readWith,
      namedLambdaOf_namedLambda (by decide)] at hread
    simp [Interpretation.readWith.readAll, Interpretation.readWith, positionLambda,
      SortedMap.get?, Interpretation.read, Interpretation.readCategory,
      lambdaCategoryOf_lambdaCategory, Interpretation.plain] at hread

end Improv.CoreModel
