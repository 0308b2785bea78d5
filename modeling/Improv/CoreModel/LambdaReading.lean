import Improv.CoreModel.Lambdas
/-!
# What a formula with named lambdas means

A compositional interpretation gives every constructor of the formula AST a
meaning in some domain.  Under it, a call of a named lambda is read as the
lambda's body in an environment that holds the readings of all the arguments
at once; no expression is rewritten.  The depth of nested calls is the only
thing that bounds a reading.
-/

namespace Improv.CoreModel

open Improv.Lib Functions

universe u

/-- A meaning for every constructor of the formula AST. -/
structure Interpretation (D : Type u) where
  literal : Value → D
  ref : MeasureId → DimensionSpec → D
  unaryOp : UnaryOp → D → D
  binaryOp : BinaryOp → D → D → D
  call : FuncId → List D → D
  category : CategoryId → D

/-- The reading of an expression: its value and, since a parameter can be used
as a measure under a projection or as a category, what it refers to. -/
structure Reading (D : Type u) where
  value : D
  asRef : Option (MeasureId × DimensionSpec)
  asCategory : Option CategoryId

/-- The parameters bound where an expression stands: none outside every named
lambda, all arguments of the call inside a body. -/
abbrev Bindings (D : Type u) := Option (List (Reading D))

variable {D : Type u}

namespace Interpretation

/-- The reading of an expression that is only a value. -/
def plain (value : D) : Reading D := ⟨value, none, none⟩

def readingOfRef (I : Interpretation D) (m : MeasureId) (spec : DimensionSpec) : Reading D :=
  ⟨I.ref m spec, some (m, spec), none⟩

def readingOfCategory (I : Interpretation D) (c : CategoryId) : Reading D :=
  ⟨I.category c, none, some c⟩

/-- A category where it stands: a placeholder of a bound parameter is the
argument's category. -/
def readCategory (ρ : Bindings D) (c : CategoryId) : Option CategoryId :=
  match ρ, lambdaCategoryOf c with
  | some args, some i => args[i]?.bind (·.asCategory)
  | _, _ => some c

def readCategories (ρ : Bindings D) : List CategoryId → Option (List CategoryId)
  | [] => some []
  | c :: cs => do
    let c ← readCategory ρ c
    let cs ← readCategories ρ cs
    some (c :: cs)

def readSpec (ρ : Bindings D) (spec : DimensionSpec) : Option DimensionSpec := do
  let byCats ← readCategories ρ spec.byCats
  let overCats ← readCategories ρ spec.overCats
  let exceptCats ← readCategories ρ spec.exceptCats
  some ⟨byCats, overCats, exceptCats⟩

/-- The argument a reference names, when it is a bound parameter. -/
def boundArg (ρ : Bindings D) (m : MeasureId) : Option (Reading D) :=
  ρ.bind fun args => (lambdaParamOf m).bind (args[·]?)

/-- A measure reference where it stands: a bare parameter reads as its
argument, a projected one as the argument's measure under that projection. -/
def readRef (I : Interpretation D) (ρ : Bindings D) (m : MeasureId) (spec : DimensionSpec) :
    Option (Reading D) :=
  (readSpec ρ spec).bind fun spec =>
    match boundArg ρ m with
    | none => some (I.readingOfRef m spec)
    | some arg =>
      if spec = .default then some arg
      else arg.asRef.map fun (m', inner) => I.readingOfRef m' (spec.orElse inner)

/-- The reading of an expression, given how to enter a named lambda. -/
def readWith (I : Interpretation D) (enter : Nat → List (Reading D) → Option (Reading D))
    (ρ : Bindings D) : Expr → Option (Reading D)
  | .literal v => some (plain (I.literal v))
  | .ref m spec => I.readRef ρ m spec
  | .unaryOp op a => do
    let a ← readWith I enter ρ a
    some (plain (I.unaryOp op a.value))
  | .binaryOp op a b => do
    let a ← readWith I enter ρ a
    let b ← readWith I enter ρ b
    some (plain (I.binaryOp op a.value b.value))
  | .call f args => do
    let args ← readAll args
    match namedLambdaOf f with
    | none => some (plain (I.call f (args.map (·.value))))
    | some id => enter id args
  | .category c => (readCategory ρ c).map I.readingOfCategory
where
  readAll : List Expr → Option (List (Reading D))
    | [] => some []
    | a :: as => do
      let a ← readWith I enter ρ a
      let as ← readAll as
      some (a :: as)

/-- The reading of an expression with at most `depth` lambda bodies nested. -/
def read (I : Interpretation D) (lambdas : Lambdas) : (depth : Nat) → Bindings D → Expr →
    Option (Reading D)
  | 0, _, _ => none
  | depth + 1, ρ, e =>
    I.readWith
      (fun id args => (lambdas.get? id).bind fun l =>
        if l.params.length = args.length then read I lambdas depth (some args) l.body
        else none)
      ρ e

/-- `d` is the value of `e`: every deep enough reading gives it. -/
def Means (I : Interpretation D) (lambdas : Lambdas) (e : Expr) (d : D) : Prop :=
  ∃ depth, ∀ k, depth ≤ k → (I.read lambdas k none e).map (·.value) = some d

/-- The reading of an expression that calls no named lambda. -/
def eval (I : Interpretation D) : Expr → Reading D
  | .literal v => plain (I.literal v)
  | .ref m spec => I.readingOfRef m spec
  | .unaryOp op a => plain (I.unaryOp op (I.eval a).value)
  | .binaryOp op a b => plain (I.binaryOp op (I.eval a).value (I.eval b).value)
  | .call f args => plain (I.call f (evalAll args))
  | .category c => I.readingOfCategory c
where
  evalAll : List Expr → List D
    | [] => []
    | a :: as => (I.eval a).value :: evalAll as

/-- Expressions as their own meaning: the reading under this interpretation is
the expression with every call written out. -/
def terms : Interpretation Expr where
  literal := .literal
  ref := .ref
  unaryOp := .unaryOp
  binaryOp := .binaryOp
  call := .call
  category := .category

/-! ## Readings are unique -/

theorem Means.unique {I : Interpretation D} {lambdas : Lambdas} {e : Expr} {d d' : D}
    (h : I.Means lambdas e d) (h' : I.Means lambdas e d') : d = d' := by
  obtain ⟨n, hn⟩ := h
  obtain ⟨n', hn'⟩ := h'
  have heq := hn (max n n') (Nat.le_max_left ..)
  rw [hn' (max n n') (Nat.le_max_right ..)] at heq
  exact (Option.some.inj heq).symm

@[simp] theorem evalAll_eq (I : Interpretation D) (args : List Expr) :
    eval.evalAll I args = args.map fun a => (I.eval a).value := by
  induction args with
  | nil => rfl
  | cons a as ih => simp [eval.evalAll, ih]

@[simp] theorem eval_terms (e : Expr) : (terms.eval e).value = e := by
  induction e with
  | literal v => rfl
  | ref m spec => rfl
  | unaryOp op a iha =>
      change Expr.unaryOp op (terms.eval a).value = _
      rw [iha]
  | binaryOp op a b iha ihb =>
      change Expr.binaryOp op (terms.eval a).value (terms.eval b).value = _
      rw [iha, ihb]
  | call f args ih =>
      change Expr.call f (eval.evalAll terms args) = _
      rw [evalAll_eq, List.map_congr_left ih, List.map_id']
  | category c => rfl

end Interpretation

/-! ## Calls of named lambdas -/

/-- Every call of a named lambda in an expression: the lambda's id and the
number of arguments. -/
def Expr.lambdaCalls : Expr → List (Nat × Nat)
  | .literal _ | .ref .. | .category _ => []
  | .unaryOp _ a => a.lambdaCalls
  | .binaryOp _ a b => a.lambdaCalls ++ b.lambdaCalls
  | .call f args =>
    ((namedLambdaOf f).map (·, args.length)).toList ++ callsOf args
where
  callsOf : List Expr → List (Nat × Nat)
    | [] => []
    | a :: as => a.lambdaCalls ++ callsOf as

/-- The expression calls no named lambda. -/
def Expr.LambdaFree (e : Expr) : Prop := e.lambdaCalls = []

namespace Expr

@[simp] theorem callsOf_eq (args : List Expr) :
    lambdaCalls.callsOf args = args.flatMap fun a => a.lambdaCalls := by
  induction args with
  | nil => rfl
  | cons a as ih => simp [lambdaCalls.callsOf, ih]

theorem lambdaFree_unaryOp {op : UnaryOp} {a : Expr} :
    (unaryOp op a).LambdaFree ↔ a.LambdaFree := by
  simp [LambdaFree, lambdaCalls]

theorem lambdaFree_binaryOp {op : BinaryOp} {a b : Expr} :
    (binaryOp op a b).LambdaFree ↔ a.LambdaFree ∧ b.LambdaFree := by
  simp [LambdaFree, lambdaCalls]

theorem lambdaFree_call {f : FuncId} {args : List Expr} :
    (call f args).LambdaFree ↔ namedLambdaOf f = none ∧ ∀ a ∈ args, a.LambdaFree := by
  simp [LambdaFree, lambdaCalls, List.flatMap_eq_nil_iff]

end Expr

namespace Interpretation

theorem readCategories_none (cs : List CategoryId) :
    readCategories (none : Bindings D) cs = some cs := by
  induction cs with
  | nil => rfl
  | cons c cs ih => simp [readCategories, readCategory, ih]

theorem readRef_none (I : Interpretation D) (m : MeasureId) (spec : DimensionSpec) :
    I.readRef none m spec = some (I.readingOfRef m spec) := by
  simp [readRef, readSpec, readCategories_none, boundArg]

/-- Outside every lambda, an expression without calls reads as its value. -/
theorem readWith_of_lambdaFree (I : Interpretation D)
    (enter : Nat → List (Reading D) → Option (Reading D)) {e : Expr} (h : e.LambdaFree) :
    I.readWith enter none e = some (I.eval e) := by
  induction e with
  | literal v => rfl
  | ref m spec => exact I.readRef_none m spec
  | unaryOp op a iha =>
      rw [readWith, iha (Expr.lambdaFree_unaryOp.mp h)]
      rfl
  | binaryOp op a b iha ihb =>
      obtain ⟨ha, hb⟩ := Expr.lambdaFree_binaryOp.mp h
      rw [readWith, iha ha, ihb hb]
      rfl
  | call f args ih =>
      obtain ⟨hf, hargs⟩ := Expr.lambdaFree_call.mp h
      have hall : readWith.readAll I enter none args = some (args.map I.eval) := by
        clear h
        induction args with
        | nil => rfl
        | cons a as ihs =>
            rw [readWith.readAll, ih a (by simp) (hargs a (by simp)),
              ihs (fun b hb => ih b (by simp [hb])) (fun b hb => hargs b (by simp [hb]))]
            rfl
      rw [readWith, hall, hf]
      simp [eval, plain, Function.comp_def]
  | category c => rfl

/-! ## Binding parameters by substitution -/

section Substitution

variable (I : Interpretation D) {args : List Expr}

/-- The bindings a call makes of its expanded arguments. -/
abbrev bindingsOf (args : List Expr) : Bindings D := some (args.map I.eval)

theorem readCategory_of_paramCategory {c c' : CategoryId}
    (h : paramCategory args c = .ok c') :
    readCategory (I.bindingsOf args) c = some c' := by
  unfold paramCategory at h
  unfold readCategory
  cases hc : lambdaCategoryOf c with
  | none =>
      rw [hc] at h
      simpa using h
  | some i =>
      rw [hc] at h
      simp only at h
      split at h
      · next a ha =>
          cases h
          simp [ha, eval, readingOfCategory]
      · simp at h

theorem readCategories_of_paramCategories {cs cs' : List CategoryId}
    (h : paramCategories args cs = .ok cs') :
    readCategories (I.bindingsOf args) cs = some cs' := by
  induction cs generalizing cs' with
  | nil => simpa [paramCategories, readCategories] using h
  | cons c cs ih =>
      simp only [paramCategories, bind_eq_ok_iff] at h
      obtain ⟨c', hc, cs'', hcs, hres⟩ := h
      cases hres
      simp [readCategories, I.readCategory_of_paramCategory hc, ih hcs]

theorem readSpec_of_paramSpec {spec spec' : DimensionSpec}
    (h : paramSpec args spec = .ok spec') :
    readSpec (I.bindingsOf args) spec = some spec' := by
  simp only [paramSpec, bind_eq_ok_iff] at h
  obtain ⟨b, hb, o, ho, x, hx, hres⟩ := h
  cases hres
  simp [readSpec, I.readCategories_of_paramCategories hb,
    I.readCategories_of_paramCategories ho, I.readCategories_of_paramCategories hx]

theorem boundArg_bindingsOf (m : MeasureId) :
    boundArg (I.bindingsOf args) m =
      ((lambdaParamOf m).bind (args[·]?)).map I.eval := by
  cases h : lambdaParamOf m <;> simp [boundArg, h]

/-- Substituting the arguments in a reference and binding their readings give
the same reading. -/
theorem readRef_of_bindRef {m : MeasureId} {spec : DimensionSpec} {e : Expr}
    (enter : Nat → List (Reading D) → Option (Reading D))
    (hargs : ∀ a ∈ args, a.LambdaFree)
    (h : (do bindRef args m (← paramSpec args spec)) = .ok e) :
    I.readRef (I.bindingsOf args) m spec = I.readWith enter none e := by
  obtain ⟨spec', hspec, h⟩ := bind_eq_ok_iff.mp h
  rw [readRef, I.readSpec_of_paramSpec hspec, Option.bind_some, boundArg_bindingsOf]
  cases hi : lambdaParamOf m with
  | none =>
      simp only [bindRef, hi, Option.bind_none, Except.ok.injEq] at h
      subst h
      simp [readWith, readRef_none]
  | some i =>
      cases ha : args[i]? with
      | none =>
          simp only [bindRef, hi, ha, Option.bind_some, Option.map_none, Except.ok.injEq] at h
          subst h
          simp [readWith, readRef_none, ha]
      | some a =>
          have hfree := hargs a (List.mem_of_getElem? ha)
          simp only [bindRef, hi, ha, Option.bind_some, Option.map_some] at h ⊢
          split at h
          · next hdef =>
              cases h
              rw [if_pos hdef, I.readWith_of_lambdaFree enter hfree]
          · next hdef =>
              rw [if_neg hdef]
              split at h
              · cases h
                simp [eval, readingOfRef, readWith, readRef_none]
              · simp at h

/-- Substitution lemma: the body in the bindings of the arguments reads as the
body with the arguments substituted, outside every lambda. -/
theorem readWith_of_substituteParams
    (enter : Nat → List (Reading D) → Option (Reading D))
    (hargs : ∀ a ∈ args, a.LambdaFree) {body e : Expr}
    (h : substituteParams args body = .ok e) :
    I.readWith enter (I.bindingsOf args) body = I.readWith enter none e := by
  induction body generalizing e with
  | literal v =>
      cases h
      rfl
  | ref m spec => exact I.readRef_of_bindRef enter hargs h
  | unaryOp op a iha =>
      simp only [substituteParams, bind_eq_ok_iff] at h
      obtain ⟨a', ha, hres⟩ := h
      cases hres
      simp only [readWith, iha ha]
  | binaryOp op a b iha ihb =>
      simp only [substituteParams, bind_eq_ok_iff] at h
      obtain ⟨a', ha, b', hb, hres⟩ := h
      cases hres
      simp only [readWith, iha ha, ihb hb]
  | call f as ih =>
      simp only [substituteParams, bind_eq_ok_iff] at h
      obtain ⟨as', has, hres⟩ := h
      cases hres
      have hall : readWith.readAll I enter (I.bindingsOf args) as =
          readWith.readAll I enter none as' := by
        induction as generalizing as' with
        | nil =>
            cases has
            rfl
        | cons x xs ihs =>
            simp only [substituteParams.substituteAll, bind_eq_ok_iff] at has
            obtain ⟨x', hx, xs', hxs, hres⟩ := has
            cases hres
            simp only [readWith.readAll, ih x (by simp) hx,
              ihs (fun y hy => ih y (by simp [hy])) xs' hxs]
      simp only [readWith, hall]
  | category c =>
      simp only [substituteParams, bind_eq_ok_iff] at h
      obtain ⟨c', hc, hres⟩ := h
      cases hres
      rw [readWith, readWith, I.readCategory_of_paramCategory hc]
      rfl

end Substitution

end Interpretation

/-- Substituting arguments without calls keeps exactly the calls of the body. -/
theorem lambdaCalls_substituteParams {args : List Expr} (hargs : ∀ a ∈ args, a.LambdaFree)
    {body e : Expr} (h : substituteParams args body = .ok e) :
    e.lambdaCalls = body.lambdaCalls := by
  induction body generalizing e with
  | literal v =>
      cases h
      rfl
  | ref m spec =>
      obtain ⟨spec', -, h⟩ := bind_eq_ok_iff.mp h
      unfold bindRef at h
      split at h
      · cases h
        rfl
      · next i a ha =>
          obtain ⟨j, -, hj⟩ := Option.bind_eq_some_iff.mp ha
          obtain ⟨a', ha', heq⟩ := Option.map_eq_some_iff.mp hj
          cases heq
          have hfree := hargs a (List.mem_of_getElem? ha')
          split at h
          · cases h
            exact hfree
          · split at h
            · cases h
              rfl
            · simp at h
  | unaryOp op a iha =>
      simp only [substituteParams, bind_eq_ok_iff] at h
      obtain ⟨a', ha, hres⟩ := h
      cases hres
      simp only [Expr.lambdaCalls, iha ha]
  | binaryOp op a b iha ihb =>
      simp only [substituteParams, bind_eq_ok_iff] at h
      obtain ⟨a', ha, b', hb, hres⟩ := h
      cases hres
      simp only [Expr.lambdaCalls, iha ha, ihb hb]
  | call f as ih =>
      simp only [substituteParams, bind_eq_ok_iff] at h
      obtain ⟨as', has, hres⟩ := h
      cases hres
      have hall : as'.length = as.length ∧
          as'.flatMap (·.lambdaCalls) = as.flatMap (·.lambdaCalls) := by
        induction as generalizing as' with
        | nil =>
            cases has
            simp
        | cons x xs ihs =>
            simp only [substituteParams.substituteAll, bind_eq_ok_iff] at has
            obtain ⟨x', hx, xs', hxs, hres⟩ := has
            cases hres
            have htail := ihs (fun y hy => ih y (by simp [hy])) xs' hxs
            simp [ih x (by simp) hx, htail]
      simp [Expr.lambdaCalls, hall]
  | category c =>
      simp only [substituteParams, bind_eq_ok_iff] at h
      obtain ⟨c', -, hres⟩ := h
      cases hres
      rfl

end Improv.CoreModel
