import Mathlib.Algebra.GroupWithZero.Nat
import Mathlib.Algebra.BigOperators.Group.List.Basic
import Improv.CoreModel.Value
/-!
# The formula AST

Formulas are defined over measure ids and categories, not over cell addresses.
This module gives the expression tree with its size limits: the depth and the
node count that every way a formula enters is held to.  The tree walk keeps
the explicit work list of the source, and is tied to the recursive depth and
node count that the rest of the development reasons about.
-/

namespace Improv.CoreModel

/-- A built-in or user-defined function. -/
structure FuncId where
  id : Nat
deriving DecidableEq

/-- How a measure reference is projected: categories to keep, to aggregate
over, and to drop. -/
structure DimensionSpec where
  byCats : List CategoryId
  overCats : List CategoryId
  exceptCats : List CategoryId
deriving DecidableEq

/-- The default specification: no projection. -/
def DimensionSpec.default : DimensionSpec := ⟨[], [], []⟩

inductive UnaryOp
  | neg
  | not
deriving DecidableEq

inductive BinaryOp
  | add
  | sub
  | mul
  | div
  | and
  | or
  | eq
  | ne
  | lt
  | le
  | gt
  | ge
  | pow
  | concat
deriving DecidableEq

/-- A formula expression. -/
inductive Expr
  | literal (v : Value)
  | ref (m : MeasureId) (spec : DimensionSpec)
  | unaryOp (op : UnaryOp) (a : Expr)
  | binaryOp (op : BinaryOp) (a b : Expr)
  | call (f : FuncId) (args : List Expr)
  | category (c : CategoryId)

instance : Inhabited Expr := ⟨.category ⟨0⟩⟩

namespace Expr

/-- Structural induction with the hypothesis for every argument of a call. -/
@[elab_as_elim, induction_eliminator]
theorem ind {motive : Expr → Prop}
    (literal : ∀ v, motive (literal v))
    (ref : ∀ m spec, motive (ref m spec))
    (unaryOp : ∀ op a, motive a → motive (unaryOp op a))
    (binaryOp : ∀ op a b, motive a → motive b → motive (binaryOp op a b))
    (call : ∀ f args, (∀ a ∈ args, motive a) → motive (call f args))
    (category : ∀ c, motive (category c)) (e : Expr) : motive e :=
  @Expr.rec motive (fun args => ∀ a ∈ args, motive a) literal ref unaryOp binaryOp call category
    (by simp) (by simp +contextual) e

/-! ## Deciding equality -/

mutual

/-- Equality of two expressions, argument lists included. -/
def decEq : (a b : Expr) → Decidable (a = b)
  | .literal v, .literal w => decidable_of_iff (v = w) (by simp)
  | .ref m s, .ref n t => decidable_of_iff (m = n ∧ s = t) (by simp)
  | .unaryOp o a, .unaryOp p b =>
    have := decEq a b
    decidable_of_iff (o = p ∧ a = b) (by simp)
  | .binaryOp o a b, .binaryOp p c d =>
    have := decEq a c
    have := decEq b d
    decidable_of_iff (o = p ∧ a = c ∧ b = d) (by simp)
  | .call f as, .call g bs =>
    have := decEqs as bs
    decidable_of_iff (f = g ∧ as = bs) (by simp)
  | .category c, .category d => decidable_of_iff (c = d) (by simp)
  | .literal _, .ref .. | .literal _, .unaryOp .. | .literal _, .binaryOp ..
  | .literal _, .call .. | .literal _, .category _
  | .ref .., .literal _ | .ref .., .unaryOp .. | .ref .., .binaryOp ..
  | .ref .., .call .. | .ref .., .category _
  | .unaryOp .., .literal _ | .unaryOp .., .ref .. | .unaryOp .., .binaryOp ..
  | .unaryOp .., .call .. | .unaryOp .., .category _
  | .binaryOp .., .literal _ | .binaryOp .., .ref .. | .binaryOp .., .unaryOp ..
  | .binaryOp .., .call .. | .binaryOp .., .category _
  | .call .., .literal _ | .call .., .ref .. | .call .., .unaryOp ..
  | .call .., .binaryOp .. | .call .., .category _
  | .category _, .literal _ | .category _, .ref .. | .category _, .unaryOp ..
  | .category _, .binaryOp .. | .category _, .call .. => isFalse (by simp)

/-- Equality of two argument lists. -/
def decEqs : (as bs : List Expr) → Decidable (as = bs)
  | [], [] => isTrue rfl
  | a :: as, b :: bs =>
    have := decEq a b
    have := decEqs as bs
    decidable_of_iff (a = b ∧ as = bs) (by simp)
  | [], _ :: _ | _ :: _, [] => isFalse (by simp)

end

instance : DecidableEq Expr := decEq

/-! ## Depth and node count -/

/-- How many levels a lazy call adds, beyond its own, when the engine rewrites
it into nested `IF`s. -/
def lazyLevels (f : FuncId) (args : Nat) : Nat :=
  match f.id with
  | 31 => args / 2 - 1
  | 32 => (args - 1) / 2
  | 33 => args
  | 36 | 37 => if args < 2 then 2 else 1
  | 34 | 35 => 1
  | _ => 0

/-- How many nodes a formula's tree may have once lambdas are expanded. -/
def maxFormulaNodes : Nat := 100000

/-- How deep a new formula's tree may nest, a leaf counting as one level. -/
def maxFormulaDepth : Nat := 256

/-- How deep a stored formula and a named-lambda expansion may nest. -/
def maxStoredFormulaDepth : Nat := maxFormulaDepth

/-- The subtrees pushed when a node at level `d` is popped, with their levels;
the one pushed last stands first, since it is popped first. -/
def pushed : Expr → Nat → List (Expr × Nat)
  | .literal _, _ | .ref .., _ | .category _, _ => []
  | .unaryOp _ a, d => [(a, d + 1)]
  | .binaryOp _ a b, d => [(b, d + 1), (a, d + 1)]
  | .call f args, d =>
    (args.map fun a => (a, d + 1 + lazyLevels f args.length)).reverse

/-- The work-list loop of `depthAndNodes`: `left` bounds the nodes still to be
popped before the count passes `maxFormulaNodes`. -/
def walk : (left depth nodes : Nat) → List (Expr × Nat) → Nat × Nat
  | _, depth, nodes, [] => (depth, nodes)
  | 0, depth, nodes, _ :: _ => (depth, nodes)
  | left + 1, depth, nodes, (e, d) :: todo =>
    if maxFormulaNodes < nodes + 1 then (max depth d, nodes + 1)
    else walk left (max depth d) (nodes + 1) (e.pushed d ++ todo)

/-- The tree's depth as the engine walks it and its node count; the walk stops
once the count passes `maxFormulaNodes`. -/
def depthAndNodes (e : Expr) : Nat × Nat :=
  walk (maxFormulaNodes + 1) 0 0 [(e, 1)]

/-- The error for a tree `depth` levels deep, past `max`. -/
def tooDeep (depth max : Nat) : String :=
  s!"formula nests too deeply ({depth} levels; the limit is {max})"

/-- The error for a tree past `maxFormulaNodes`. -/
def tooLarge : String :=
  s!"formula is too large (more than {maxFormulaNodes} terms once LET and LAMBDA are expanded)"

/-- An error when the tree is deeper than `max` or larger than
`maxFormulaNodes`. -/
def checkDepth (e : Expr) (max : Nat) : Except String Unit :=
  let (depth, nodes) := e.depthAndNodes
  if maxFormulaNodes < nodes then .error tooLarge
  else if max < depth then .error (tooDeep depth max)
  else .ok ()

/-- The limits on a new formula. -/
def checkLimits (e : Expr) : Except String Unit :=
  e.checkDepth maxFormulaDepth

/-- The node count. -/
def nodes : Expr → Nat
  | .literal _ | .ref .. | .category _ => 1
  | .unaryOp _ a => 1 + a.nodes
  | .binaryOp _ a b => 1 + a.nodes + b.nodes
  | .call _ args => 1 + nodesOf args
where
  nodesOf : List Expr → Nat
    | [] => 0
    | a :: as => a.nodes + nodesOf as

/-- The deepest level of the tree when its root stands at level `d`. -/
def depthFrom : Expr → Nat → Nat
  | .literal _, d | .ref .., d | .category _, d => d
  | .unaryOp _ a, d => max d (a.depthFrom (d + 1))
  | .binaryOp _ a b, d => max d (max (a.depthFrom (d + 1)) (b.depthFrom (d + 1)))
  | .call f args, d => max d (depthOf args (d + 1 + lazyLevels f args.length))
where
  depthOf : List Expr → Nat → Nat
    | [], _ => 0
    | a :: as, d => max (a.depthFrom d) (depthOf as d)

/-- The tree's depth, a leaf being one level deep. -/
def depth (e : Expr) : Nat := e.depthFrom 1

@[simp] theorem nodesOf_eq (args : List Expr) :
    nodes.nodesOf args = (args.map (·.nodes)).sum := by
  induction args with
  | nil => rfl
  | cons a as ih => simp [nodes.nodesOf, ih]

theorem depthOf_eq (args : List Expr) (d : Nat) :
    depthFrom.depthOf args d = (args.map (·.depthFrom d)).foldr max 0 := by
  induction args with
  | nil => rfl
  | cons a as ih => simp [depthFrom.depthOf, ih]

theorem le_depthFrom (e : Expr) (d : Nat) : d ≤ e.depthFrom d := by
  cases e <;> simp [depthFrom, Nat.le_max_left]

/-! ## The walk computes the depth and the node count -/

/-- Nodes still on the work list. -/
def pending (todo : List (Expr × Nat)) : Nat := (todo.map (·.1.nodes)).sum

/-- Deepest level still on the work list. -/
def pendingDepth (todo : List (Expr × Nat)) : Nat :=
  (todo.map fun p => p.1.depthFrom p.2).foldr max 0

@[simp] theorem pending_nil : pending [] = 0 := rfl

@[simp] theorem pending_cons (p : Expr × Nat) (todo : List (Expr × Nat)) :
    pending (p :: todo) = p.1.nodes + pending todo := by
  simp [pending]

@[simp] theorem pending_append (as bs : List (Expr × Nat)) :
    pending (as ++ bs) = pending as + pending bs := by
  simp [pending]

@[simp] theorem pendingDepth_nil : pendingDepth [] = 0 := rfl

@[simp] theorem pendingDepth_cons (p : Expr × Nat) (todo : List (Expr × Nat)) :
    pendingDepth (p :: todo) = max (p.1.depthFrom p.2) (pendingDepth todo) := by
  simp [pendingDepth]

@[simp] theorem pendingDepth_append (as bs : List (Expr × Nat)) :
    pendingDepth (as ++ bs) = max (pendingDepth as) (pendingDepth bs) := by
  induction as with
  | nil => simp
  | cons p as ih => simp [ih, Nat.max_assoc]

theorem pendingDepth_reverse (as : List (Expr × Nat)) :
    pendingDepth as.reverse = pendingDepth as := by
  induction as with
  | nil => rfl
  | cons p as ih => simp [ih, Nat.max_comm]

theorem pending_pushed (e : Expr) (d : Nat) :
    pending (e.pushed d) + 1 = e.nodes := by
  cases e with
  | call f args => simp [pushed, pending, nodes, Function.comp_def]; omega
  | literal _ | ref _ _ | category _ => rfl
  | unaryOp _ a => simp [pushed, nodes]; omega
  | binaryOp _ a b => simp [pushed, nodes]; omega

theorem max_pendingDepth_pushed (e : Expr) (d : Nat) :
    max d (pendingDepth (e.pushed d)) = e.depthFrom d := by
  cases e with
  | call f args =>
      rw [pushed, pendingDepth_reverse, depthFrom, depthOf_eq]
      simp [pendingDepth, Function.comp_def]
  | literal _ | ref _ _ | category _ => simp [pushed, depthFrom]
  | unaryOp _ a => simp [pushed, depthFrom]
  | binaryOp _ a b => simp [pushed, depthFrom, Nat.max_comm]

/-- A walk that is not cut short returns the depth and the count of all that is
on its work list. -/
theorem walk_eq {left depth nodes : Nat} {todo : List (Expr × Nat)}
    (hleft : left + nodes = maxFormulaNodes + 1)
    (hsmall : nodes + pending todo ≤ maxFormulaNodes) :
    walk left depth nodes todo =
      (max depth (pendingDepth todo), nodes + pending todo) := by
  induction left generalizing depth nodes todo with
  | zero => omega
  | succ left ih =>
      cases todo with
      | nil => simp [walk]
      | cons p todo =>
          obtain ⟨e, d⟩ := p
          have hnodes := pending_pushed e d
          have hdepth := max_pendingDepth_pushed e d
          simp only [pending_cons] at hsmall
          rw [walk, if_neg (by omega), ih (by omega) (by simp; omega)]
          simp only [pendingDepth_append, pending_append, pendingDepth_cons,
            pending_cons, Prod.mk.injEq]
          exact ⟨by omega, by omega⟩

/-- A walk over too many nodes ends with a count past the limit. -/
theorem lt_walk {left depth nodes : Nat} {todo : List (Expr × Nat)}
    (hleft : left + nodes = maxFormulaNodes + 1) (hnodes : nodes ≤ maxFormulaNodes)
    (hlarge : maxFormulaNodes < nodes + pending todo) :
    maxFormulaNodes < (walk left depth nodes todo).2 := by
  induction left generalizing depth nodes todo with
  | zero => omega
  | succ left ih =>
      cases todo with
      | nil => simp at hlarge; omega
      | cons p todo =>
          obtain ⟨e, d⟩ := p
          have hpushed := pending_pushed e d
          simp only [pending_cons] at hlarge
          rw [walk]
          split
          · assumption
          · exact ih (by omega) (by omega) (by simp; omega)

theorem depthAndNodes_eq {e : Expr} (h : e.nodes ≤ maxFormulaNodes) :
    e.depthAndNodes = (e.depth, e.nodes) := by
  rw [depthAndNodes, walk_eq (by omega) (by simpa using h)]
  simp [depth]

theorem lt_depthAndNodes {e : Expr} (h : maxFormulaNodes < e.nodes) :
    maxFormulaNodes < e.depthAndNodes.2 :=
  lt_walk (by omega) (by omega) (by simpa using h)

/-- `checkDepth` accepts exactly the trees within both limits. -/
theorem checkDepth_eq_ok_iff (e : Expr) (max : Nat) :
    e.checkDepth max = .ok () ↔ e.nodes ≤ maxFormulaNodes ∧ e.depth ≤ max := by
  by_cases hn : e.nodes ≤ maxFormulaNodes
  · simp only [checkDepth, depthAndNodes_eq hn, if_neg (Nat.not_lt.mpr hn), hn, true_and]
    split <;> simp <;> omega
  · have hlt := lt_depthAndNodes (Nat.lt_of_not_le hn)
    simp only [checkDepth, if_pos hlt, hn, false_and]
    simp

/-! ## Referenced measures -/

/-- Every measure an expression references, in traversal order and with
duplicates. -/
def referencedMeasures : Expr → List MeasureId
  | .literal _ | .category _ => []
  | .ref m _ => [m]
  | .unaryOp _ a => a.referencedMeasures
  | .binaryOp _ a b => a.referencedMeasures ++ b.referencedMeasures
  | .call _ args => collectRefs args
where
  collectRefs : List Expr → List MeasureId
    | [] => []
    | a :: as => a.referencedMeasures ++ collectRefs as

end Expr

end Improv.CoreModel
