import Improv.CoreModel.Model
import Improv.Engine.Derived
import Improv.Engine.TwoLevelGroups
/-!
# Sparse reductions

A reduction that goes in two levels where its groups are large is marked to go
flat where they are sparse, by a guess from the cells there are when the plans
are made.  The mark only moves cost: the marked plans build the collections the
plans do.
-/

namespace Improv.Engine

open Improv.Lib Improv.Lib.Bag Improv.CoreModel

/-! ## The marks -/

/-- The plan nodes a plan reads. -/
def kids : PlanNode → List PlanNode
  | .mapUnary _ a _ | .remap a _ _ => [a]
  | .mapBinary _ a b _ | .join a b _ _ => [a, b]
  | .aggregate inputs params pred _ _ _ _ _ _ _ _ => inputs ++ params ++ pred.toList
  | .coalesce args _ _ | .funcCall _ args _ => args
  | .cond test branch otherwise _ _ => [test, branch] ++ otherwise.toList
  | _ => []

mutual

/-- A plan and the nodes under it, parents first. -/
def preorder : PlanNode → List PlanNode
  | .mapUnary op a ty => .mapUnary op a ty :: preorder a
  | .remap a maps ty => .remap a maps ty :: preorder a
  | .mapBinary op a b ty => .mapBinary op a b ty :: (preorder a ++ preorder b)
  | .join a b keys ty => .join a b keys ty :: (preorder a ++ preorder b)
  | .aggregate inputs params pred groupBy func order window perItem into flat ty =>
    .aggregate inputs params pred groupBy func order window perItem into flat ty ::
      (preorderAll inputs ++ preorderAll params ++ preorderOpt pred)
  | .coalesce args grid ty => .coalesce args grid ty :: preorderAll args
  | .funcCall func args ty => .funcCall func args ty :: preorderAll args
  | .cond test branch otherwise spanning ty =>
    .cond test branch otherwise spanning ty ::
      (preorder test ++ preorder branch ++ preorderOpt otherwise)
  | p => [p]

def preorderAll : List PlanNode → List PlanNode
  | [] => []
  | p :: ps => preorder p ++ preorderAll ps

def preorderOpt : Option PlanNode → List PlanNode
  | none => []
  | some p => preorder p

end

mutual

/-- The measures a plan reads through the nodes of `kids`. -/
def reads : PlanNode → List MeasureId
  | .inputMeasure m _ => [m]
  | .mapUnary _ a _ | .remap a _ _ => reads a
  | .mapBinary _ a b _ | .join a b _ _ => reads a ++ reads b
  | .aggregate inputs params pred _ _ _ _ _ _ _ _ =>
    readsAll inputs ++ readsAll params ++ readsOpt pred
  | .coalesce args _ _ | .funcCall _ args _ => readsAll args
  | .cond test branch otherwise _ _ => reads test ++ reads branch ++ readsOpt otherwise
  | _ => []

def readsAll : List PlanNode → List MeasureId
  | [] => []
  | p :: ps => reads p ++ readsAll ps

def readsOpt : Option PlanNode → List MeasureId
  | none => []
  | some p => reads p

end

/-- Whether a reduction may be marked: one result a group, in two levels, of a
function that gives the same bits either way. -/
def markable (func : FuncId) (inputs params : Nat) (order : ItemOrder) (window : Option Window)
    (perItem : Bool) (into : ItemOrder) : Bool :=
  window.isNone && !perItem && into.isEmpty && !decide (func.id = 5 ∨ func.id = 6) &&
    twoLevelApplies func inputs params order

section Mark

variable (sparse : List MeasureId → List CategoryId → Bool)

mutual

/-- A plan with each reduction that may be marked reduced flat where its groups
are sparse, by the measures it reduces and the categories it groups by. -/
def mark : PlanNode → PlanNode
  | .mapUnary op a ty => .mapUnary op (mark a) ty
  | .remap a maps ty => .remap (mark a) maps ty
  | .mapBinary op a b ty => .mapBinary op (mark a) (mark b) ty
  | .join a b keys ty => .join (mark a) (mark b) keys ty
  | .cond test branch otherwise spanning ty =>
    .cond (mark test) (mark branch) (markOpt otherwise) spanning ty
  | .funcCall func args ty => .funcCall func (markAll args) ty
  | .coalesce args grid ty => .coalesce (markAll args) grid ty
  | .aggregate inputs params pred groupBy func order window perItem into flat ty =>
    .aggregate (markAll inputs) (markAll params) (markOpt pred) groupBy func order window perItem
      into (if markable func inputs.length params.length order window perItem into then
        sparse (readsAll inputs) groupBy else flat) ty
  | p => p

def markAll : List PlanNode → List PlanNode
  | [] => []
  | p :: ps => mark p :: markAll ps

def markOpt : Option PlanNode → Option PlanNode
  | none => none
  | some p => some (mark p)

end

end Mark

/-- How many cells a measure has, as far as they are estimated. -/
abbrev Estimates := MeasureId → Option Nat

/-- The most cells any of some measures has. -/
def mostCells (est : Estimates) (ms : List MeasureId) : Nat := (ms.filterMap est).max?.getD 0

/-- Whether a reduction of `ms` by `groupBy` has at most `flatMax` rows a group
on average: the groups are counted by the items there are, modulo the machine's
word, and their product with `flatMax` stops at its largest. -/
def sparseGroups (items : CategoryId → Nat) (est : Estimates) (ms : List MeasureId)
    (groupBy : List CategoryId) : Bool :=
  let groups := (groupBy.map items).prod % 2 ^ 64
  decide (mostCells est ms ≤ min (groups * flatMax) (2 ^ 64 - 1))

/-- Each plan marked by the estimates so far; a derived measure has at most the
cells of what it reads. -/
def markPlans (items : CategoryId → Nat) : Estimates → Plans → Plans
  | _, [] => []
  | est, (m, p) :: plans =>
    (m, mark (sparseGroups items est) p) ::
      markPlans items (fun n => if n = m then some (mostCells est (reads p)) else est n) plans

/-- The cells of the input measures that have any. -/
def inputCells (model : Model) : Estimates := fun m =>
  match (model.inputs.keys.filter fun cell => cell.measure = m).length with
  | 0 => none
  | n => some n

/-- The items a category has, at least one. -/
def itemCount (model : Model) (c : CategoryId) : Nat :=
  ((model.categories.get? c).map fun cat => max cat.items.length 1).getD 1

/-- The sparse reductions of a model's plans marked to go flat. -/
def markSparse (model : Model) (plans : Plans) : Plans :=
  markPlans (itemCount model) (inputCells model) plans

/-! ## Marks are not seen -/

section Mark

variable (sparse : List MeasureId → List CategoryId → Bool)

theorem markAll_eq_map (ps : List PlanNode) : markAll sparse ps = ps.map (mark sparse) := by
  induction ps with
  | nil => rfl
  | cons p ps ih =>
      rw [markAll, List.map_cons, ih]

theorem markOpt_eq_map (p : Option PlanNode) : markOpt sparse p = p.map (mark sparse) := by
  cases p <;> rfl

@[simp] theorem ty_mark (p : PlanNode) : (mark sparse p).ty = p.ty := by
  cases p <;> rfl

@[simp] theorem cats_mark (p : PlanNode) : (mark sparse p).cats = p.cats := by
  rw [PlanNode.cats, ty_mark, PlanNode.cats]

@[simp] theorem literalValue_mark (p : PlanNode) :
    literalValue (mark sparse p) = literalValue p := by
  cases p <;> rfl

@[simp] theorem folded_mark (p : PlanNode) : folded (mark sparse p) = folded p := by
  cases p with
  | mapUnary op a ty =>
      cases op with
      | neg => exact congrArg (Option.map _) (literalValue_mark sparse a)
      | not => rfl
  | _ => rfl

theorem orderRoute_mark (func : FuncId) (inputs : Nat) (params : List PlanNode) (perItem : Bool)
    (window : Option Window) (order into : ItemOrder) :
    orderRoute func inputs (params.map (mark sparse)) perItem window order into =
      orderRoute func inputs params perItem window order into := by
  have hfolded : folded ∘ mark sparse = folded := by
    ext p : 1
    exact folded_mark sparse p
  unfold orderRoute
  rw [List.map_map, hfolded]

theorem functional_mark (f : MeasureId → Bool) :
    (p : PlanNode) → functional f (mark sparse p) = functional f p
  | .mapUnary _ a _ => functional_mark f a
  | .mapBinary _ a b _ => by
      rw [mark, functional, functional, literalValue_mark, literalValue_mark, functional_mark f a,
        functional_mark f b]
  | .join a b _ _ => by
      rw [mark, functional, functional, functional_mark f a, functional_mark f b]
  | .aggregate ins params _ _ _ _ _ _ _ _ _ => by
      rw [mark, functional, functional, markAll_eq_map, markAll_eq_map, List.length_map,
        orderRoute_mark]
  | .inputMeasure .. | .literal .. | .items .. | .recurrence .. | .coalesce .. | .remap ..
  | .shift .. | .funcCall .. | .fixpoint .. | .cond .. => rfl

/-! ### Plans compared -/

mutual

theorem reads_of_samePlan : (p q : PlanNode) → samePlan p q = true → reads p = reads q
  | .inputMeasure m _, q, h => by
      cases q with
      | inputMeasure n _ =>
          simp only [samePlan, decide_eq_true_eq] at h
          rw [reads, reads, h.1]
      | _ => simp [samePlan] at h
  | .mapUnary _ a _, q, h => by
      cases q with
      | mapUnary _ b _ =>
          simp only [samePlan, Bool.and_eq_true] at h
          exact reads_of_samePlan a b h.2
      | _ => simp [samePlan] at h
  | .remap a _ _, q, h => by
      cases q with
      | remap b _ _ =>
          simp only [samePlan, Bool.and_eq_true] at h
          exact reads_of_samePlan a b h.2
      | _ => simp [samePlan] at h
  | .mapBinary _ a b _, q, h => by
      cases q with
      | mapBinary _ c d _ =>
          simp only [samePlan, Bool.and_eq_true] at h
          rw [reads, reads, reads_of_samePlan a c h.1.2, reads_of_samePlan b d h.2]
      | _ => simp [samePlan] at h
  | .join a b _ _, q, h => by
      cases q with
      | join c d _ _ =>
          simp only [samePlan, Bool.and_eq_true] at h
          rw [reads, reads, reads_of_samePlan a c h.1.2, reads_of_samePlan b d h.2]
      | _ => simp [samePlan] at h
  | .aggregate is ps p _ _ _ _ _ _ _ _, q, h => by
      cases q with
      | aggregate is' ps' p' _ _ _ _ _ _ _ _ =>
          simp only [samePlan, Bool.and_eq_true] at h
          rw [reads, reads, (readsAll_of_samePlans is is' h.1.1.2).2,
            (readsAll_of_samePlans ps ps' h.1.2).2, readsOpt_of_samePlanOpt p p' h.2]
      | _ => simp [samePlan] at h
  | .coalesce as _ _, q, h => by
      cases q with
      | coalesce bs _ _ =>
          simp only [samePlan, Bool.and_eq_true] at h
          exact (readsAll_of_samePlans as bs h.2).2
      | _ => simp [samePlan] at h
  | .funcCall _ as _, q, h => by
      cases q with
      | funcCall _ bs _ =>
          simp only [samePlan, Bool.and_eq_true] at h
          exact (readsAll_of_samePlans as bs h.2).2
      | _ => simp [samePlan] at h
  | .cond a b c _ _, q, h => by
      cases q with
      | cond a' b' c' _ _ =>
          simp only [samePlan, Bool.and_eq_true] at h
          rw [reads, reads, reads_of_samePlan a a' h.1.1.2, reads_of_samePlan b b' h.1.2,
            readsOpt_of_samePlanOpt c c' h.2]
      | _ => simp [samePlan] at h
  | .literal .., q, h | .items .., q, h | .recurrence .., q, h | .shift .., q, h
  | .fixpoint .., q, h => by
      cases q with
      | literal | items | recurrence | shift | fixpoint => rfl
      | _ => simp [samePlan] at h

theorem readsAll_of_samePlans : (ps qs : List PlanNode) → samePlans ps qs = true →
    ps.length = qs.length ∧ readsAll ps = readsAll qs
  | [], [], _ => ⟨rfl, rfl⟩
  | [], _ :: _, h => by simp [samePlans] at h
  | _ :: _, [], h => by simp [samePlans] at h
  | p :: ps, q :: qs, h => by
      rw [samePlans, Bool.and_eq_true] at h
      obtain ⟨hlength, hreads⟩ := readsAll_of_samePlans ps qs h.2
      rw [readsAll, readsAll, reads_of_samePlan p q h.1, hreads, List.length_cons,
        List.length_cons, hlength]
      exact ⟨rfl, rfl⟩

theorem readsOpt_of_samePlanOpt : (p q : Option PlanNode) → samePlanOpt p q = true →
    readsOpt p = readsOpt q
  | none, none, _ => rfl
  | none, some _, h => by simp [samePlanOpt] at h
  | some _, none, h => by simp [samePlanOpt] at h
  | some p, some q, h => by
      rw [samePlanOpt] at h
      rw [readsOpt, readsOpt, reads_of_samePlan p q h]

end

/-- Whether a node is a reduction marked to go flat. -/
def isMarked : PlanNode → Bool
  | .aggregate _ _ _ _ _ _ _ _ _ flat _ => flat
  | _ => false

mutual

/-- Marked plans compare as the plans do. -/
theorem samePlan_mark : (p q : PlanNode) → (∀ x ∈ preorder p, isMarked x = false) →
    (∀ x ∈ preorder q, isMarked x = false) →
      samePlan (mark sparse p) (mark sparse q) = samePlan p q
  | .mapUnary _ a _, q, hp, hq => by
      cases q with
      | mapUnary _ b _ =>
          rw [preorder, List.forall_mem_cons] at hp hq
          rw [mark, mark, samePlan, samePlan, samePlan_mark a b hp.2 hq.2]
      | _ => simp [samePlan, mark]
  | .remap a _ _, q, hp, hq => by
      cases q with
      | remap b _ _ =>
          rw [preorder, List.forall_mem_cons] at hp hq
          rw [mark, mark, samePlan, samePlan, samePlan_mark a b hp.2 hq.2]
      | _ => simp [samePlan, mark]
  | .mapBinary _ a b _, q, hp, hq => by
      cases q with
      | mapBinary _ c d _ =>
          rw [preorder, List.forall_mem_cons, List.forall_mem_append] at hp hq
          rw [mark, mark, samePlan, samePlan, samePlan_mark a c hp.2.1 hq.2.1,
            samePlan_mark b d hp.2.2 hq.2.2]
      | _ => simp [samePlan, mark]
  | .join a b _ _, q, hp, hq => by
      cases q with
      | join c d _ _ =>
          rw [preorder, List.forall_mem_cons, List.forall_mem_append] at hp hq
          rw [mark, mark, samePlan, samePlan, samePlan_mark a c hp.2.1 hq.2.1,
            samePlan_mark b d hp.2.2 hq.2.2]
      | _ => simp [samePlan, mark]
  | .aggregate is ps p g f o w r n l t, q, hp, hq => by
      cases q with
      | aggregate is' ps' p' g' f' o' w' r' n' l' t' =>
          rw [preorder, List.forall_mem_cons, List.forall_mem_append,
            List.forall_mem_append] at hp hq
          obtain ⟨hl, ⟨his, hps⟩, hpred⟩ := hp
          obtain ⟨hl', ⟨his', hps'⟩, hpred'⟩ := hq
          simp only [isMarked] at hl hl'
          rw [mark, mark, samePlan, samePlan, samePlans_mark is is' his his',
            samePlans_mark ps ps' hps hps', samePlanOpt_mark p p' hpred hpred']
          -- The marks of equal reductions are equal.
          by_cases hsame : samePlans is is' = true ∧ samePlans ps ps' = true
          · obtain ⟨hilen, hireads⟩ := readsAll_of_samePlans is is' hsame.1
            obtain ⟨hplen, -⟩ := readsAll_of_samePlans ps ps' hsame.2
            congr 3
            refine decide_eq_decide.mpr ?_
            rw [hl, hl', hilen, hplen, hireads]
            constructor
            · rintro ⟨rfl, rfl, rfl, rfl, rfl, rfl, -, rfl⟩
              simp
            · rintro ⟨rfl, rfl, rfl, rfl, rfl, rfl, -, rfl⟩
              simp
          · rw [not_and_or, Bool.not_eq_true, Bool.not_eq_true] at hsame
            rcases hsame with hsame | hsame
            · simp [hsame]
            · simp [hsame]
      | _ => simp [samePlan, mark]
  | .coalesce as _ _, q, hp, hq => by
      cases q with
      | coalesce bs _ _ =>
          rw [preorder, List.forall_mem_cons] at hp hq
          rw [mark, mark, samePlan, samePlan, samePlans_mark as bs hp.2 hq.2]
      | _ => simp [samePlan, mark]
  | .funcCall _ as _, q, hp, hq => by
      cases q with
      | funcCall _ bs _ =>
          rw [preorder, List.forall_mem_cons] at hp hq
          rw [mark, mark, samePlan, samePlan, samePlans_mark as bs hp.2 hq.2]
      | _ => simp [samePlan, mark]
  | .cond a b c _ _, q, hp, hq => by
      cases q with
      | cond a' b' c' _ _ =>
          rw [preorder, List.forall_mem_cons, List.forall_mem_append,
            List.forall_mem_append] at hp hq
          obtain ⟨-, ⟨ha, hb⟩, hc⟩ := hp
          obtain ⟨-, ⟨ha', hb'⟩, hc'⟩ := hq
          rw [mark, mark, samePlan, samePlan, samePlan_mark a a' ha ha', samePlan_mark b b' hb hb',
            samePlanOpt_mark c c' hc hc']
      | _ => simp [samePlan, mark]
  | .inputMeasure .., q, _, _ | .literal .., q, _, _ | .items .., q, _, _
  | .recurrence .., q, _, _ | .shift .., q, _, _ | .fixpoint .., q, _, _ => by
      cases q <;> simp [samePlan, mark]

theorem samePlans_mark : (ps qs : List PlanNode) → (∀ x ∈ preorderAll ps, isMarked x = false) →
    (∀ x ∈ preorderAll qs, isMarked x = false) →
      samePlans (markAll sparse ps) (markAll sparse qs) = samePlans ps qs
  | [], [], _, _ => rfl
  | [], _ :: _, _, _ => rfl
  | _ :: _, [], _, _ => rfl
  | p :: ps, q :: qs, hp, hq => by
      rw [preorderAll, List.forall_mem_append] at hp hq
      rw [markAll, markAll, samePlans, samePlans, samePlan_mark p q hp.1 hq.1,
        samePlans_mark ps qs hp.2 hq.2]

theorem samePlanOpt_mark : (p q : Option PlanNode) → (∀ x ∈ preorderOpt p, isMarked x = false) →
    (∀ x ∈ preorderOpt q, isMarked x = false) →
      samePlanOpt (markOpt sparse p) (markOpt sparse q) = samePlanOpt p q
  | none, none, _, _ => rfl
  | none, some _, _, _ => rfl
  | some _, none, _, _ => rfl
  | some p, some q, hp, hq => by
      rw [markOpt, markOpt, samePlanOpt, samePlanOpt, samePlan_mark p q hp hq]

end

/-! ### Operators over marked plans -/

/-- A plan marked, with its collection. -/
def markNode (x : PlanNode × Coll) : PlanNode × Coll := (mark sparse x.1, x.2)

theorem zip_mark (ps : List PlanNode) (cs : List Coll) :
    (ps.map (mark sparse)).zip cs = (ps.zip cs).map (markNode sparse) := List.zip_map_left ..

theorem alignAll_mark (extra : List CategoryId) (rows : Lines) (dim : List CategoryId)
    (nodes : List (PlanNode × Coll)) :
    alignAll extra rows dim (nodes.map (markNode sparse)) = alignAll extra rows dim nodes := by
  induction nodes generalizing rows dim with
  | nil => rfl
  | cons n nodes ih =>
      rw [List.map_cons, alignAll, alignAll, ih, markNode, cats_mark]

theorem literals_mark (nodes : List (PlanNode × Coll)) :
    (nodes.map (markNode sparse)).map (literalValue ·.1) = nodes.map (literalValue ·.1) := by
  rw [List.map_map]
  apply List.map_congr_left
  intro n _
  exact literalValue_mark sparse n.1

theorem joined_mark (nodes : List (PlanNode × Coll)) :
    (nodes.map (markNode sparse)).filter (fun n => (literalValue n.1).isNone) =
      (nodes.filter fun n => (literalValue n.1).isNone).map (markNode sparse) := by
  rw [List.filter_map]
  congr 2
  ext n : 1
  rw [Function.comp_apply, markNode, literalValue_mark]

theorem funcCall_mark (K : Kernels) (func : FuncId) (args : List (PlanNode × Coll)) :
    funcCall K func (args.map (markNode sparse)) = funcCall K func args := by
  unfold funcCall
  rw [literals_mark, joined_mark]
  cases args.filter fun n => (literalValue n.1).isNone with
  | nil => rfl
  | cons first rest =>
      rw [List.map_cons]
      dsimp only [markNode]
      rw [alignAll_mark, cats_mark]

theorem spans_mark (ty : TypeInfo) (p : PlanNode) : spans ty (mark sparse p) = spans ty p := by
  unfold spans
  rw [ty_mark]

theorem coalesceDomain_mark (args : List (PlanNode × Coll)) (grid : Option ItemOrder)
    (ty : TypeInfo) :
    coalesceDomain (args.map (markNode sparse)) grid ty = coalesceDomain args grid ty := by
  cases grid with
  | some g => rfl
  | none =>
      have hspans : (fun a : PlanNode × Coll => spans ty a.1) ∘ markNode sparse =
          fun a => spans ty a.1 := by
        ext a : 1
        exact spans_mark sparse ty a.1
      unfold coalesceDomain
      dsimp only
      rw [List.filter_map, hspans, ← Multiset.map_coe, Multiset.bind_map]
      rfl

theorem coalesceTagged_mark (args : List (PlanNode × Coll)) (ty : TypeInfo) (domain : Coll) :
    coalesceTagged (args.map (markNode sparse)) ty domain = coalesceTagged args ty domain := by
  unfold coalesceTagged
  rw [List.zipIdx_map, ← Multiset.map_coe, Multiset.bind_map]
  apply Multiset.bind_congr
  intro a _
  simp only [Prod.map, markNode, id_eq, spans_mark, cats_mark]

theorem coalesce_mark (args : List (PlanNode × Coll)) (grid : Option ItemOrder) (ty : TypeInfo) :
    coalesce (args.map (markNode sparse)) grid ty = coalesce args grid ty := by
  have hany : (args.map (markNode sparse)).any (fun a => spans ty a.1) =
      args.any fun a => spans ty a.1 := by
    rw [List.any_map]
    congr 1
    ext a : 1
    exact spans_mark sparse ty a.1
  unfold coalesce
  rw [hany, coalesceDomain_mark, List.isEmpty_map]
  dsimp only
  rw [coalesceTagged_mark]

theorem cond_mark (test branch : PlanNode × Coll) (otherwise : Option (PlanNode × Coll))
    (spanning : Option Nat) :
    cond (markNode sparse test) (markNode sparse branch) (otherwise.map (markNode sparse))
      spanning = cond test branch otherwise spanning := by
  have hpick : ∀ want dom b, pick want dom (markNode sparse b) = pick want dom b := by
    intro want dom b
    unfold pick
    rw [markNode, cats_mark]
  have hshared : ∀ a b, sharedCats (mark sparse a) (mark sparse b) = sharedCats a b := by
    intro a b
    unfold sharedCats
    rw [cats_mark, cats_mark]
  have hdomain : testDomain (markNode sparse test) (markNode sparse branch)
      (otherwise.map (markNode sparse)) spanning = testDomain test branch otherwise spanning := by
    cases spanning with
    | none => rfl
    | some i =>
        unfold testDomain
        by_cases hi : i = 0
        · simp only [hi, if_true, Option.map_some, markNode, hshared]
        · simp only [hi, if_false, Option.map_map, markNode]
          congr 1
          ext b : 1
          simp only [Function.comp_apply, markNode, hshared]
  unfold cond
  rw [hdomain]
  cases testDomain test branch otherwise spanning with
  | none => rfl
  | some dom =>
      dsimp only
      rw [hpick, Option.map_map]
      have hother : pick false dom ∘ markNode sparse = pick false dom := by
        ext b : 1
        exact hpick false dom b
      rw [hother]

theorem mapBinary_mark (K : Kernels) (op : BinaryOp) {left right : PlanNode}
    (hleft : ∀ x ∈ preorder left, isMarked x = false)
    (hright : ∀ x ∈ preorder right, isMarked x = false) (l a r : Coll) :
    mapBinary K op (mark sparse left) (mark sparse right) l a r =
      mapBinary K op left right l a r := by
  have hbroadcast : (broadcastOf (mark sparse left) (mark sparse right)).map (·.2) =
      (broadcastOf left right).map (·.2) := by
    cases left with
    | join b c keys ty =>
        rw [preorder, List.forall_mem_cons, List.forall_mem_append] at hleft
        unfold broadcastOf
        dsimp only [mark]
        rw [samePlan_mark sparse c right hleft.2.2 hright]
        by_cases hsame : samePlan c right
        · rw [if_pos hsame, if_pos hsame]
          rfl
        · rw [if_neg hsame, if_neg hsame]
    | _ => rfl
  unfold mapBinary
  rw [literalValue_mark, literalValue_mark]
  cases literalValue left with
  | some v => cases literalValue right <;> rfl
  | none =>
      cases literalValue right with
      | some w => rfl
      | none =>
          dsimp only
          have hshared : sharedCats (mark sparse left) (mark sparse right) =
              sharedCats left right := by
            unfold sharedCats
            rw [cats_mark, cats_mark]
          cases hb : broadcastOf left right with
          | none =>
              rw [hb, Option.map_none, Option.map_eq_none_iff] at hbroadcast
              rw [hbroadcast, hshared]
          | some x =>
              rw [hb, Option.map_some, Option.map_eq_some_iff] at hbroadcast
              obtain ⟨y, hy, hkeys⟩ := hbroadcast
              obtain ⟨_, keys⟩ := y
              obtain ⟨_, keys'⟩ := x
              rw [hy]
              cases hkeys
              rfl

theorem aggregate_mark (K : Kernels) (ins params : List (PlanNode × Coll))
    (pred : Option (PlanNode × Coll)) (groupBy : List CategoryId) (func : FuncId)
    (order : ItemOrder) (window : Option Window) (perItem : Bool) (into : ItemOrder)
    (flat : Bool) :
    aggregate K ins (params.map (markNode sparse)) (pred.map (markNode sparse)) groupBy func order
        window perItem into flat =
      aggregate K ins params pred groupBy func order window perItem into flat := by
  cases ins with
  | nil => rfl
  | cons first rest =>
      have hrows : reducedRows (order.map (·.1)) first rest (pred.map (markNode sparse)) =
          reducedRows (order.map (·.1)) first rest pred := by
        cases pred with
        | none => rfl
        | some p =>
            unfold reducedRows
            dsimp only [Option.map_some, markNode]
            rw [cats_mark]
      have hnodes : (params.map (markNode sparse)).map (·.1) =
          (params.map (·.1)).map (mark sparse) := by
        rw [List.map_map, List.map_map]
        rfl
      unfold aggregate
      dsimp only
      rw [hrows, hnodes, orderRoute_mark, joined_mark, alignAll_mark, literals_mark,
        List.length_map]

end Mark

/-! ## Marked plans build the same -/

/-- What a node needs for its mark to cost nothing: it is not marked yet, and a
reduction that may be marked is over listed items and reduces no more rows than
an exact sum has room to merge. -/
def Fits (S : Schema) (R : Registry) (K : Kernels) (src : Sources) : PlanNode → Prop
  | .aggregate ins params pred _ func order window perItem into flat _ =>
    flat = false ∧ (markable func ins.length params.length order window perItem into = true →
      (∀ o ∈ order, Listed S o) ∧
        ∀ rows, RankedRows R K src ins pred order rows → rows.card ≤ 2 ^ 45 - 2 ^ 13)
  | _ => True

section Build

variable {S : Schema} {R : Registry} {src : Sources} {ins params : List PlanNode}
  {pred : Option PlanNode} {groupBy : List CategoryId} {window : Option Window} {perItem : Bool}
  {into : ItemOrder} {flat : Bool} {ty : TypeInfo}
  {sparse : List MeasureId → List CategoryId → Bool}

theorem Fits.isMarked {q : PlanNode} (h : Fits S R K src q) : isMarked q = false := by
  cases q with
  | aggregate => exact h.1
  | _ => rfl

theorem mem_preorderAll {ps : List PlanNode} {q : PlanNode} :
    q ∈ preorderAll ps ↔ ∃ p ∈ ps, q ∈ preorder p := by
  induction ps with
  | nil => simp [preorderAll]
  | cons p ps ih =>
      rw [preorderAll, List.mem_append, ih]
      simp

theorem mem_preorderOpt {p : Option PlanNode} {q : PlanNode} :
    q ∈ preorderOpt p ↔ ∃ x ∈ p, q ∈ preorder x := by
  cases p <;> simp [preorderOpt]

theorem of_markable {inputs params : Nat}
    (h : markable func inputs params order window perItem into = true) :
    window = none ∧ perItem = false ∧ into = [] ∧ inputs = 1 ∧ params = 0 ∧
      (func.id ≠ 5 ∧ func.id ≠ 6) ∧ ∃ cat items, order = [(cat, items)] ∧
        twoLevelApplies func 1 0 [(cat, items)] = true := by
  unfold markable at h
  simp only [Bool.and_eq_true, Option.isNone_iff_eq_none, Bool.not_eq_true',
    List.isEmpty_iff, decide_eq_false_iff_not, not_or] at h
  obtain ⟨⟨⟨⟨hwindow, hper⟩, hinto⟩, hfunc⟩, happlies⟩ := h
  have hparts := happlies
  unfold twoLevelApplies at hparts
  simp only [Bool.and_eq_true, decide_eq_true_eq] at hparts
  obtain ⟨⟨⟨-, rfl⟩, rfl⟩, horder⟩ := hparts
  refine ⟨hwindow, hper, hinto, rfl, rfl, hfunc, ?_⟩
  split at horder
  · exact ⟨_, _, rfl, happlies⟩
  · cases horder

theorem buildColls_markAll {ps : List PlanNode}
    (h : ∀ p ∈ ps, buildColl R K src (mark sparse p) = buildColl R K src p) :
    buildColls R K src (markAll sparse ps) = buildColls R K src ps := by
  induction ps with
  | nil => rfl
  | cons p ps ih =>
      rw [markAll, buildColls, buildColls, h p List.mem_cons_self,
        ih fun q hq => h q (List.mem_cons_of_mem _ hq)]

theorem buildOpt_markOpt {p : Option PlanNode}
    (h : ∀ q ∈ p, buildColl R K src (mark sparse q) = buildColl R K src q) :
    buildOpt R K src (markOpt sparse p) = buildOpt R K src p := by
  cases p with
  | none => rfl
  | some p => rw [markOpt, buildOpt, buildOpt, h p rfl]

/-- The inputs of a reduction are measures, which have no marks. -/
theorem markAll_reducible (h : ∀ p ∈ ins, Reducible S order p) : markAll sparse ins = ins := by
  rw [markAll_eq_map]
  refine (List.map_congr_left fun p hp => ?_).trans (List.map_id ins)
  obtain ⟨m, ty, rfl, -, -⟩ := h p hp
  rfl

/-- A reduction that may be marked builds the same cells marked or not. -/
theorem aggregate_flat (hK : K.Reduces families)
    (hsrc : ∀ m c, src m = some c → Ranges S (S.dims m) c)
    (hdims : AggregateDims S ins params pred groupBy order window perItem into ty)
    (hpred : ∀ p ∈ pred, WellFormed S p)
    (hmark : markable func ins.length params.length order window perItem into = true)
    (hlisted : ∀ o ∈ order, Listed S o)
    (hroom : ∀ rows, RankedRows R K src ins pred order rows → rows.card ≤ 2 ^ 45 - 2 ^ 13)
    {is ps : List Coll} {pc : Option Coll} (his : buildColls R K src ins = .ok is)
    (hps : buildColls R K src params = .ok ps) (hpc : buildOpt R K src pred = .ok pc)
    (b b' : Bool) :
    aggregate K (ins.zip is) (params.zip ps) (pred.map (·, pc.getD 0)) groupBy func order window
        perItem into b =
      aggregate K (ins.zip is) (params.zip ps) (pred.map (·, pc.getD 0)) groupBy func order window
        perItem into b' := by
  obtain ⟨rfl, rfl, rfl, hinputs, hparams, hfunc, cat, items, rfl, happlies⟩ :=
    of_markable hmark
  obtain ⟨p, rfl⟩ := List.length_eq_one_iff.mp hinputs
  obtain rfl := List.length_eq_zero_iff.mp hparams
  obtain rfl : ps = [] := (Except.ok.inj hps).symm
  obtain ⟨c, hc, rfl⟩ : ∃ c, buildColl R K src p = .ok c ∧ is = [c] := by
    have hall := buildColls_eq_ok.mp his
    rw [List.forall₂_cons_left_iff] at hall
    obtain ⟨c, rest, hc, hrest, rfl⟩ := hall
    rw [List.forall₂_nil_left_iff.mp hrest]
    exact ⟨c, hc, rfl⟩
  have hparts := aggregateParts hsrc hdims (fun q hq => absurd hq List.not_mem_nil)
    (fun q hq => absurd hq List.not_mem_nil)
    (fun q hq _ hc => ranges_buildColl hsrc (hpred q hq) hc) his hps hpc rfl
  have hcard := hroom _ ⟨_, _, _, _, his, hpc, rfl, rfl⟩
  have hroute : orderRoute func 1 [] false none [(cat, items)] [] = none := by
    cases hroute : orderRoute func 1 [] false none [(cat, items)] [] with
    | none => rfl
    | some x =>
        obtain ⟨-, -, hspec⟩ := orderRoute_eq_some hroute
        rcases hspec with ⟨_, -, hper, -⟩ | ⟨-, hinto⟩
        · cases hper
        · exact absurd rfl hinto
  unfold aggregate
  simp only [List.zip_cons_cons, List.zip_nil_right, List.length_singleton, List.map_nil, hroute,
    List.filter_nil]
  exact congrArg Except.ok (hK.aggregateRows_eq (hlisted _ List.mem_cons_self) happlies
    hfunc hparts.ranges_reduced (hparts.head_mem_rowCats rfl)
    (fun x hx => singleton_of_reducedRows hx) hcard _ _)

/-- A plan's marks are not seen in its collection. -/
theorem buildColl_mark (hK : K.Reduces families)
    (hsrc : ∀ m c, src m = some c → Ranges S (S.dims m) c) {p : PlanNode} (hp : WellFormed S p)
    (hfits : ∀ q ∈ preorder p, Fits S R K src q) :
    buildColl R K src (mark sparse p) = buildColl R K src p ∧
      broadcastSide R K src (mark sparse p) = broadcastSide R K src p := by
  induction hp with
  | inputMeasure _ => exact ⟨rfl, rfl⟩
  | literal _ => exact ⟨rfl, rfl⟩
  | items _ _ => exact ⟨rfl, rfl⟩
  | recurrence _ _ _ => exact ⟨rfl, rfl⟩
  | shift _ _ _ _ _ _ => exact ⟨rfl, rfl⟩
  | fixpoint => exact ⟨rfl, rfl⟩
  | mapUnary _ _ ih =>
      rw [preorder, List.forall_mem_cons] at hfits
      exact ⟨by rw [mark, buildColl, buildColl, (ih hfits.2).1], rfl⟩
  | remap _ _ ih =>
      rw [preorder, List.forall_mem_cons] at hfits
      exact ⟨by rw [mark, buildColl, buildColl, (ih hfits.2).1], rfl⟩
  | join _ _ _ _ iha ihb =>
      rw [preorder, List.forall_mem_cons, List.forall_mem_append] at hfits
      have ha := (iha hfits.2.1).1
      exact ⟨by rw [mark, buildColl, buildColl, ha, (ihb hfits.2.2).1], ha⟩
  | mapBinary _ _ _ _ iha ihb =>
      rw [preorder, List.forall_mem_cons, List.forall_mem_append] at hfits
      refine ⟨?_, rfl⟩
      rw [mark, buildColl_mapBinary_eq, buildColl_mapBinary_eq, (iha hfits.2.1).1,
        (iha hfits.2.1).2, (ihb hfits.2.2).1]
      simp only [mapBinary_mark sparse K _ (fun x hx => (hfits.2.1 x hx).isMarked)
        fun x hx => (hfits.2.2 x hx).isMarked]
  | aggregate hparams hpred hdims ihparams ihpred =>
      rw [preorder, List.forall_mem_cons, List.forall_mem_append, List.forall_mem_append] at hfits
      obtain ⟨hnode, ⟨-, hfparams⟩, hfpred⟩ := hfits
      refine ⟨?_, rfl⟩
      rw [mark, markAll_reducible hdims.reducible, buildColl, buildColl,
        buildColls_markAll fun p hp => (ihparams p hp fun q hq =>
          hfparams q (mem_preorderAll.mpr ⟨p, hp, hq⟩)).1,
        buildOpt_markOpt fun p hp => (ihpred p hp fun q hq =>
          hfpred q (mem_preorderOpt.mpr ⟨p, hp, hq⟩)).1]
      refine bind_congr_ok fun is his => bind_congr_ok fun pc hpc => bind_congr_ok fun ps hps => ?_
      have hpredNode := fun p : Option PlanNode =>
        (Option.map_map (fun q => (q, pc.getD 0)) (mark sparse) p).trans
          (Option.map_map (markNode sparse) (fun q => (q, pc.getD 0)) p).symm
      rw [markAll_eq_map, zip_mark, markOpt_eq_map, hpredNode, aggregate_mark]
      split
      · next hmark =>
          exact aggregate_flat hK hsrc hdims hpred hmark (hnode.2 hmark).1 (hnode.2 hmark).2
            his hps hpc _ _
      · rfl
  | coalesce _ _ _ ih =>
      rw [preorder, List.forall_mem_cons] at hfits
      refine ⟨?_, rfl⟩
      rw [mark, buildColl, buildColl, buildColls_markAll fun p hp => (ih p hp fun q hq =>
        hfits.2 q (mem_preorderAll.mpr ⟨p, hp, hq⟩)).1]
      refine bind_congr fun cs => ?_
      rw [markAll_eq_map, zip_mark, coalesce_mark]
  | funcCall _ _ ih =>
      rw [preorder, List.forall_mem_cons] at hfits
      refine ⟨?_, rfl⟩
      rw [mark, buildColl, buildColl, buildColls_markAll fun p hp => (ih p hp fun q hq =>
        hfits.2 q (mem_preorderAll.mpr ⟨p, hp, hq⟩)).1]
      refine bind_congr fun cs => ?_
      rw [markAll_eq_map, zip_mark, funcCall_mark]
  | cond _ _ _ _ _ _ _ iht ihb iho =>
      rw [preorder, List.forall_mem_cons, List.forall_mem_append, List.forall_mem_append] at hfits
      obtain ⟨-, ⟨hft, hfb⟩, hfo⟩ := hfits
      refine ⟨?_, rfl⟩
      rw [mark, buildColl, buildColl, (iht hft).1, (ihb hfb).1,
        buildOpt_markOpt fun p hp => (iho p hp fun q hq =>
          hfo q (mem_preorderOpt.mpr ⟨p, hp, hq⟩)).1]
      refine bind_congr fun t => bind_congr fun a => bind_congr fun b => ?_
      have hotherwise := fun p : Option PlanNode =>
        (Option.map_map (fun q => (q, b.getD 0)) (mark sparse) p).trans
          (Option.map_map (markNode sparse) (fun q => (q, b.getD 0)) p).symm
      rw [markOpt_eq_map, hotherwise]
      exact cond_mark sparse (_, t) (_, a) _ _

end Build

/-! ## The measures -/

/-- Every plan fits where it is built. -/
def FitsAll (S : Schema) (R : Registry) (K : Kernels) (inputs : Sources) : Built → Plans → Prop
  | _, [] => True
  | b, x :: plans =>
    (∀ q ∈ preorder x.2, Fits S R K (b.sources inputs) q) ∧
      FitsAll S R K inputs (buildNext R K inputs b x) plans

section Run

variable {S : Schema} {R : Registry} {inputs : Sources}

/-- A built measure's cells are over its categories. -/
theorem ranges_buildNext {b : Built} {x : MeasureId × PlanNode}
    (hsrc : ∀ m c, b.sources inputs m = some c → Ranges S (S.dims m) c) (hp : WellFormed S x.2)
    (hcats : SameCats x.2.cats (S.dims x.1)) :
    ∀ m c, (buildNext R K inputs b x).sources inputs m = some c → Ranges S (S.dims m) c := by
  have hinsert : ∀ (c : Coll) (flat : Bool), Ranges S (S.dims x.1) c →
      ∀ m c', (b.insert x.1 c flat).sources inputs m = some c' → Ranges S (S.dims m) c' := by
    intro c flat hc m c' h
    unfold Built.sources Built.insert at h
    dsimp only at h
    cases hinput : inputs m with
    | some d =>
        apply hsrc m c'
        unfold Built.sources
        rw [hinput] at h ⊢
        exact h
    | none =>
        rw [hinput, Option.none_or] at h
        split at h
        · next hm =>
            subst hm
            exact Option.some.inj h ▸ hc
        · apply hsrc m c'
          unfold Built.sources
          rw [hinput, Option.none_or]
          exact h
  intro m c h
  unfold buildNext at h
  split at h
  · exact hsrc m c h
  · next c' hc' =>
      have hranges := (ranges_buildColl hsrc hp hc').congr hcats
      split at h
      · exact hinsert c' true hranges m c h
      · exact hinsert c'.dedup false (fun y hy => hranges y (Multiset.mem_dedup.mp hy)) m c h

theorem buildNext_mark (hK : K.Reduces families) (sparse : List MeasureId → List CategoryId → Bool)
    {b : Built} {m : MeasureId} {p : PlanNode}
    (hsrc : ∀ m c, b.sources inputs m = some c → Ranges S (S.dims m) c) (hp : WellFormed S p)
    (hfits : ∀ q ∈ preorder p, Fits S R K (b.sources inputs) q) :
    buildNext R K inputs b (m, mark sparse p) = buildNext R K inputs b (m, p) := by
  unfold buildNext
  dsimp only
  rw [(buildColl_mark hK hsrc hp hfits).1, functional_mark]

theorem foldl_markPlans (hK : K.Reduces families) (items : CategoryId → Nat) (est : Estimates)
    {plans : Plans} (hwf : ∀ x ∈ plans, WellFormed S x.2 ∧ SameCats x.2.cats (S.dims x.1))
    (b : Built) (hsrc : ∀ m c, b.sources inputs m = some c → Ranges S (S.dims m) c)
    (hfits : FitsAll S R K inputs b plans) :
    (markPlans items est plans).foldl (buildNext R K inputs) b =
      plans.foldl (buildNext R K inputs) b := by
  induction plans generalizing est b with
  | nil => rfl
  | cons x plans ih =>
      have hx := hwf x List.mem_cons_self
      rw [markPlans, List.foldl_cons, List.foldl_cons, buildNext_mark hK _ hsrc hx.1 hfits.1]
      exact ih _ (fun y hy => hwf y (List.mem_cons_of_mem _ hy)) _
        (ranges_buildNext hsrc hx.1 hx.2) hfits.2

/-- The measures marked where they are sparse are those of the plans: the same
measures build, with the same cells. -/
theorem buildDerived_markSparse (hK : K.Reduces families)
    (hinputs : ∀ m c, inputs m = some c → Ranges S (S.dims m) c) (model : Model) {plans : Plans}
    (hwf : ∀ x ∈ plans, WellFormed S x.2 ∧ SameCats x.2.cats (S.dims x.1))
    (hfits : FitsAll S R K inputs (.start inputs) plans) :
    buildDerived R K inputs (markSparse model plans) = buildDerived R K inputs plans := by
  refine foldl_markPlans hK _ _ hwf _ (fun m c h => hinputs m c ?_) hfits
  rw [← h]
  exact (Option.or_none).symm

end Run

/-! ## A sum over a long category -/

open TwoLevel (Part)

/-- A part as numbers. -/
def partNumbers (p : Part) : List Nat :=
  p.n :: p.err.isSome.toNat :: (p.err.getD (0, 0)).1 :: (p.err.getD (0, 0)).2 :: p.bad.toNat ::
    p.k :: p.acc.toNat :: p.sum.lo :: p.sum.flags.notNegZero.toNat :: p.sum.flags.posInf.toNat ::
    p.sum.flags.negInf.toNat :: p.sum.flags.nan.toNat :: p.sum.d.map Equiv.intEquivNat

def partOfNumbers : List Nat → Option Part
  | n :: e :: pos :: code :: bad :: k :: acc :: lo :: f :: g :: h :: i :: d =>
    some ⟨n, if e = 1 then some (pos, code) else none, bad == 1, k, .ofNat acc,
      ⟨lo, d.map Equiv.intEquivNat.symm, ⟨f == 1, g == 1, h == 1, i == 1⟩⟩⟩
  | _ => none

theorem partOfNumbers_partNumbers (p : Part) : partOfNumbers (partNumbers p) = some p := by
  have hbool : ∀ b : Bool, (b.toNat == 1) = b := by decide
  obtain ⟨n, err, bad, k, acc, lo, d, flags⟩ := p
  unfold partNumbers partOfNumbers
  simp only [hbool, List.map_map, Equiv.symm_comp_self, List.map_id, UInt64.ofNat_toNat]
  cases err <;> rfl

/-- The reductions of a model without functions of its own. -/
def plainKernels : Kernels where
  eval _ _ := .err Err.NA
  reduce func rows params := (reduce (fun _ _ _ => none) func rows params).getD (.err Err.NA)
  array _ _ _ := []
  perItem _ _ _ := []
  windows _ _ _ _ := []
  part func rows := ((TwoLevel.part func rows).map partNumbers).getD []
  finish func blocks :=
    (((blocks.mapM partOfNumbers).bind (TwoLevel.merge func)).map (TwoLevel.finish func)).getD
      (.err Err.NA)
  powf _ _ := .nan
  displayNumber _ := ""
  displayDate _ := ""
  toLowercase s := s

theorem reduces_plainKernels : plainKernels.Reduces fun _ _ _ => none where
  reduce func rows params v h := by
    change (reduce _ func rows params).getD _ = v
    rw [h]
    rfl
  finish func blocks parts merged hparts hmerge := by
    have hread : (blocks.map (plainKernels.part func)).mapM partOfNumbers = some parts := by
      clear hmerge
      induction blocks generalizing parts with
      | nil => exact hparts
      | cons b blocks ih =>
          rw [List.mapM_cons] at hparts
          obtain ⟨p, hp, hparts⟩ := Option.bind_eq_some_iff.mp hparts
          obtain ⟨ps, hps, hparts⟩ := Option.bind_eq_some_iff.mp hparts
          have hb : plainKernels.part func b = partNumbers p := by
            change ((TwoLevel.part func b).map partNumbers).getD [] = _
            rw [hp]
            rfl
          rw [List.map_cons, List.mapM_cons, hb, partOfNumbers_partNumbers, ih ps hps]
          exact hparts
    change (((_ : Option (List Part)).bind _).map _).getD _ = _
    rw [hread, Option.bind_some, hmerge]
    rfl

def dayPrice : MeasureId := ⟨0⟩

def dayTotal : MeasureId := ⟨1⟩

/-- 1,025 allDays. -/
def allDays : List ItemId := (List.range 1025).map ItemId.mk

def daySchema : Schema where
  dims m := if m = dayPrice then [⟨0⟩] else []
  items _ i := i.id < 1025

/-- Prices on the third and the last day. -/
def dayPrices : Coll := {([(0, 2)], .ofF64 (.ofNat 5)), ([(0, 1024)], .ofF64 (.ofNat 7))}

def daySources : Sources := fun m => if m = dayPrice then some dayPrices else none

/-- `SUM(dayPrice OVER Day)`. -/
def totalPlan : PlanNode :=
  .aggregate [.inputMeasure dayPrice ⟨.number, .scalar⟩] [] none [] ⟨1⟩ [(⟨0⟩, allDays)] none
    false [] false ⟨.number, .scalar⟩

theorem wellFormed_totalPlan : WellFormed daySchema totalPlan := by
  refine .aggregate (by simp) (by simp) ?_
  exact
    { reducible := by
        intro p hp
        refine ⟨_, _, List.mem_singleton.mp hp, ?_, ?_⟩
        · intro c hc
          cases hc
        · intro o ho
          obtain rfl := List.mem_singleton.mp ho
          exact List.mem_singleton_self _
      filtered := by simp
      grouped := by simp
      apart := by simp
      distinct := List.nodup_nil
      items := by simp
      result := fun c => Iff.rfl
      along := by simp }

theorem length_allDays : allDays.length = 1025 := by
  rw [allDays, List.length_map, List.length_range]

theorem nodup_allDays : allDays.Nodup := List.nodup_range.map fun _ _ h => congrArg ItemId.id h

theorem mem_allDays {i : ItemId} (h : i.id < 1025) : i ∈ allDays :=
  List.mem_map.mpr ⟨i.id, List.mem_range.mpr h, rfl⟩

theorem listed_allDays : Listed daySchema (⟨0⟩, allDays) := by
  constructor
  · dsimp only
    exact nodup_allDays
  · intro i hi
    dsimp only
    exact mem_allDays hi
  · dsimp only
    rw [length_allDays]
    omega

theorem markable_total : markable ⟨1⟩ 1 0 [(⟨0⟩, allDays)] none false [] = true := by
  unfold markable twoLevelApplies
  dsimp only
  rw [length_allDays]
  rfl

theorem mark_totalPlan (sparse : List MeasureId → List CategoryId → Bool) :
    mark sparse totalPlan = .aggregate [.inputMeasure dayPrice ⟨.number, .scalar⟩] [] none [] ⟨1⟩
      [(⟨0⟩, allDays)] none false [] (sparse [dayPrice] []) ⟨.number, .scalar⟩ := by
  unfold totalPlan
  rw [mark, List.length_singleton, List.length_nil, markable_total, if_pos rfl]
  rfl

theorem fits_totalPlan {R : Registry} {K : Kernels} {src : Sources}
    (hprice : src dayPrice = some dayPrices) :
    ∀ q ∈ preorder totalPlan, Fits daySchema R K src q := by
  intro q hq
  unfold totalPlan at hq
  simp only [preorder, preorderAll, preorderOpt, List.append_nil, List.mem_cons,
    List.not_mem_nil, or_false] at hq
  rcases hq with rfl | rfl
  · refine ⟨rfl, fun _ => ⟨fun o ho => ?_, fun rows hrows => ?_⟩⟩
    · obtain rfl := List.mem_singleton.mp ho
      exact listed_allDays
    · obtain ⟨is, pc, first, rest, his, -, hzip, rfl⟩ := hrows
      rw [buildColls_eq_ok, List.forall₂_cons_left_iff] at his
      obtain ⟨c, is', hc, his', rfl⟩ := his
      obtain rfl := List.forall₂_nil_left_iff.mp his'
      obtain ⟨rfl, rfl⟩ := List.cons.inj hzip
      obtain rfl := Option.some.inj (hprice.symm.trans (buildColl_inputMeasure.mp hc))
      change (oneEach dayPrices).card ≤ _
      rw [oneEach, Multiset.card_map, dayPrices]
      decide
  · trivial

/-- A sum of two prices over 1,025 allDays goes flat, and builds the same. -/
theorem buildDerived_markSparse_total :
    markSparse .new [(dayTotal, totalPlan)] ≠ [(dayTotal, totalPlan)] ∧
      buildDerived ⟨[]⟩ plainKernels daySources (markSparse .new [(dayTotal, totalPlan)]) =
        buildDerived ⟨[]⟩ plainKernels daySources [(dayTotal, totalPlan)] := by
  have hsparse : markSparse .new [(dayTotal, totalPlan)] = [(dayTotal,
      .aggregate [.inputMeasure dayPrice ⟨.number, .scalar⟩] [] none [] ⟨1⟩ [(⟨0⟩, allDays)] none
        false [] true ⟨.number, .scalar⟩)] := by
    unfold markSparse markPlans markPlans
    rw [mark_totalPlan]
    rfl
  constructor
  · rw [hsparse]
    unfold totalPlan
    simp
  · have hranges : ∀ m c, daySources m = some c → Ranges daySchema (daySchema.dims m) c := by
      intro m c h
      unfold daySources at h
      split at h
      · next hm =>
          subst hm
          obtain rfl := Option.some.inj h
          refine fun x hx => ⟨?_, ?_⟩
          · have hkeys : ∀ x ∈ dayPrices, SparseKey.Sorted x.1 ∧ SparseKey.names x.1 = [0] := by
              decide
            refine ⟨(hkeys x hx).1, fun n => ?_⟩
            rw [(hkeys x hx).2]
            rfl
          · have hitems : ∀ x ∈ dayPrices, ∀ y ∈ x.1, y.2 < 1025 := by decide
            exact hitems x hx
      · cases h
    exact buildDerived_markSparse reduces_plainKernels hranges .new
      (fun x hx => by
        obtain rfl := List.mem_singleton.mp hx
        exact ⟨wellFormed_totalPlan, fun c => Iff.rfl⟩) ⟨fits_totalPlan rfl, trivial⟩

end Improv.Engine
