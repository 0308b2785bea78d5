import Improv.Engine.Moves
import Improv.Lib.ExceptLemmas
/-!
# Well-formed plans

The rules a compiled plan follows: each node's declared categories are those of
its operator's rows.  By induction on the rules, every cell's coordinate is over
the declared categories; and a plan none of whose operators merges rows holds
one value at each coordinate.
-/

namespace Improv.Engine

open Improv.Lib Improv.Lib.SparseKey Improv.Lib.Bag Improv.CoreModel

variable (S : Schema)

/-- The categories of a node's cells: a reference under an aggregation may keep
fewer than its measure has. -/
def cellCats : PlanNode → List CategoryId
  | .inputMeasure m _ => S.dims m
  | p => p.cats

/-- A measure an aggregation reduces: it has the categories it keeps and those
reduced. -/
def Reducible (order : ItemOrder) (p : PlanNode) : Prop :=
  ∃ m ty, p = .inputMeasure m ty ∧ (∀ c ∈ ty.dim.categories, c ∈ S.dims m) ∧
    ∀ o ∈ order, o.1 ∈ S.dims m

/-- The categories an aggregation's results land on, besides the group's. -/
def landingCats (order : ItemOrder) (window : Option Window) (perItem : Bool)
    (into : ItemOrder) : List CategoryId :=
  if into.isEmpty then
    if window.isNone && !perItem then [] else (order.head?.map (·.1)).toList
  else into.map (·.1)

/-- The rules of an aggregation's categories, its parts aside. -/
structure AggregateDims (ins params : List PlanNode) (pred : Option PlanNode)
    (groupBy : List CategoryId) (order : ItemOrder) (window : Option Window) (perItem : Bool)
    (into : ItemOrder) (ty : TypeInfo) : Prop where
  reducible : ∀ p ∈ ins, Reducible S order p
  filtered : ∀ p ∈ pred, ∀ c ∈ p.cats, c ∈ ins.flatMap PlanNode.cats ++ order.map (·.1)
  grouped : ∀ c ∈ groupBy, c ∈ ins.flatMap PlanNode.cats ++ params.flatMap PlanNode.cats
  apart : ∀ c ∈ groupBy, c ∉ landingCats order window perItem into
  distinct : (landingCats order window perItem into).Nodup
  items : ∀ g ∈ into, g.2.Nodup ∧ ∀ i ∈ g.2, S.items g.1 i
  result : SameCats (groupBy ++ landingCats order window perItem into) ty.dim.categories
  along : (window.isSome || perItem) → into = [] → order ≠ []

/-- The plans the compiler makes. -/
inductive WellFormed : PlanNode → Prop
  | inputMeasure {m ty} : SameCats (S.dims m) ty.dim.categories → WellFormed (.inputMeasure m ty)
  | literal {v ty} : ty.dim.categories = [] → WellFormed (.literal v ty)
  | mapUnary {op a ty} : WellFormed a → a.ty.dim = ty.dim → WellFormed (.mapUnary op a ty)
  | mapBinary {op a b ty} : WellFormed a → WellFormed b →
      SameCats (a.cats ++ b.cats) ty.dim.categories →
      (∀ a' b' keys u, a = .join a' b' keys u → samePlan b' b → b' = b) →
      WellFormed (.mapBinary op a b ty)
  | join {a b keys ty} : WellFormed a → WellFormed b →
      SameCats (a.cats ++ b.cats) ty.dim.categories →
      (∀ c ∈ a.cats, c ∈ b.cats → c ∈ keys) → WellFormed (.join a b keys ty)
  | aggregate {ins params pred groupBy func order window perItem into flat ty} :
      (∀ p ∈ params, WellFormed p) → (∀ p ∈ pred, WellFormed p) →
      AggregateDims S ins params pred groupBy order window perItem into ty →
      WellFormed (.aggregate ins params pred groupBy func order window perItem into flat ty)
  | items {cat vals ty} : (∀ v ∈ vals, S.items cat v.1) → SameCats [cat] ty.dim.categories →
      WellFormed (.items cat vals ty)
  | recurrence {body ids refs slots cat order ty} : (∀ p ∈ refs, WellFormed p) →
      (∃ p ∈ refs, cat ∈ p.cats) → SameCats (refs.flatMap PlanNode.cats) ty.dim.categories →
      WellFormed (.recurrence body ids refs slots cat order ty)
  | coalesce {args grid ty} : (∀ p ∈ args, WellFormed p) →
      (∀ p ∈ args, ∀ c ∈ p.cats, c ∈ ty.dim.categories) →
      (∀ g ∈ grid, g.map (·.1) = ty.dim.categories ∧ ∀ x ∈ g, ∀ i ∈ x.2, S.items x.1 i) →
      WellFormed (.coalesce args grid ty)
  | remap {input maps ty} : WellFormed input →
      Renames S maps input.cats ty.dim.categories → WellFormed (.remap input maps ty)
  | shift {input cat offset order default ty} : WellFormed input →
      (∀ p ∈ default, WellFormed p) → (∀ p ∈ default, ∀ c ∈ p.cats, c ∈ input.cats) →
      (∀ i ∈ order, S.items cat i) → order.Nodup → input.ty.dim = ty.dim →
      WellFormed (.shift input cat offset order default ty)
  | funcCall {func args ty} : (∀ p ∈ args, WellFormed p) →
      SameCats (args.flatMap PlanNode.cats) ty.dim.categories →
      WellFormed (.funcCall func args ty)
  | fixpoint {init body maxIter tolerance ty} :
      WellFormed (.fixpoint init body maxIter tolerance ty)
  | cond {test branch otherwise spanning ty} : WellFormed test → WellFormed branch →
      (∀ p ∈ otherwise, WellFormed p) →
      (∀ c ∈ branch.cats, c ∈ ty.dim.categories) →
      (∀ p ∈ otherwise, ∀ c ∈ p.cats, c ∈ ty.dim.categories) →
      (spanning = none → SameCats test.cats ty.dim.categories) →
      (∀ i, spanning = some i → ∀ b, (if i = 0 then some branch else otherwise) = some b →
        SameCats (test.cats ++ b.cats) ty.dim.categories) →
      WellFormed (.cond test branch otherwise spanning ty)

/-! ## Building lists of plans -/

variable {S} {R : Registry} {K : Kernels} {src : Sources}

theorem buildColls_eq_ok {ps : List PlanNode} {cs : List Coll} :
    buildColls R K src ps = .ok cs ↔
      List.Forall₂ (fun p c => buildColl R K src p = .ok c) ps cs := by
  induction ps generalizing cs with
  | nil => simp [buildColls, eq_comm]
  | cons p ps ih =>
      rw [buildColls, List.forall₂_cons_left_iff]
      constructor
      · intro h
        obtain ⟨c, hc, h⟩ := bind_eq_ok_iff.mp h
        obtain ⟨cs', hcs, h⟩ := bind_eq_ok_iff.mp h
        cases h
        exact ⟨c, cs', hc, ih.mp hcs, rfl⟩
      · intro h
        obtain ⟨c, cs', hc, hcs, rfl⟩ := h
        exact bind_eq_ok_iff.mpr ⟨c, hc, bind_eq_ok_iff.mpr ⟨cs', ih.mpr hcs, rfl⟩⟩

/-- Each built plan of a list with its collection. -/
theorem mem_zip_of_buildColls {ps : List PlanNode} {cs : List Coll}
    (h : buildColls R K src ps = .ok cs) :
    (∀ n ∈ ps.zip cs, n.1 ∈ ps ∧ buildColl R K src n.1 = .ok n.2) ∧
      (ps.zip cs).map Prod.fst = ps := by
  have hall := buildColls_eq_ok.mp h
  clear h
  induction hall with
  | nil => simp
  | @cons p c ps cs hpc _ ih =>
      refine ⟨fun n hn => ?_, by simp [ih.2]⟩
      rcases List.mem_cons.mp hn with rfl | hn
      · exact ⟨List.mem_cons_self, hpc⟩
      · exact ⟨List.mem_cons_of_mem _ (ih.1 n hn).1, (ih.1 n hn).2⟩

theorem buildOpt_eq_ok {p : Option PlanNode} {c : Option Coll}
    (h : buildOpt R K src p = .ok c) :
    ∀ n ∈ p.map (·, c.getD 0), n.1 ∈ p ∧ buildColl R K src n.1 = .ok n.2 := by
  cases p with
  | none => simp
  | some p =>
      rw [buildOpt] at h
      obtain ⟨c', hc, h⟩ := bind_eq_ok_iff.mp h
      cases h
      intro n hn
      obtain rfl : (p, c') = n := by simpa using hn
      exact ⟨rfl, hc⟩

theorem map_fst_getD {p : Option PlanNode} {c : Option Coll} :
    (p.map (·, c.getD 0)).map (·.1) = p := by
  cases p <;> rfl

/-! ## Aggregations -/

/-- What an aggregation the order-statistics operator takes looks like. -/
theorem orderRoute_eq_some {func : FuncId} {inputs : Nat} {params : List PlanNode}
    {perItem : Bool} {window : Option Window} {order into : ItemOrder}
    {values : List CellValue} {spec : OrderSpec}
    (h : orderRoute func inputs params perItem window order into = some (values, spec)) :
    window = none ∧ (∀ p ∈ params, (folded p).isSome) ∧
      ((∃ cat, spec = .rank cat ∧ perItem = true ∧ into = [] ∧
          order.head?.map (·.1) = some cat) ∨
        (spec = .sortBy (gridKeys into) ∧ into ≠ [])) := by
  unfold orderRoute at h
  split at h
  · cases h
  · next hwindow =>
      simp only [Option.bind_eq_bind, Option.bind_eq_some_iff, Option.some.injEq,
        Prod.mk.injEq] at h
      obtain ⟨vs, hvs, sp, hsp, rfl, rfl⟩ := h
      refine ⟨by simpa using hwindow, fun p hp => ?_, ?_⟩
      · obtain ⟨v, -, hv⟩ := exists_of_mem_left (Scalar.allSome_map_eq_some_iff.mp hvs) hp
        rw [hv]
        rfl
      · unfold OrderSpec.of at hsp
        split at hsp
        · cases hsp
        · split at hsp
          · next hrank =>
              split at hsp
              · obtain ⟨cat, hcat, rfl⟩ := Option.map_eq_some_iff.mp hsp
                simp only [Bool.and_eq_true, List.isEmpty_iff] at hrank
                exact .inl ⟨cat, rfl, hrank.1.1.2, hrank.1.2, hcat⟩
              · cases hsp
          · split at hsp
            · next hsort =>
                split at hsp
                · cases hsp
                  simp only [Bool.and_eq_true, Bool.not_eq_true', List.isEmpty_eq_false_iff]
                    at hsort
                  exact .inr ⟨rfl, hsort.1.2⟩
                · cases hsp
            · cases hsp

theorem WellFormed.cats_of_literal {p : PlanNode} (hp : WellFormed S p)
    (h : (literalValue p).isSome) : p.cats = [] := by
  cases hp with
  | literal hty => exact hty
  | _ => cases h

theorem WellFormed.cats_of_folded {p : PlanNode} (hp : WellFormed S p)
    (h : (folded p).isSome) : p.cats = [] := by
  cases hp with
  | literal hty => exact hty
  | @mapUnary op a ty ha hty =>
      cases op with
      | neg =>
          have hlit : (literalValue a).isSome := by simpa [folded] using h
          rw [PlanNode.cats, PlanNode.ty, ← hty]
          exact ha.cats_of_literal hlit
      | not => cases h
  | _ => cases h

theorem Reducible.cats_subset {order : ItemOrder} {p : PlanNode} (h : Reducible S order p) :
    ∀ c ∈ p.cats, c ∈ cellCats S p := by
  obtain ⟨m, ty, rfl, hty, -⟩ := h
  exact hty

theorem Reducible.order_subset {order : ItemOrder} {p : PlanNode} (h : Reducible S order p)
    {o : CategoryId × List ItemId} (ho : o ∈ order) : o.1 ∈ cellCats S p := by
  obtain ⟨m, ty, rfl, -, horder⟩ := h
  exact horder o ho

section Aggregate

variable {ins params : List (PlanNode × Coll)} {pred : Option (PlanNode × Coll)}
  {groupBy : List CategoryId} {func : FuncId} {order : ItemOrder} {window : Option Window}
  {perItem : Bool} {into : ItemOrder} {flat : Bool} {ty : TypeInfo} {c : Coll}

/-- The categories of an aggregation's rows, before parameters. -/
def rowCats (S : Schema) (first : PlanNode × Coll) (rest : List (PlanNode × Coll))
    (pred : Option (PlanNode × Coll)) : List CategoryId :=
  cellCats S first.1 ++ (rest.flatMap fun n => cellCats S n.1) ++ predCats (pred.map (·.1))

/-- The rows an aggregation reduces, with its joined parameters. -/
def joinedRows (order : ItemOrder) (first : PlanNode × Coll) (rest params : List (PlanNode × Coll))
    (pred : Option (PlanNode × Coll)) : Lines :=
  alignAll [] (reducedRows (order.map (·.1)) first rest pred)
    (alignedCats (order.map (·.1)) (first.1.cats ++ order.map (·.1)) (rest.map (·.1)))
    (params.filter fun p => (literalValue p.1).isNone)

/-- The categories of an aggregation's rows. -/
def joinedCats (S : Schema) (first : PlanNode × Coll) (rest params : List (PlanNode × Coll))
    (pred : Option (PlanNode × Coll)) : List CategoryId :=
  rowCats S first rest pred ++
    (params.filter fun p => (literalValue p.1).isNone).flatMap (·.1.cats)

theorem aggregate_eq_ok
    (h : aggregate K ins params pred groupBy func order window perItem into flat = .ok c) :
    ∃ first rest, ins = first :: rest ∧
      ((∃ values spec, orderRoute func ins.length (params.map (·.1)) perItem window order into =
          some (values, spec) ∧
        c = orderStats K func ins.length (order.map (·.2.length)).prod values spec
          ((reducedRows (order.map (·.1)) first rest pred).map (aggKey order groupBy))) ∨
      (orderRoute func ins.length (params.map (·.1)) perItem window order into = none ∧
        ∃ inTwoLevels, c = aggregateRows K func ins.length (order.map (·.2.length)).prod
          (params.map (literalValue ·.1)) order window perItem into inTwoLevels
          ((joinedRows order first rest params pred).map (aggKey order groupBy)) ∧
          (inTwoLevels = true → window = none ∧ perItem = false))) := by
  unfold aggregate at h
  split at h
  · cases h
  · next first rest =>
      refine ⟨first, rest, rfl, ?_⟩
      simp only at h
      split at h
      · next values spec hroute => exact .inl ⟨values, spec, hroute, (Except.ok.inj h).symm⟩
      · next hroute =>
          refine .inr ⟨hroute, _, (Except.ok.inj h).symm, fun htwo => ?_⟩
          simp only [Bool.and_eq_true, Bool.not_eq_true', Option.isNone_iff_eq_none] at htwo
          exact ⟨htwo.1.1.2, htwo.1.2⟩

theorem ranges_twoLevel {d : List CategoryId} {keyed : Multiset (CoordKey × AggRow)}
    {capacity : Nat} (hkeyed : Ranges S d keyed) : Ranges S d (twoLevel K func capacity keyed) := by
  unfold twoLevel
  refine Ranges.reduceInOrder (fun x hx => ?_) _
  obtain ⟨y, hy, rfl⟩ := Multiset.mem_map.mp hx
  obtain ⟨⟨z, hz, heq⟩, -⟩ := mem_reduceInOrder.mp hy
  obtain ⟨w, hw, rfl⟩ := Multiset.mem_map.mp hz
  change Coordinate S d y.1.1
  rw [← heq]
  exact hkeyed w hw

variable {first : PlanNode × Coll} {rest : List (PlanNode × Coll)}

theorem landingCats_into (hinto : into ≠ []) :
    landingCats order window perItem into = into.map (·.1) := by
  unfold landingCats
  rw [if_neg (by simpa using hinto)]

theorem landingCats_item {cat : CategoryId} (hinto : into = [])
    (hitem : ¬(window.isNone && !perItem) = true) (horder : order.head?.map (·.1) = some cat) :
    landingCats order window perItem into = [cat] := by
  unfold landingCats
  rw [hinto, if_pos List.isEmpty_nil, if_neg hitem, horder]
  rfl

theorem landingCats_single (hinto : into = []) (hitem : (window.isNone && !perItem) = true) :
    landingCats order window perItem into = [] := by
  unfold landingCats
  rw [hinto, if_pos List.isEmpty_nil, if_pos hitem]

/-- What the parts of an aggregation are over. -/
structure AggregateParts (S : Schema) (first : PlanNode × Coll)
    (rest params : List (PlanNode × Coll)) (pred : Option (PlanNode × Coll))
    (groupBy : List CategoryId) (order : ItemOrder)
    (window : Option Window) (perItem : Bool) (into : ItemOrder) (ty : TypeInfo) : Prop where
  dims : AggregateDims S (first.1 :: rest.map (·.1)) (params.map (·.1)) (pred.map (·.1)) groupBy
    order window perItem into ty
  first_ranges : Ranges S (cellCats S first.1) first.2
  rest_ranges : ∀ n ∈ rest, Ranges S (cellCats S n.1) n.2
  params_wf : ∀ n ∈ params, WellFormed S n.1
  params_ranges : ∀ n ∈ params, Ranges S n.1.cats n.2
  pred_ranges : ∀ n ∈ pred, Ranges S n.1.cats n.2

namespace AggregateParts

variable (h : AggregateParts S first rest params pred groupBy order window perItem into ty)

include h

theorem ranges_reduced :
    Ranges S (rowCats S first rest pred) (reducedRows (order.map (·.1)) first rest pred) :=
  ranges_reducedRows h.first_ranges h.rest_ranges h.pred_ranges

theorem ranges_joined :
    Ranges S (joinedCats S first rest params pred)
      (joinedRows order first rest params pred) :=
  ranges_alignAll h.ranges_reduced fun n hn => h.params_ranges n (List.mem_filter.mp hn).1

theorem mem_rowCats {c : CategoryId}
    (hc : c ∈ (first.1 :: rest.map (·.1)).flatMap PlanNode.cats) :
    c ∈ rowCats S first rest pred := by
  obtain ⟨p, hp, hcp⟩ := List.mem_flatMap.mp hc
  have hcell := (h.dims.reducible p hp).cats_subset c hcp
  unfold rowCats
  refine List.mem_append_left _ ?_
  rcases List.mem_cons.mp hp with rfl | hp
  · exact List.mem_append_left _ hcell
  · obtain ⟨n, hn, rfl⟩ := List.mem_map.mp hp
    exact List.mem_append_right _ (List.mem_flatMap.mpr ⟨n, hn, hcell⟩)

theorem head_mem_rowCats {cat : CategoryId} (horder : order.head?.map (·.1) = some cat) :
    cat ∈ rowCats S first rest pred := by
  obtain ⟨o, ho, rfl⟩ := Option.map_eq_some_iff.mp horder
  have hcell := (h.dims.reducible first.1 List.mem_cons_self).order_subset
    (List.mem_of_mem_head? ho)
  exact List.mem_append_left _ (List.mem_append_left _ hcell)

theorem group_subset_joined {c : CategoryId} (hc : c ∈ groupBy) :
    c ∈ joinedCats S first rest params pred := by
  rcases List.mem_append.mp (h.dims.grouped c hc) with hc | hc
  · exact List.mem_append_left _ (h.mem_rowCats hc)
  · obtain ⟨p, hp, hcp⟩ := List.mem_flatMap.mp hc
    obtain ⟨n, hn, rfl⟩ := List.mem_map.mp hp
    refine List.mem_append_right _ (List.mem_flatMap.mpr ⟨n, List.mem_filter.mpr ⟨hn, ?_⟩, hcp⟩)
    cases hlit : literalValue n.1 with
    | none => rfl
    | some v =>
        have hnil := (h.params_wf n hn).cats_of_literal (by rw [hlit]; rfl)
        rw [hnil] at hcp
        cases hcp

theorem group_subset_reduced (hfolded : ∀ p ∈ params.map (·.1), (folded p).isSome)
    {c : CategoryId} (hc : c ∈ groupBy) : c ∈ rowCats S first rest pred := by
  rcases List.mem_append.mp (h.dims.grouped c hc) with hc | hc
  · exact h.mem_rowCats hc
  · obtain ⟨p, hp, hcp⟩ := List.mem_flatMap.mp hc
    obtain ⟨n, hn, rfl⟩ := List.mem_map.mp hp
    rw [(h.params_wf n hn).cats_of_folded (hfolded n.1 hp)] at hcp
    cases hcp

/-- Lists of results land on the categories they are laid over. -/
theorem ranges_lists (hinto : into ≠ []) {d : List CategoryId} {rows : Lines}
    (hrows : Ranges S d rows) (hgroup : ∀ c ∈ groupBy, c ∈ d)
    (values : List AggRow → List CellValue) :
    Ranges S ty.dim.categories
      (landed (fun _ => gridKeys into) values (rows.map (aggKey order groupBy))) := by
  have hland : landingCats order window perItem into = into.map (·.1) := landingCats_into hinto
  have hresult := h.dims.result
  have hdistinct := h.dims.distinct
  have hapart := h.dims.apart
  rw [hland] at hresult hdistinct hapart
  exact (ranges_landed (ranges_keyed hrows hgroup) hdistinct hapart fun _ l hl =>
    landing_gridKeys (fun g hg => (h.dims.items g hg).2) hl).congr hresult

/-- Results per item land on the reduced category. -/
theorem ranges_perItem {cat : CategoryId} (hinto : into = [])
    (hitem : ¬(window.isNone && !perItem) = true) (horder : order.head?.map (·.1) = some cat)
    {d : List CategoryId} {rows : Lines} (hrows : Ranges S d rows)
    (hgroup : ∀ c ∈ groupBy, c ∈ d) (hcat : cat ∈ d) (values : List AggRow → List CellValue) :
    Ranges S ty.dim.categories
      (landed (itemLabels cat.id) values (rows.map (aggKey order groupBy))) := by
  have hland := landingCats_item hinto hitem horder
  have hresult := h.dims.result
  have hapart := h.dims.apart
  rw [hland] at hresult hapart
  exact (ranges_landed (ranges_keyed hrows hgroup) (List.nodup_singleton cat) hapart
    (landing_itemLabels horder hrows hcat)).congr hresult

/-- An aggregation's cells are over its declared categories. -/
theorem ranges_aggregate
    (hagg : aggregate K (first :: rest) params pred groupBy func order window perItem into flat =
      .ok c) : Ranges S ty.dim.categories c := by
  obtain ⟨_, _, hins, hcase⟩ := aggregate_eq_ok hagg
  cases hins
  rcases hcase with ⟨values, spec, hroute, rfl⟩ | ⟨-, inTwoLevels, rfl, htwo⟩
  · obtain ⟨hwindow, hfolded, hspec⟩ := orderRoute_eq_some hroute
    have hgroup := fun c hc => h.group_subset_reduced hfolded (c := c) hc
    rcases hspec with ⟨cat, rfl, hper, hinto, horder⟩ | ⟨rfl, hinto⟩
    · exact h.ranges_perItem hinto (by simp [hper]) horder h.ranges_reduced hgroup
        (h.head_mem_rowCats horder) _
    · exact h.ranges_lists hinto h.ranges_reduced hgroup _
  · have hgroup := fun c hc => h.group_subset_joined (c := c) hc
    unfold aggregateRows
    simp only
    split
    · next hinto => exact h.ranges_lists (by simpa using hinto) h.ranges_joined hgroup _
    · next hinto =>
        have hnil : into = [] := by simpa using hinto
        have hkeyed : Ranges S groupBy
            ((joinedRows order first rest params pred).map (aggKey order groupBy)) :=
          ranges_keyed h.ranges_joined hgroup
        split
        · next htwoLevels =>
            obtain ⟨hwindow, hper⟩ := htwo htwoLevels
            have hsingle : (window.isNone && !perItem) = true := by simp [hwindow, hper]
            have hresult := h.dims.result
            rw [landingCats_single hnil hsingle, List.append_nil] at hresult
            exact (ranges_twoLevel hkeyed).congr hresult
        · split
          · next hsingle =>
              have hresult := h.dims.result
              rw [landingCats_single hnil hsingle, List.append_nil] at hresult
              exact (hkeyed.reduceInOrder _).congr hresult
          · next hitem =>
              have hsome : window.isSome || perItem := by
                cases window <;> simp_all
              obtain ⟨o, order', rfl⟩ := List.exists_cons_of_ne_nil (h.dims.along hsome hnil)
              exact h.ranges_perItem hnil hitem rfl h.ranges_joined hgroup
                (List.mem_append_left _ (h.head_mem_rowCats rfl)) _

end AggregateParts

end Aggregate

/-! ## Binary operators -/

/-- The general join of a binary operator's sides. -/
def outerJoin (K : Kernels) (op : BinaryOp) (left right : PlanNode) (l r : Coll) : Coll :=
  (align l r (sharedCats left right)).map fun x => (x.1, K.applyBinary op x.2.1 x.2.2)

theorem align_constant_left (v : CellValue) (r : Coll) :
    align (constant v) r [] = r.map fun x => (x.1, v, x.2) := by
  unfold align Bag.join constant
  rw [Multiset.singleton_bind]
  have hnil : ∀ k : CoordKey, projectKey k [] = [] := fun k => by
    simp [projectKey, project]
  rw [Multiset.filter_eq_self.mpr fun x _ => (hnil x.1).trans (hnil []).symm]
  rfl

theorem align_constant_right {V : Type} (l : Multiset (CoordKey × V)) (v : CellValue) :
    align l (constant v) [] = l.map fun x => (x.1, x.2, v) := by
  unfold align Bag.join constant
  have hnil : ∀ k : CoordKey, projectKey k [] = [] := fun k => by
    simp [projectKey, project]
  have hrow : ∀ a : CoordKey × V,
      ((({([], v)} : Coll).filter fun b => projectKey b.1 [] = projectKey a.1 []).map
        fun b => (SparseKey.union a.1 b.1, a.2, b.2)) = {(a.1, a.2, v)} := by
    intro a
    rw [Multiset.filter_eq_self.mpr fun x _ => (hnil x.1).trans (hnil a.1).symm,
      Multiset.map_singleton,
      union_nil_right]
  simp only [hrow]
  exact Multiset.bind_singleton _ _

theorem sharedCats_of_nil {a b : PlanNode} (h : a.cats = [] ∨ b.cats = []) :
    sharedCats a b = [] := by
  unfold sharedCats
  rcases h with h | h <;> simp [h]

/-- A literal operand folded into the other side gives the cells of the general
join. -/
theorem mapBinary_literal {op : BinaryOp} {left right : PlanNode} {l a r : Coll}
    (hleft : WellFormed S left) (hright : WellFormed S right)
    (hl : buildColl R K src left = .ok l) (hr : buildColl R K src right = .ok r)
    (hlit : (literalValue left).isSome ∨ (literalValue right).isSome) :
    mapBinary K op left right l a r = outerJoin K op left right l r := by
  have hconst : ∀ {p : PlanNode} {v c}, literalValue p = some v →
      buildColl R K src p = .ok c → c = constant v := by
    intro p v c hv hc
    cases p with
    | literal w ty =>
        cases hv
        rw [buildColl] at hc
        exact (Except.ok.inj hc).symm
    | _ => cases hv
  have hshared : sharedCats left right = [] := by
    refine sharedCats_of_nil ?_
    rcases hlit with hlit | hlit
    · exact .inl (hleft.cats_of_literal hlit)
    · exact .inr (hright.cats_of_literal hlit)
  unfold mapBinary outerJoin
  rw [hshared]
  cases hv : literalValue left with
  | some v =>
      rw [hconst hv hl, align_constant_left, Multiset.map_map]
      cases hw : literalValue right with
      | some w =>
          rw [hconst hw hr]
          rfl
      | none => rfl
  | none =>
      cases hw : literalValue right with
      | some w =>
          rw [hconst hw hr, align_constant_right, Multiset.map_map]
          rfl
      | none => simp [hv, hw] at hlit

/-- What a left operand broadcasts, when it is a join. -/
def broadcastSide (R : Registry) (K : Kernels) (src : Sources) :
    PlanNode → Except BuildError Coll
  | .join a _ _ _ => buildColl R K src a
  | _ => pure 0

theorem buildColl_mapBinary_eq (op : BinaryOp) (left right : PlanNode) (ty : TypeInfo) :
    buildColl R K src (.mapBinary op left right ty) = (do
      let a ← broadcastSide R K src left
      let l ← buildColl R K src left
      let r ← buildColl R K src right
      return mapBinary K op left right l a r) := by
  cases left <;> rw [buildColl] <;> first | rfl | simp

/-- A binary operator's collection: the general join of its sides, or the one
join of a broadcast. -/
theorem buildColl_mapBinary {op : BinaryOp} {left right : PlanNode} {ty : TypeInfo} {c : Coll}
    (hp : WellFormed S (.mapBinary op left right ty))
    (h : buildColl R K src (.mapBinary op left right ty) = .ok c) :
    ∃ l r, buildColl R K src left = .ok l ∧ buildColl R K src right = .ok r ∧
      (c = outerJoin K op left right l r ∨
        ∃ a keys u al, left = .join a right keys u ∧ buildColl R K src a = .ok al ∧
          l = join al r keys ∧
          c = (align al r keys).map fun x => (x.1, K.applyBinary op x.2.1 x.2.2)) := by
  cases hp with
  | mapBinary hleft hright _ hsame =>
      rw [buildColl_mapBinary_eq] at h
      obtain ⟨a, ha, h⟩ := bind_eq_ok_iff.mp h
      obtain ⟨l, hl, h⟩ := bind_eq_ok_iff.mp h
      obtain ⟨r, hr, h⟩ := bind_eq_ok_iff.mp h
      have hc := (Except.ok.inj h).symm
      refine ⟨l, r, hl, hr, ?_⟩
      by_cases hlit : (literalValue left).isSome ∨ (literalValue right).isSome
      · exact .inl (hc.trans (mapBinary_literal hleft hright hl hr hlit))
      · have hnone : literalValue left = none ∧ literalValue right = none := by
          simpa using hlit
        unfold mapBinary at hc
        rw [hnone.1, hnone.2] at hc
        simp only at hc
        cases hb : broadcastOf left right with
        | none =>
            rw [hb] at hc
            exact .inl hc
        | some x =>
            rw [hb] at hc
            refine .inr ?_
            cases left with
            | join a' b' keys u =>
                by_cases hsameb : samePlan b' right
                · have hx : (a', keys) = x := by simpa [broadcastOf, hsameb] using hb
                  subst hx
                  have hbb := hsame a' b' keys u rfl hsameb
                  subst hbb
                  rw [buildColl] at hl
                  obtain ⟨al, hal, hl⟩ := bind_eq_ok_iff.mp hl
                  obtain ⟨r', hr', hl⟩ := bind_eq_ok_iff.mp hl
                  have haa : al = a := Except.ok.inj (hal.symm.trans ha)
                  have hrr : r' = r := Except.ok.inj (hr'.symm.trans hr)
                  subst haa
                  subst hrr
                  exact ⟨a', keys, u, al, rfl, hal, (Except.ok.inj hl).symm, hc⟩
                · simp [broadcastOf, hsameb] at hb
            | _ => cases hb

/-! ## Coordinates -/

theorem ranges_of_sameDim {a b : TypeInfo} {c : Coll} (h : Ranges S a.dim.categories c)
    (hab : a.dim = b.dim) : Ranges S b.dim.categories c := hab ▸ h

theorem Reducible.ranges (hsrc : ∀ m c, src m = some c → Ranges S (S.dims m) c)
    {order : ItemOrder} {p : PlanNode} (h : Reducible S order p) {c : Coll}
    (hc : buildColl R K src p = .ok c) : Ranges S (cellCats S p) c := by
  obtain ⟨m, ty, rfl, -, -⟩ := h
  exact hsrc m c (buildColl_inputMeasure.mp hc)

theorem flatMap_zip_cats {ps : List PlanNode} {cs : List Coll}
    (h : (ps.zip cs).map Prod.fst = ps) :
    (ps.zip cs).flatMap (·.1.cats) = ps.flatMap PlanNode.cats := by
  conv_rhs => rw [← h]
  rw [List.flatMap_map]

/-- The arguments of a call that are not literals range over all the categories
the arguments do. -/
theorem sameCats_nonliteral {args : List (PlanNode × Coll)}
    (hwf : ∀ n ∈ args, WellFormed S n.1) :
    SameCats ((args.filter fun a => (literalValue a.1).isNone).flatMap (·.1.cats))
      (args.flatMap (·.1.cats)) := by
  intro c
  constructor
  · intro hc
    obtain ⟨n, hn, hcn⟩ := List.mem_flatMap.mp hc
    exact List.mem_flatMap.mpr ⟨n, (List.mem_filter.mp hn).1, hcn⟩
  · intro hc
    obtain ⟨n, hn, hcn⟩ := List.mem_flatMap.mp hc
    refine List.mem_flatMap.mpr ⟨n, List.mem_filter.mpr ⟨hn, ?_⟩, hcn⟩
    cases hlit : literalValue n.1 with
    | none => rfl
    | some v =>
        rw [(hwf n hn).cats_of_literal (by rw [hlit]; rfl)] at hcn
        cases hcn

theorem ranges_funcCall {func : FuncId} {args : List (PlanNode × Coll)}
    (hwf : ∀ n ∈ args, WellFormed S n.1) (hargs : ∀ n ∈ args, Ranges S n.1.cats n.2) :
    Ranges S (args.flatMap (·.1.cats)) (funcCall K func args) := by
  refine Ranges.congr ?_ (sameCats_nonliteral hwf)
  have hjoined : ∀ n ∈ args.filter (fun a => (literalValue a.1).isNone), Ranges S n.1.cats n.2 :=
    fun n hn => hargs n (List.mem_filter.mp hn).1
  unfold funcCall
  generalize args.filter (fun a => (literalValue a.1).isNone) = joined at hjoined ⊢
  cases joined with
  | nil => exact ranges_constant _
  | cons first rest =>
      have hrows : Ranges S (first.1.cats ++ rest.flatMap fun n => n.1.cats)
          (alignAll [] (oneEach first.2) first.1.cats rest) :=
        ranges_alignAll (hjoined first List.mem_cons_self).oneEach
          fun n hn => hjoined n (List.mem_cons_of_mem _ hn)
      exact hrows.map

theorem ranges_testDomain {test branch : PlanNode × Coll} {otherwise : Option (PlanNode × Coll)}
    {spanning : Option Nat} {ty : TypeInfo} (htest : Ranges S test.1.cats test.2)
    (hbranch : Ranges S branch.1.cats branch.2)
    (hother : ∀ b ∈ otherwise, Ranges S b.1.cats b.2)
    (hnone : spanning = none → SameCats test.1.cats ty.dim.categories)
    (hsome : ∀ i, spanning = some i → ∀ b,
      (if i = 0 then some branch.1 else otherwise.map (·.1)) = some b →
        SameCats (test.1.cats ++ b.cats) ty.dim.categories) {dom : Coll}
    (h : testDomain test branch otherwise spanning = some dom) :
    Ranges S ty.dim.categories dom := by
  cases spanning with
  | none =>
      cases h
      exact htest.congr (hnone rfl)
  | some i =>
      obtain ⟨b, hb, rfl⟩ := Option.map_eq_some_iff.mp h
      have hspan : (if i = 0 then some branch.1 else otherwise.map (·.1)) = some b.1 := by
        split at hb <;> simp_all
      have hrb : Ranges S b.1.cats b.2 := by
        split at hb
        · cases hb
          exact hbranch
        · exact hother b hb
      exact (ranges_align htest hrb).map.congr (hsome i rfl b.1 hspan)

/-- The parts of a well-formed aggregation, built. -/
theorem aggregateParts (hsrc : ∀ m c, src m = some c → Ranges S (S.dims m) c)
    {ins params : List PlanNode} {pred : Option PlanNode} {groupBy : List CategoryId}
    {order : ItemOrder} {window : Option Window} {perItem : Bool} {into : ItemOrder}
    {ty : TypeInfo} (hdims : AggregateDims S ins params pred groupBy order window perItem into ty)
    (hwf : ∀ p ∈ params, WellFormed S p)
    (hparams : ∀ p ∈ params, ∀ {c}, buildColl R K src p = .ok c → Ranges S p.cats c)
    (hpred : ∀ p ∈ pred, ∀ {c}, buildColl R K src p = .ok c → Ranges S p.cats c)
    {is ps : List Coll} {pc : Option Coll} (his : buildColls R K src ins = .ok is)
    (hps : buildColls R K src params = .ok ps) (hpc : buildOpt R K src pred = .ok pc)
    {first : PlanNode × Coll} {rest : List (PlanNode × Coll)} (hzip : ins.zip is = first :: rest) :
    AggregateParts S first rest (params.zip ps) (pred.map (·, pc.getD 0)) groupBy order window
      perItem into ty := by
  obtain ⟨hmem, hfst⟩ := mem_zip_of_buildColls his
  obtain ⟨hmemp, hfstp⟩ := mem_zip_of_buildColls hps
  have hopt := buildOpt_eq_ok hpc
  rw [hzip] at hmem hfst
  have hins : ∀ n ∈ first :: rest, Ranges S (cellCats S n.1) n.2 := fun n hn =>
    (hdims.reducible n.1 (hmem n hn).1).ranges hsrc (hmem n hn).2
  refine
    { dims := ?_
      first_ranges := hins first List.mem_cons_self
      rest_ranges := fun n hn => hins n (List.mem_cons_of_mem _ hn)
      params_wf := fun n hn => hwf n.1 (hmemp n hn).1
      params_ranges := fun n hn => hparams n.1 (hmemp n hn).1 (hmemp n hn).2
      pred_ranges := fun n hn => hpred n.1 (hopt n hn).1 (hopt n hn).2 }
  rw [show first.1 :: rest.map (·.1) = (first :: rest).map Prod.fst from rfl, hfst, map_fst_getD,
    show (params.zip ps).map (·.1) = params from hfstp]
  exact hdims

theorem exists_zip_of_aggregate {ins : List PlanNode} {is : List Coll}
    {params : List (PlanNode × Coll)} {pred : Option (PlanNode × Coll)}
    {groupBy : List CategoryId} {func : FuncId} {order : ItemOrder} {window : Option Window}
    {perItem : Bool} {into : ItemOrder} {flat : Bool} {c : Coll}
    (h : aggregate K (ins.zip is) params pred groupBy func order window perItem into flat =
      .ok c) : ∃ first rest, ins.zip is = first :: rest := by
  obtain ⟨first, rest, hzip, -⟩ := aggregate_eq_ok h
  exact ⟨first, rest, hzip⟩

/-- Every cell of a well-formed plan names one item of each declared
category. -/
theorem ranges_buildColl (hsrc : ∀ m c, src m = some c → Ranges S (S.dims m) c) {p : PlanNode}
    (hp : WellFormed S p) : ∀ {c : Coll}, buildColl R K src p = .ok c → Ranges S p.cats c := by
  induction hp with
  | inputMeasure hty =>
      intro c h
      exact (hsrc _ c (buildColl_inputMeasure.mp h)).congr hty
  | literal hty =>
      intro c h
      rw [buildColl] at h
      cases h
      rw [PlanNode.cats, PlanNode.ty, hty]
      exact ranges_constant _
  | mapUnary _ hty ih =>
      intro c h
      rw [buildColl] at h
      obtain ⟨c', hc', h⟩ := bind_eq_ok_iff.mp h
      cases h
      exact ranges_of_sameDim (ih hc').map hty
  | mapBinary ha hb hty hsame iha ihb =>
      intro c h
      obtain ⟨l, r, hl, hr, hc⟩ := buildColl_mapBinary (.mapBinary ha hb hty hsame) h
      rcases hc with rfl | ⟨a, keys, u, al, rfl, -, rfl, rfl⟩
      · exact (ranges_align (iha hl) (ihb hr)).map.congr hty
      · -- A row of the one join stands where a row of the broadcast does.
        intro x hx
        obtain ⟨y, hy, rfl⟩ := Multiset.mem_map.mp hx
        have hcoord := iha hl _ (Multiset.mem_map_of_mem (fun x => (x.1, x.2.1)) hy)
        refine hcoord.congr fun c => (Iff.trans ?_ (hty c))
        cases ha with
        | join _ _ hu _ =>
            rw [List.mem_append, iff_self_or]
            exact fun hc => (hu c).mp (List.mem_append_right _ hc)
  | join _ _ hty _ iha ihb =>
      intro c h
      rw [buildColl] at h
      obtain ⟨l, hl, h⟩ := bind_eq_ok_iff.mp h
      obtain ⟨r, hr, h⟩ := bind_eq_ok_iff.mp h
      cases h
      exact (ranges_align (iha hl) (ihb hr)).map.congr hty
  | aggregate hwf _ hdims ihparams ihpred =>
      intro c h
      rw [buildColl] at h
      obtain ⟨is, his, h⟩ := bind_eq_ok_iff.mp h
      obtain ⟨pc, hpc, h⟩ := bind_eq_ok_iff.mp h
      obtain ⟨ps, hps, h⟩ := bind_eq_ok_iff.mp h
      obtain ⟨first, rest, hzip⟩ := exists_zip_of_aggregate h
      rw [hzip] at h
      exact (aggregateParts hsrc hdims hwf ihparams ihpred his hps hpc hzip).ranges_aggregate h
  | items hitems hty =>
      intro c h
      rw [buildColl] at h
      cases h
      exact (ranges_items hitems).congr hty
  | recurrence _ hcat hty ih =>
      intro c h
      rw [buildColl] at h
      obtain ⟨cs, hcs, h⟩ := bind_eq_ok_iff.mp h
      obtain ⟨hmem, hfst⟩ := mem_zip_of_buildColls hcs
      have hrefs := ranges_recurrence (fun n hn => ih n.1 (hmem n hn).1 (hmem n hn).2) ?_ h
      · rw [flatMap_zip_cats hfst] at hrefs
        exact hrefs.congr hty
      · obtain ⟨p, hp, hpc⟩ := hcat
        rw [← hfst] at hp
        obtain ⟨n, hn, rfl⟩ := List.mem_map.mp hp
        exact ⟨n, hn, hpc⟩
  | coalesce _ hsub hgrid ih =>
      intro c h
      rw [buildColl] at h
      obtain ⟨cs, hcs, h⟩ := bind_eq_ok_iff.mp h
      have hmem := (mem_zip_of_buildColls hcs).1
      exact ranges_coalesce (fun n hn => ih n.1 (hmem n hn).1 (hmem n hn).2)
        (fun n hn => hsub n.1 (hmem n hn).1) hgrid h
  | remap _ hmaps ih =>
      intro c h
      rw [buildColl] at h
      obtain ⟨c', hc', h⟩ := bind_eq_ok_iff.mp h
      cases h
      exact ranges_remap hmaps (ih hc')
  | shift _ _ hsub hitems _ hty ih ihd =>
      intro c h
      rw [buildColl] at h
      obtain ⟨x, hx, h⟩ := bind_eq_ok_iff.mp h
      obtain ⟨d, hd, h⟩ := bind_eq_ok_iff.mp h
      cases h
      have hopt := buildOpt_eq_ok hd
      refine ranges_of_sameDim (ranges_shift hitems (ih hx) fun n hn => ?_) hty
      exact ⟨ihd n.1 (hopt n hn).1 (hopt n hn).2, hsub n.1 (hopt n hn).1⟩
  | funcCall hwf hty ih =>
      intro c h
      rw [buildColl] at h
      obtain ⟨cs, hcs, h⟩ := bind_eq_ok_iff.mp h
      cases h
      obtain ⟨hmem, hfst⟩ := mem_zip_of_buildColls hcs
      refine (ranges_funcCall (fun n hn => hwf n.1 (hmem n hn).1)
        fun n hn => ih n.1 (hmem n hn).1 (hmem n hn).2).congr ?_
      rw [flatMap_zip_cats hfst]
      exact hty
  | fixpoint =>
      intro c h
      rw [buildColl] at h
      cases h
  | cond _ _ _ hsub hsubo hnone hsome iht ihb iho =>
      intro c h
      rw [buildColl] at h
      obtain ⟨t, ht, h⟩ := bind_eq_ok_iff.mp h
      obtain ⟨a, ha, h⟩ := bind_eq_ok_iff.mp h
      obtain ⟨b, hb, h⟩ := bind_eq_ok_iff.mp h
      have hopt := buildOpt_eq_ok hb
      have hother := fun n hn => iho n.1 (hopt n hn).1 (hopt n hn).2
      refine ranges_cond (ihb ha) hother hsub (fun n hn => hsubo n.1 (hopt n hn).1)
        (fun dom hdom => ranges_testDomain (iht ht) (ihb ha) hother hnone ?_ hdom) h
      intro i hi p hp
      refine hsome i hi p ?_
      rw [← hp]
      split
      · rfl
      · rw [map_fst_getD]

end Improv.Engine
