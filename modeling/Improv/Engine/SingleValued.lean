import Improv.Engine.WellFormed
/-!
# Plans that hold one value at each coordinate

The operators that can put two rows at one coordinate are a result per item of
an aggregation that reads more categories than it keeps, and a renaming that
gives two items one target.  Where a plan has neither, its collection holds at
most one value at each coordinate.
-/

namespace Improv.Engine

open Improv.Lib Improv.Lib.SparseKey Improv.Lib.Bag Improv.CoreModel

/-- Every row of an aggregation is told apart by its group and its item of the
reduced category. -/
structure RowsApart (S : Schema) (ins params : List PlanNode) (pred : Option PlanNode)
    (groupBy : List CategoryId) (order : ItemOrder) : Prop where
  inputs : ∀ p ∈ ins, ∀ c ∈ cellCats S p, c ∈ p.cats ++ order.map (·.1)
  apart : ∀ c ∈ ins.flatMap (cellCats S) ++ predCats pred ++ params.flatMap PlanNode.cats,
    c ∈ groupBy ∨ order.head?.map (·.1) = some c

/-- No operator of the plan merges rows, where the measures in `f` hold one
value at each coordinate. -/
inductive SingleValued (S : Schema) (f : MeasureId → Prop) : PlanNode → Prop
  | inputMeasure {m ty} : f m → SingleValued S f (.inputMeasure m ty)
  | literal {v ty} : SingleValued S f (.literal v ty)
  | mapUnary {op a ty} : SingleValued S f a → SingleValued S f (.mapUnary op a ty)
  | mapBinary {op a b ty} : SingleValued S f a → SingleValued S f b →
      SingleValued S f (.mapBinary op a b ty)
  | join {a b keys ty} : SingleValued S f a → SingleValued S f b →
      SingleValued S f (.join a b keys ty)
  | single {ins params pred groupBy func order flat ty} :
      SingleValued S f (.aggregate ins params pred groupBy func order none false [] flat ty)
  | lists {ins params pred groupBy func order window perItem into flat ty} : into ≠ [] →
      SingleValued S f
        (.aggregate ins params pred groupBy func order window perItem into flat ty)
  | perItem {ins params pred groupBy func order window perItem flat ty} :
      (∀ p ∈ ins, SingleValued S f p) → (∀ p ∈ params, SingleValued S f p) →
      (∀ p ∈ pred, SingleValued S f p) → RowsApart S ins params pred groupBy order →
      SingleValued S f
        (.aggregate ins params pred groupBy func order window perItem [] flat ty)
  | items {cat vals ty} : (vals.map (·.1)).Nodup → SingleValued S f (.items cat vals ty)
  | recurrence {body ids refs slots cat order ty} : (∀ p ∈ refs, SingleValued S f p) →
      SingleValued S f (.recurrence body ids refs slots cat order ty)
  | coalesce {args grid ty} : SingleValued S f (.coalesce args grid ty)
  | remap {input maps ty} : SingleValued S f input →
      (∀ m ∈ maps, ∀ t ∈ m.2.2, ∀ t' ∈ m.2.2, t.2 = t'.2 → t.1 = t'.1) →
      SingleValued S f (.remap input maps ty)
  | shift {input cat offset order default ty} : SingleValued S f input →
      (∀ p ∈ default, SingleValued S f p) →
      SingleValued S f (.shift input cat offset order default ty)
  | funcCall {func args ty} : (∀ p ∈ args, SingleValued S f p) →
      SingleValued S f (.funcCall func args ty)
  | fixpoint {init body maxIter tolerance ty} :
      SingleValued S f (.fixpoint init body maxIter tolerance ty)
  | cond {test branch otherwise spanning ty} : SingleValued S f test →
      SingleValued S f branch → (∀ p ∈ otherwise, SingleValued S f p) →
      SingleValued S f (.cond test branch otherwise spanning ty)

variable {S : Schema} {R : Registry} {K : Kernels} {src : Sources}

/-! ## Aggregations -/

section Aggregate

variable {params : List (PlanNode × Coll)} {pred : Option (PlanNode × Coll)}
  {groupBy : List CategoryId} {func : FuncId} {order : ItemOrder} {window : Option Window}
  {perItem : Bool} {into : ItemOrder} {flat : Bool} {ty : TypeInfo} {c : Coll}
  {first : PlanNode × Coll} {rest : List (PlanNode × Coll)}

theorem oneValued_twoLevel {capacity : Nat} {keyed : Multiset (CoordKey × AggRow)} :
    OneValued (twoLevel K func capacity keyed) := by
  unfold twoLevel
  refine oneValued_reduceInOrder fun l => ?_
  simp

theorem oneValued_singleResult {inputs capacity : Nat} {consts : List (Option CellValue)}
    {keyed : Multiset (CoordKey × AggRow)} :
    OneValued (Bag.reduceInOrder (singleResult K func inputs capacity consts) keyed) := by
  refine oneValued_reduceInOrder fun l => ?_
  unfold singleResult
  split <;> simp

theorem oneValued_single {ins : List (PlanNode × Coll)}
    (hagg : aggregate K ins params pred groupBy func order none false [] flat = .ok c) :
    OneValued c := by
  obtain ⟨first, rest, rfl, hcase⟩ := aggregate_eq_ok hagg
  rcases hcase with ⟨values, spec, hroute, -⟩ | ⟨-, inTwoLevels, rfl, -⟩
  · obtain ⟨-, -, ⟨cat, -, hper, -⟩ | ⟨-, hinto⟩⟩ := orderRoute_eq_some hroute
    · cases hper
    · exact absurd rfl hinto
  · unfold aggregateRows
    simp only
    split
    · next hinto => cases hinto
    · split
      · exact oneValued_twoLevel
      · exact oneValued_singleResult

namespace AggregateParts

variable (h : AggregateParts S first rest params pred groupBy order window perItem into ty)

include h

theorem oneValued_landedLists (hinto : into ≠ []) {d : List CategoryId} {rows : Lines}
    (hrows : Ranges S d rows) (hgroup : ∀ c ∈ groupBy, c ∈ d)
    (values : List AggRow → List CellValue) :
    OneValued (landed (fun _ => gridKeys into) values (rows.map (aggKey order groupBy))) := by
  have hland : landingCats order window perItem into = into.map (·.1) := landingCats_into hinto
  have hdistinct := h.dims.distinct
  have hapart := h.dims.apart
  rw [hland] at hdistinct hapart
  exact oneValued_landed (ranges_keyed hrows hgroup) hdistinct hapart
    (fun _ l hl => landing_gridKeys (fun g hg => (h.dims.items g hg).2) hl)
    fun _ => nodup_gridKeys fun g hg => (h.dims.items g hg).1

theorem oneValued_lists (hinto : into ≠ [])
    (hagg : aggregate K (first :: rest) params pred groupBy func order window perItem into flat =
      .ok c) : OneValued c := by
  obtain ⟨_, _, hins, hcase⟩ := aggregate_eq_ok hagg
  cases hins
  rcases hcase with ⟨values, spec, hroute, rfl⟩ | ⟨-, inTwoLevels, rfl, -⟩
  · obtain ⟨-, hfolded, ⟨cat, -, -, hnil, -⟩ | ⟨rfl, -⟩⟩ := orderRoute_eq_some hroute
    · exact absurd hnil hinto
    · exact h.oneValued_landedLists hinto h.ranges_reduced
        (fun c hc => h.group_subset_reduced hfolded hc) _
  · unfold aggregateRows
    simp only
    rw [if_pos (by simpa using hinto)]
    exact h.oneValued_landedLists hinto h.ranges_joined
      (fun c hc => h.group_subset_joined hc) _

end AggregateParts

section PerItem

variable (h : AggregateParts S first rest params pred groupBy order window perItem [] ty)
  (hapart : RowsApart S (first.1 :: rest.map (·.1)) (params.map (·.1)) (pred.map (·.1)) groupBy
    order)
  (hones : ∀ n ∈ first :: rest, OneValued n.2) (honep : ∀ n ∈ pred, OneValued n.2)

include h hapart hones honep

theorem AggregateParts.oneValued_reduced :
    OneValued (reducedRows (order.map (·.1)) first rest pred) :=
  oneValued_reducedRows h.first_ranges h.rest_ranges h.pred_ranges
    (fun n hn => hapart.inputs n.1 (List.mem_map_of_mem (f := Prod.fst) hn))
    (hones first List.mem_cons_self) (fun n hn => hones n (List.mem_cons_of_mem _ hn)) honep

omit hones honep in
/-- The rows' categories are those parameters are aligned with. -/
theorem AggregateParts.rowCats_subset {c : CategoryId} (hc : c ∈ rowCats S first rest pred) :
    c ∈ alignedCats (order.map (·.1)) (first.1.cats ++ order.map (·.1)) (rest.map (·.1)) := by
  have hfull : ∀ p ∈ first.1 :: rest.map (·.1), ∀ c ∈ p.cats ++ order.map (·.1),
      c ∈ alignedCats (order.map (·.1)) (first.1.cats ++ order.map (·.1)) (rest.map (·.1)) := by
    intro p hp c hc
    rcases List.mem_cons.mp hp with rfl | hp
    · exact subset_alignedCats (.inl hc)
    · exact subset_alignedCats (.inr ⟨p, hp, hc⟩)
  rcases List.mem_append.mp hc with hc | hc
  · have hcell : ∃ p ∈ first.1 :: rest.map (·.1), c ∈ cellCats S p := by
      rcases List.mem_append.mp hc with hc | hc
      · exact ⟨first.1, List.mem_cons_self, hc⟩
      · obtain ⟨n, hn, hcn⟩ := List.mem_flatMap.mp hc
        exact ⟨n.1, List.mem_cons_of_mem _ (List.mem_map_of_mem hn), hcn⟩
    obtain ⟨p, hp, hcp⟩ := hcell
    exact hfull p hp c (hapart.inputs p hp c hcp)
  · cases hpred : pred with
    | none => simp [hpred, predCats] at hc
    | some p =>
        rw [hpred] at hc
        have hmem : p.1 ∈ pred.map (·.1) := by rw [hpred]; rfl
        rcases List.mem_append.mp (h.dims.filtered p.1 hmem c hc) with hc | hc
        · obtain ⟨q, hq, hcq⟩ := List.mem_flatMap.mp hc
          exact hfull q hq c (List.mem_append_left _ hcq)
        · exact subset_alignedCats (.inl (List.mem_append_right _ hc))

theorem AggregateParts.oneValued_joined (honeps : ∀ n ∈ params, OneValued n.2) :
    OneValued (joinedRows order first rest params pred) :=
  oneValued_alignAll h.ranges_reduced (fun n hn => h.params_ranges n (List.mem_filter.mp hn).1)
    (fun n _ c hc => by simpa using hc) (fun _ hc => h.rowCats_subset hapart hc)
    (h.oneValued_reduced hapart hones honep) fun n hn => honeps n (List.mem_filter.mp hn).1

omit hapart hones honep in
theorem AggregateParts.oneValued_landedItems {cat : CategoryId}
    (hitem : ¬(window.isNone && !perItem) = true) (horder : order.head?.map (·.1) = some cat)
    {d : List CategoryId} {rows : Lines} (hrows : Ranges S d rows)
    (hgroup : ∀ c ∈ groupBy, c ∈ d) (hcat : cat ∈ d) (hsub : ∀ c ∈ d, c ∈ groupBy ∨ c = cat)
    (hone : OneValued rows) (values : List AggRow → List CellValue) :
    OneValued (landed (itemLabels cat.id) values (rows.map (aggKey order groupBy))) := by
  have hdisj := h.dims.apart
  rw [landingCats_item rfl hitem horder] at hdisj
  exact oneValued_landed (ranges_keyed hrows hgroup) (List.nodup_singleton cat) hdisj
    (landing_itemLabels horder hrows hcat)
    (nodup_itemLabels horder (nodup_group_items hrows hone hsub))

/-- Results per item of rows that are told apart by group and item. -/
theorem AggregateParts.oneValued_perItem (honeps : ∀ n ∈ params, OneValued n.2)
    (hagg : aggregate K (first :: rest) params pred groupBy func order window perItem [] flat =
      .ok c) : OneValued c := by
  have hcats : ∀ {cat : CategoryId} {c}, order.head?.map (·.1) = some cat →
      c ∈ joinedCats S first rest params pred → c ∈ groupBy ∨ c = cat := by
    intro cat c horder hc
    have hmem : c ∈ (first.1 :: rest.map (·.1)).flatMap (cellCats S) ++
        predCats (pred.map (·.1)) ++ (params.map (·.1)).flatMap PlanNode.cats := by
      rw [List.flatMap_cons, List.flatMap_map, List.flatMap_map]
      rcases List.mem_append.mp hc with hc | hc
      · exact List.mem_append_left _ hc
      · obtain ⟨n, hn, hcn⟩ := List.mem_flatMap.mp hc
        exact List.mem_append_right _
          (List.mem_flatMap.mpr ⟨n, (List.mem_filter.mp hn).1, hcn⟩)
    refine (hapart.apart c hmem).imp_right fun heq => ?_
    exact (Option.some.inj (horder.symm.trans heq)).symm
  obtain ⟨_, _, hins, hcase⟩ := aggregate_eq_ok hagg
  cases hins
  rcases hcase with ⟨values, spec, hroute, rfl⟩ | ⟨-, inTwoLevels, rfl, -⟩
  · obtain ⟨-, hfolded, ⟨cat, rfl, hper, -, horder⟩ | ⟨-, hinto⟩⟩ := orderRoute_eq_some hroute
    · exact h.oneValued_landedItems (by simp [hper]) horder h.ranges_reduced
        (fun c hc => h.group_subset_reduced hfolded hc) (h.head_mem_rowCats horder)
        (fun c hc => hcats horder (List.mem_append_left _ hc))
        (h.oneValued_reduced hapart hones honep) _
    · exact absurd rfl hinto
  · unfold aggregateRows
    simp only
    split
    · next hinto => cases hinto
    · split
      · exact oneValued_twoLevel
      · split
        · exact oneValued_singleResult
        · next hitem =>
            have hsome : window.isSome || perItem := by
              cases window <;> simp_all
            obtain ⟨o, order', rfl⟩ := List.exists_cons_of_ne_nil (h.dims.along hsome rfl)
            exact h.oneValued_landedItems hitem rfl h.ranges_joined
              (fun c hc => h.group_subset_joined hc)
              (List.mem_append_left _ (h.head_mem_rowCats rfl)) (fun c hc => hcats rfl hc)
              (h.oneValued_joined hapart hones honep honeps) _

end PerItem

end Aggregate

/-! ## One value at each coordinate -/

theorem oneValued_constant (v : CellValue) : OneValued (constant v) := oneValued_singleton _

theorem oneValued_mapBinary {op : BinaryOp} {left right : PlanNode} {ty : TypeInfo} {c : Coll}
    (hsrc : ∀ m c, src m = some c → Ranges S (S.dims m) c)
    (hp : WellFormed S (.mapBinary op left right ty))
    (hleft : ∀ c, buildColl R K src left = .ok c → OneValued c)
    (hright : ∀ c, buildColl R K src right = .ok c → OneValued c)
    (h : buildColl R K src (.mapBinary op left right ty) = .ok c) : OneValued c := by
  obtain ⟨l, r, hl, hr, hc⟩ := buildColl_mapBinary hp h
  cases hp with
  | mapBinary hpl hpr _ _ =>
      rcases hc with rfl | ⟨a, keys, u, al, rfl, -, rfl, rfl⟩
      · have halign : OneValued (align l r (sharedCats left right)) :=
          oneValued_align (ranges_buildColl hsrc hpl hl) (ranges_buildColl hsrc hpr hr)
            (fun c hc hc' => List.mem_filter.mpr ⟨hc, by simpa using hc'⟩) (hleft l hl)
            (hright r hr)
        exact halign.map_values _
      · -- The broadcast's rows stand at the coordinates of the one join's.
        have hjoin := hleft _ hl
        unfold join OneValued at hjoin
        unfold OneValued
        rw [Multiset.map_map] at hjoin ⊢
        exact hjoin

theorem oneValued_funcCall {func : FuncId} {args : List (PlanNode × Coll)}
    (hargs : ∀ n ∈ args, Ranges S n.1.cats n.2) (hones : ∀ n ∈ args, OneValued n.2) :
    OneValued (funcCall K func args) := by
  have hjoined : ∀ n ∈ args.filter (fun a => (literalValue a.1).isNone),
      Ranges S n.1.cats n.2 ∧ OneValued n.2 :=
    fun n hn => ⟨hargs n (List.mem_filter.mp hn).1, hones n (List.mem_filter.mp hn).1⟩
  unfold funcCall
  generalize args.filter (fun a => (literalValue a.1).isNone) = joined at hjoined ⊢
  cases joined with
  | nil => exact oneValued_constant _
  | cons first rest =>
      obtain ⟨hfirst, honef⟩ := hjoined first List.mem_cons_self
      have hrest := fun n hn => hjoined n (List.mem_cons_of_mem first hn)
      have hone : OneValued (alignAll [] (oneEach first.2) first.1.cats rest) :=
        oneValued_alignAll hfirst.oneEach (fun n hn => (hrest n hn).1)
          (fun n _ c hc => by simpa using hc) (fun _ hc => hc) (honef.map_values _)
          fun n hn => (hrest n hn).2
      exact hone.map_values _

theorem oneValued_testDomain {test branch : PlanNode × Coll}
    {otherwise : Option (PlanNode × Coll)} {spanning : Option Nat}
    (htest : Ranges S test.1.cats test.2) (hbranch : Ranges S branch.1.cats branch.2)
    (hother : ∀ b ∈ otherwise, Ranges S b.1.cats b.2) (hone : OneValued test.2)
    (honeb : OneValued branch.2) (honeo : ∀ b ∈ otherwise, OneValued b.2) {dom : Coll}
    (h : testDomain test branch otherwise spanning = some dom) : OneValued dom := by
  cases spanning with
  | none =>
      cases h
      exact hone
  | some i =>
      obtain ⟨b, hb, rfl⟩ := Option.map_eq_some_iff.mp h
      have hrb : Ranges S b.1.cats b.2 ∧ OneValued b.2 := by
        split at hb
        · cases hb
          exact ⟨hbranch, honeb⟩
        · exact ⟨hother b hb, honeo b hb⟩
      have halign : OneValued (align test.2 b.2 (sharedCats test.1 b.1)) :=
        oneValued_align htest hrb.1
          (fun c hc hc' => List.mem_filter.mpr ⟨hc, by simpa using hc'⟩) hone hrb.2
      exact halign.map_values _

/-- A well-formed plan none of whose operators merges rows holds at most one
value at each coordinate. -/
theorem oneValued_buildColl {f : MeasureId → Prop}
    (hsrc : ∀ m c, src m = some c → Ranges S (S.dims m) c)
    (hone : ∀ m c, f m → src m = some c → OneValued c) {p : PlanNode}
    (hs : SingleValued S f p) (hp : WellFormed S p) :
    ∀ c, buildColl R K src p = .ok c → OneValued c := by
  induction hs with
  | inputMeasure hm =>
      intro c h
      exact hone _ c hm (buildColl_inputMeasure.mp h)
  | literal =>
      intro c h
      rw [buildColl] at h
      cases h
      exact oneValued_constant _
  | mapUnary _ ih =>
      intro c h
      cases hp with
      | mapUnary hp _ =>
          rw [buildColl] at h
          obtain ⟨c', hc', h⟩ := bind_eq_ok_iff.mp h
          cases h
          exact (ih hp c' hc').map_values _
  | mapBinary _ _ iha ihb =>
      intro c h
      have hwf := hp
      cases hp with
      | mapBinary hpa hpb _ _ => exact oneValued_mapBinary hsrc hwf (iha hpa) (ihb hpb) h
  | join _ _ iha ihb =>
      intro c h
      cases hp with
      | join hpa hpb _ hkeys =>
          rw [buildColl] at h
          obtain ⟨l, hl, h⟩ := bind_eq_ok_iff.mp h
          obtain ⟨r, hr, h⟩ := bind_eq_ok_iff.mp h
          cases h
          have halign : OneValued (align l r _) :=
            oneValued_align (ranges_buildColl hsrc hpa hl) (ranges_buildColl hsrc hpb hr) hkeys
              (iha hpa l hl) (ihb hpb r hr)
          exact halign.map_values _
  | single =>
      intro c h
      rw [buildColl] at h
      obtain ⟨is, his, h⟩ := bind_eq_ok_iff.mp h
      obtain ⟨pc, hpc, h⟩ := bind_eq_ok_iff.mp h
      obtain ⟨ps, hps, h⟩ := bind_eq_ok_iff.mp h
      exact oneValued_single h
  | lists hinto =>
      intro c h
      cases hp with
      | aggregate hwf hwfp hdims =>
          rw [buildColl] at h
          obtain ⟨is, his, h⟩ := bind_eq_ok_iff.mp h
          obtain ⟨pc, hpc, h⟩ := bind_eq_ok_iff.mp h
          obtain ⟨ps, hps, h⟩ := bind_eq_ok_iff.mp h
          obtain ⟨first, rest, hzip⟩ := exists_zip_of_aggregate h
          rw [hzip] at h
          exact (aggregateParts hsrc hdims hwf
            (fun p hp _ hc => ranges_buildColl hsrc (hwf p hp) hc)
            (fun p hp _ hc => ranges_buildColl hsrc (hwfp p hp) hc) his hps hpc
            hzip).oneValued_lists hinto h
  | perItem hins _ _ hapart _ ihparams ihpred =>
      intro c h
      cases hp with
      | aggregate hwf hwfp hdims =>
          rw [buildColl] at h
          obtain ⟨is, his, h⟩ := bind_eq_ok_iff.mp h
          obtain ⟨pc, hpc, h⟩ := bind_eq_ok_iff.mp h
          obtain ⟨ps, hps, h⟩ := bind_eq_ok_iff.mp h
          obtain ⟨first, rest, hzip⟩ := exists_zip_of_aggregate h
          obtain ⟨hmem, hfst⟩ := mem_zip_of_buildColls his
          obtain ⟨hmemp, hfstp⟩ := mem_zip_of_buildColls hps
          have hopt := buildOpt_eq_ok hpc
          have hparts := aggregateParts hsrc hdims hwf
            (fun p hp _ hc => ranges_buildColl hsrc (hwf p hp) hc)
            (fun p hp _ hc => ranges_buildColl hsrc (hwfp p hp) hc) his hps hpc hzip
          rw [hzip] at h hmem hfst
          refine hparts.oneValued_perItem ?_ (fun n hn => ?_) (fun n hn => ?_)
            (fun n hn => ?_) h
          · rw [show first.1 :: rest.map (·.1) = (first :: rest).map Prod.fst from rfl, hfst,
              show (List.zip _ ps).map (·.1) = _ from hfstp, map_fst_getD]
            exact hapart
          · obtain ⟨m, ty, hm, -, -⟩ := hdims.reducible n.1 (hmem n hn).1
            have hc := (hmem n hn).2
            have hsv := hins n.1 (hmem n hn).1
            rw [hm] at hc hsv
            cases hsv with
            | inputMeasure hfm => exact hone m n.2 hfm (buildColl_inputMeasure.mp hc)
          · exact ihpred n.1 (hopt n hn).1 (hwfp n.1 (hopt n hn).1) n.2 (hopt n hn).2
          · exact ihparams n.1 (hmemp n hn).1 (hwf n.1 (hmemp n hn).1) n.2 (hmemp n hn).2
  | items hnodup =>
      intro c h
      rw [buildColl] at h
      cases h
      exact oneValued_items hnodup
  | @recurrence _ _ refs _ _ _ _ _ ih =>
      intro c h
      cases hp with
      | recurrence hwf hcat _ =>
          rw [buildColl] at h
          obtain ⟨cs, hcs, h⟩ := bind_eq_ok_iff.mp h
          obtain ⟨hmem, hfst⟩ := mem_zip_of_buildColls hcs
          have hrefs : ∀ n ∈ refs.zip cs, Ranges S n.1.cats n.2 ∧ OneValued n.2 := fun n hn =>
            ⟨ranges_buildColl hsrc (hwf n.1 (hmem n hn).1) (hmem n hn).2,
              ih n.1 (hmem n hn).1 (hwf n.1 (hmem n hn).1) n.2 (hmem n hn).2⟩
          refine oneValued_recurrence hrefs ?_ h
          · obtain ⟨p, hp, hpc⟩ := hcat
            rw [← hfst] at hp
            obtain ⟨n, hn, rfl⟩ := List.mem_map.mp hp
            exact ⟨n, hn, hpc⟩
  | coalesce =>
      intro c h
      rw [buildColl] at h
      obtain ⟨cs, hcs, h⟩ := bind_eq_ok_iff.mp h
      exact oneValued_coalesce h
  | remap _ htargets ih =>
      intro c h
      cases hp with
      | remap hp hmaps =>
          rw [buildColl] at h
          obtain ⟨c', hc', h⟩ := bind_eq_ok_iff.mp h
          cases h
          exact oneValued_remap hmaps htargets (ranges_buildColl hsrc hp hc') (ih hp c' hc')
  | shift _ _ ih ihd =>
      intro c h
      cases hp with
      | shift hp hpd hsub hitems hnodup hty =>
          rw [buildColl] at h
          obtain ⟨x, hx, h⟩ := bind_eq_ok_iff.mp h
          obtain ⟨d, hd, h⟩ := bind_eq_ok_iff.mp h
          cases h
          have hopt := buildOpt_eq_ok hd
          refine oneValued_shift hnodup (ranges_buildColl hsrc hp hx) (fun n hn => ?_)
            (ih hp x hx) fun n hn => ihd n.1 (hopt n hn).1 (hpd n.1 (hopt n hn).1) n.2
              (hopt n hn).2
          exact ⟨ranges_buildColl hsrc (hpd n.1 (hopt n hn).1) (hopt n hn).2,
            hsub n.1 (hopt n hn).1⟩
  | funcCall _ ih =>
      intro c h
      cases hp with
      | funcCall hwf _ =>
          rw [buildColl] at h
          obtain ⟨cs, hcs, h⟩ := bind_eq_ok_iff.mp h
          cases h
          have hmem := (mem_zip_of_buildColls hcs).1
          exact oneValued_funcCall
            (fun n hn => ranges_buildColl hsrc (hwf n.1 (hmem n hn).1) (hmem n hn).2)
            fun n hn => ih n.1 (hmem n hn).1 (hwf n.1 (hmem n hn).1) n.2 (hmem n hn).2
  | fixpoint =>
      intro c h
      rw [buildColl] at h
      cases h
  | cond _ _ _ iht ihb iho =>
      intro c h
      cases hp with
      | cond hpt hpb hpo hsub hsubo hnone hsome =>
          rw [buildColl] at h
          obtain ⟨t, ht, h⟩ := bind_eq_ok_iff.mp h
          obtain ⟨a, ha, h⟩ := bind_eq_ok_iff.mp h
          obtain ⟨b, hb, h⟩ := bind_eq_ok_iff.mp h
          have hopt := buildOpt_eq_ok hb
          have hother := fun n hn => ranges_buildColl hsrc (hpo n.1 (hopt n hn).1) (hopt n hn).2
          have honeo := fun n hn => iho n.1 (hopt n hn).1 (hpo n.1 (hopt n hn).1) n.2
            (hopt n hn).2
          have htest := ranges_buildColl hsrc hpt ht
          have hbranch := ranges_buildColl hsrc hpb ha
          refine oneValued_cond hbranch hother hsub (fun n hn => hsubo n.1 (hopt n hn).1)
            (fun dom hdom => ⟨ranges_testDomain htest hbranch hother hnone ?_ hdom,
              oneValued_testDomain htest hbranch hother (iht hpt t ht) (ihb hpb a ha) honeo
                hdom⟩) (ihb hpb a ha) honeo h
          intro i hi p hp
          refine hsome i hi p ?_
          rw [← hp]
          split
          · rfl
          · rw [map_fst_getD]

end Improv.Engine
