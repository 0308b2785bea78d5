import Improv.Engine.SingleValued
/-!
# Functional plans

The plans whose collections the builder does not collapse: maps and joins of
functional measures, single-result reductions, and the aggregations the
order-statistics operator takes.  Those are functions exactly where a ranking
sees one row for each item of a group.
-/

namespace Improv.Engine

open Improv.Lib Improv.Lib.SparseKey Improv.Lib.Bag Improv.CoreModel

/-- Whether a plan's collection needs no collapse, given the measures whose
collections need none. -/
def functional (f : MeasureId → Bool) : PlanNode → Bool
  | .inputMeasure m _ => f m
  | .mapUnary _ a _ => functional f a
  | .mapBinary _ a b _ =>
    match literalValue a, literalValue b with
    | some _, none => functional f b
    | none, some _ => functional f a
    | none, none => functional f a && functional f b
    | some _, some _ => false
  | .join a b _ _ => functional f a && functional f b
  | .aggregate ins params _ _ func order window perItem into _ _ =>
    if (orderRoute func ins.length params perItem window order into).isSome then true
    else window.isNone && !perItem && into.isEmpty
  | _ => false

/-- The kernels give one result per row. -/
def Kernels.OnePerRow (K : Kernels) : Prop :=
  ∀ func rows params, rows.pos.length = rows.vals.length →
    (K.perItem func rows params).length = rows.vals.length

/-- No two rows of a group stand at one item of the category. -/
def RowsAtOwnItems (groupBy : List CategoryId) (cat : CategoryId) (rows : Lines) : Prop :=
  (rows.map fun x => (projectKey x.1 groupBy, itemOf x.1 cat)).Nodup

instance (groupBy : List CategoryId) (cat : CategoryId) (rows : Lines) :
    Decidable (RowsAtOwnItems groupBy cat rows) :=
  inferInstanceAs (Decidable (Multiset.Nodup _))

/-- The rows an aggregation ranks, where its inputs and condition build. -/
def RankedRows (R : Registry) (K : Kernels) (src : Sources) (ins : List PlanNode)
    (pred : Option PlanNode) (order : ItemOrder) (rows : Lines) : Prop :=
  ∃ is pc first rest, buildColls R K src ins = .ok is ∧ buildOpt R K src pred = .ok pc ∧
    ins.zip is = first :: rest ∧
    rows = reducedRows (order.map (·.1)) first rest (pred.map (·, pc.getD 0))

/-- Every ranking among a plan's functional parts ranks rows at items of their
own. -/
def RanksApart (R : Registry) (K : Kernels) (src : Sources) : PlanNode → Prop
  | .mapUnary _ a _ => RanksApart R K src a
  | .mapBinary _ a b _ | .join a b _ _ => RanksApart R K src a ∧ RanksApart R K src b
  | .aggregate ins params pred groupBy func order window perItem into _ _ =>
    ∀ values cat, orderRoute func ins.length params perItem window order into =
      some (values, .rank cat) →
      ∀ rows, RankedRows R K src ins pred order rows → RowsAtOwnItems groupBy cat rows
  | _ => True

/-- Whether a functional plan joins no two collections. -/
def unjoined : PlanNode → Bool
  | .mapUnary _ a _ => unjoined a
  | .mapBinary _ a b _ =>
    match literalValue a, literalValue b with
    | some _, none => unjoined b
    | none, some _ => unjoined a
    | _, _ => false
  | .join .. => false
  | _ => true

variable {S : Schema} {R : Registry} {K : Kernels} {src : Sources}

/-! ## Rankings -/

section Ranking

variable {groupBy : List CategoryId} {cat : CategoryId} {order : ItemOrder} {rows : Lines}

theorem rowsAtOwnItems_iff :
    RowsAtOwnItems groupBy cat rows ↔
      ∀ g, ((rows.filter fun x => projectKey x.1 groupBy = g).map
        fun x => itemOf x.1 cat).Nodup := by
  have hcount : ∀ g i, Multiset.count (g, i)
      (rows.map fun x => (projectKey x.1 groupBy, itemOf x.1 cat)) =
        Multiset.count i ((rows.filter fun x => projectKey x.1 groupBy = g).map
          fun x => itemOf x.1 cat) := by
    intro g i
    rw [Multiset.count_map, Multiset.count_map, Multiset.filter_filter]
    refine congrArg _ (Multiset.filter_congr fun x _ => ?_)
    rw [Prod.mk.injEq, and_comm, eq_comm (a := g)]
  unfold RowsAtOwnItems
  rw [Multiset.nodup_iff_count_le_one]
  constructor
  · intro h g
    refine Multiset.nodup_iff_count_le_one.mpr fun i => ?_
    rw [← hcount]
    exact h (g, i)
  · intro h x
    rw [hcount]
    exact Multiset.nodup_iff_count_le_one.mp (h x.1) x.2

/-- The labels of each group are distinct where the results are one to a
coordinate, given a result for each label. -/
theorem nodup_labels_of_oneValued {keyed : Multiset (CoordKey × AggRow)}
    {labels : List AggRow → List CoordKey} {values : List AggRow → List CellValue}
    (hlength : ∀ g, (labels (groupOf keyed g)).length ≤ (values (groupOf keyed g)).length)
    (hone : OneValued (landed labels values keyed)) {g : CoordKey}
    (hg : ∃ x ∈ keyed, x.1 = g) : (labels (groupOf keyed g)).Nodup := by
  unfold OneValued landed Bag.reduceInOrder Bag.reduce at hone
  rw [Multiset.map_map, Multiset.map_bind] at hone
  have hmem : g ∈ (keyed.map Prod.fst).dedup := by
    obtain ⟨x, hx, rfl⟩ := hg
    exact Multiset.mem_dedup.mpr (Multiset.mem_map_of_mem _ hx)
  have hgroup := (Multiset.nodup_bind.mp hone).1 g hmem
  rw [Multiset.map_coe, Multiset.coe_nodup, List.map_map] at hgroup
  have hfst : ((labels (groupOf keyed g)).zip (values (groupOf keyed g))).map Prod.fst =
      labels (groupOf keyed g) := List.map_fst_zip (hlength g)
  rw [← hfst]
  refine List.Nodup.of_map (fun l => sortKey (g ++ l)) ?_
  rw [List.map_map]
  exact hgroup

/-- Results per item that are one to a coordinate come from rows at items of
their own. -/
theorem rowsAtOwnItems_of_oneValued {values : List AggRow → List CellValue}
    (horder : order.head?.map (·.1) = some cat)
    (hlength : ∀ group : List AggRow, group.length ≤ (values group).length)
    (hone : OneValued (landed (itemLabels cat.id) values (rows.map (aggKey order groupBy)))) :
    RowsAtOwnItems groupBy cat rows := by
  refine rowsAtOwnItems_iff.mpr fun g => ?_
  by_cases hg : ∃ x ∈ rows, projectKey x.1 groupBy = g
  · obtain ⟨x, hx, hxg⟩ := hg
    have hlabels := nodup_labels_of_oneValued
      (fun g => by simpa [itemLabels, aggItems] using hlength _) hone
      ⟨_, Multiset.mem_map_of_mem _ hx, hxg⟩
    rw [← coe_aggItems horder, Multiset.coe_nodup]
    exact List.Nodup.of_map _ hlabels
  · have hnone : rows.filter (fun x => projectKey x.1 groupBy = g) = 0 :=
      Multiset.filter_eq_nil.mpr fun x hx hxg => hg ⟨x, hx, hxg⟩
    rw [hnone]
    exact Multiset.nodup_zero

end Ranking

/-! ## The broadcast -/

/-- A row of a join meets exactly its own cell of the side it was joined
with. -/
theorem filter_own_cell {d e keys : List CategoryId} {a : CoordKey × CellValue}
    {b : CoordKey × CellValue} {r : Coll} (ha : Coordinate S d a.1) (hr : Ranges S e r)
    (hone : OneValued r) (hb : b ∈ r) (hkeys : ∀ c ∈ d, c ∈ e → c ∈ keys)
    (hab : projectKey b.1 keys = projectKey a.1 keys) {shared : List CategoryId}
    (hshared : SameCats e shared) :
    (r.filter fun x => projectKey x.1 shared =
      projectKey (SparseKey.union a.1 b.1) shared) = {b} := by
  have hunion := ha.union (hr b hb)
  have hown : ∀ x ∈ r, projectKey x.1 shared = projectKey (SparseKey.union a.1 b.1) shared ↔
      x.1 = b.1 := by
    intro x hx
    have hlookup : ∀ c ∈ e, lookup (SparseKey.union a.1 b.1) c.id = lookup b.1 c.id := by
      intro c hc
      rw [lookup_union ha.at_dim.sorted (hr b hb).at_dim.sorted]
      by_cases hcd : c ∈ d
      · rw [lookup_eq_of_project_eq hab (List.mem_map_of_mem (hkeys c hcd hc)), Option.or_self]
      · have hnone : lookup a.1 c.id = none := by
          rw [lookup_eq_none_iff, ha.mem_names]
          exact hcd
        rw [hnone, Option.none_or]
    have hpb : projectKey (SparseKey.union a.1 b.1) shared = b.1 := by
      refine (hunion.project fun c hc => List.mem_append_right _ ((hshared c).mpr hc)).at_dim.ext
        ((hr b hb).congr hshared).at_dim fun n hn => ?_
      obtain ⟨c, hc, rfl⟩ := List.mem_map.mp hn
      unfold projectKey
      rw [lookup_project, if_pos hn]
      exact hlookup c ((hshared c).mpr hc)
    have hpx : projectKey x.1 shared = x.1 := by
      refine ((hr x hx).project fun c hc => (hshared c).mpr hc).at_dim.ext
        ((hr x hx).congr hshared).at_dim fun n hn => ?_
      unfold projectKey
      rw [lookup_project, if_pos hn]
    rw [hpb, hpx]
  rw [Multiset.filter_congr hown]
  have hnodup := hone.nodup.filter fun x => x.1 = b.1
  refine (Multiset.Nodup.ext hnodup (Multiset.nodup_singleton b)).mpr fun x => ?_
  rw [Multiset.mem_filter, Multiset.mem_singleton]
  constructor
  · intro h
    exact hone.eq_of_key_eq h.1 hb h.2
  · intro h
    subst h
    exact ⟨hb, rfl⟩

/-- Joining a broadcast's rows again with the side they were joined with adds
nothing. -/
theorem align_join {d e keys shared : List CategoryId} {al r : Coll} (hal : Ranges S d al)
    (hr : Ranges S e r) (hone : OneValued r) (hkeys : ∀ c ∈ d, c ∈ e → c ∈ keys)
    (hshared : SameCats e shared) : align (join al r keys) r shared = align al r keys := by
  unfold align join align Bag.join
  rw [Multiset.map_bind, Multiset.bind_assoc]
  refine Multiset.bind_congr fun a ha => ?_
  rw [Multiset.map_map, Multiset.bind_map]
  calc
    _ = ((r.filter fun b => projectKey b.1 keys = projectKey a.1 keys).bind fun b =>
          ({(SparseKey.union a.1 b.1, a.2, b.2)} : Multiset _)) := by
      refine Multiset.bind_congr fun b hb => ?_
      obtain ⟨hb, hab⟩ := Multiset.mem_filter.mp hb
      have hown := filter_own_cell (hal a ha) hr hone hb hkeys hab hshared
      simp only [Function.comp_def]
      rw [hown, Multiset.map_singleton]
      have hsub := ((hal a ha).union (hr b hb)).union_eq_left (hr b hb)
        fun c hc => List.mem_append_right _ hc
      rw [hsub]
    _ = _ := Multiset.bind_singleton _ _

/-- Every binary operator gives the cells of the general join of its sides,
where the right side holds one value at each coordinate. -/
theorem buildColl_eq_outerJoin {op : BinaryOp} {left right : PlanNode} {ty : TypeInfo}
    {c l r : Coll} (hsrc : ∀ m c, src m = some c → Ranges S (S.dims m) c)
    (hp : WellFormed S (.mapBinary op left right ty))
    (h : buildColl R K src (.mapBinary op left right ty) = .ok c)
    (hl : buildColl R K src left = .ok l) (hr : buildColl R K src right = .ok r)
    (hone : OneValued r) : c = outerJoin K op left right l r := by
  obtain ⟨l', r', hl', hr', hc⟩ := buildColl_mapBinary hp h
  obtain rfl : l' = l := Except.ok.inj (hl'.symm.trans hl)
  obtain rfl : r' = r := Except.ok.inj (hr'.symm.trans hr)
  rcases hc with hc | ⟨a, keys, u, al, rfl, hal, rfl, rfl⟩
  · exact hc
  · cases hp with
    | mapBinary hpl hpr _ _ =>
        cases hpl with
        | join hpa _ hu hkeys =>
            have hshared : SameCats right.cats (sharedCats (.join a right keys u) right) := by
              intro c
              unfold sharedCats
              rw [List.mem_filter, decide_eq_true_eq, iff_and_self]
              exact fun hc => (hu c).mp (List.mem_append_right _ hc)
            unfold outerJoin
            rw [align_join (ranges_buildColl hsrc hpa hal) (ranges_buildColl hsrc hpr hr) hone
              hkeys hshared]

/-! ## Functional plans are functions -/

section Aggregate

variable {ins params : List PlanNode} {pred : Option PlanNode} {groupBy : List CategoryId}
  {func : FuncId} {order : ItemOrder} {window : Option Window} {perItem : Bool}
  {into : ItemOrder} {flat : Bool} {ty : TypeInfo} {values : List CellValue} {cat : CategoryId}
  {c : Coll}

/-- A ranking's collection: each group's results at its rows' items. -/
theorem buildColl_rank (hsrc : ∀ m c, src m = some c → Ranges S (S.dims m) c)
    (hp : WellFormed S
      (.aggregate ins params pred groupBy func order window perItem into flat ty))
    (hroute : orderRoute func ins.length params perItem window order into =
      some (values, .rank cat))
    (h : buildColl R K src
      (.aggregate ins params pred groupBy func order window perItem into flat ty) = .ok c) :
    ∃ rows d capacity, RankedRows R K src ins pred order rows ∧ Ranges S d rows ∧
      (∀ c ∈ groupBy, c ∈ d) ∧ cat ∈ d ∧ (∀ c ∈ groupBy, c ∉ [cat]) ∧
      order.head?.map (·.1) = some cat ∧
      c = landed (itemLabels cat.id)
        (fun group => K.perItem func (aggRows ins.length capacity group) values)
        (rows.map (aggKey order groupBy)) := by
  cases hp with
  | aggregate hwf hwfp hdims =>
      rw [buildColl] at h
      obtain ⟨is, his, h⟩ := bind_eq_ok_iff.mp h
      obtain ⟨pc, hpc, h⟩ := bind_eq_ok_iff.mp h
      obtain ⟨ps, hps, h⟩ := bind_eq_ok_iff.mp h
      obtain ⟨first, rest, hzip⟩ := exists_zip_of_aggregate h
      have hparts := aggregateParts hsrc hdims hwf
        (fun p hp _ hc => ranges_buildColl hsrc (hwf p hp) hc)
        (fun p hp _ hc => ranges_buildColl hsrc (hwfp p hp) hc) his hps hpc hzip
      have hfst : (ins.zip is).map Prod.fst = ins := (mem_zip_of_buildColls his).2
      have hfstp : (params.zip ps).map (·.1) = params := (mem_zip_of_buildColls hps).2
      have hlen : (ins.zip is).length = ins.length := by
        rw [← List.length_map Prod.fst, hfst]
      obtain ⟨hwindow, hfolded, hspec⟩ := orderRoute_eq_some hroute
      rw [← hfstp] at hfolded
      obtain ⟨_, _, hins, hcase⟩ := aggregate_eq_ok h
      rw [hlen, hfstp, hroute] at hcase
      obtain ⟨rfl, rfl⟩ := List.cons.inj (hzip.symm.trans hins)
      rcases hcase with ⟨values', spec, hsome, rfl⟩ | ⟨hnone, -⟩
      · cases hsome
        rcases hspec with ⟨cat', hcat, hper, hinto, horder⟩ | ⟨hcells, -⟩
        · cases hcat
          have hdisj := hparts.dims.apart
          rw [landingCats_item hinto (by simp [hper]) horder] at hdisj
          exact ⟨_, _, _, ⟨is, pc, first, rest, his, hpc, hzip, rfl⟩, hparts.ranges_reduced,
            fun c hc => hparts.group_subset_reduced hfolded hc,
            hparts.head_mem_rowCats horder, hdisj, horder, rfl⟩
        · cases hcells
      · cases hnone

/-- A ranking of rows at items of their own holds one value at each
coordinate. -/
theorem oneValued_rank (hsrc : ∀ m c, src m = some c → Ranges S (S.dims m) c)
    (hp : WellFormed S
      (.aggregate ins params pred groupBy func order window perItem into flat ty))
    (hroute : orderRoute func ins.length params perItem window order into =
      some (values, .rank cat))
    (hrows : ∀ rows, RankedRows R K src ins pred order rows → RowsAtOwnItems groupBy cat rows)
    (h : buildColl R K src
      (.aggregate ins params pred groupBy func order window perItem into flat ty) = .ok c) :
    OneValued c := by
  obtain ⟨rows, d, capacity, hranked, hr, hgroup, hcat, hdisj, horder, rfl⟩ :=
    buildColl_rank hsrc hp hroute h
  exact oneValued_landed (ranges_keyed hr hgroup) (List.nodup_singleton cat) hdisj
    (landing_itemLabels horder hr hcat)
    (nodup_itemLabels horder (rowsAtOwnItems_iff.mp (hrows rows hranked)))

theorem RankedRows.unique {rows rows' : Lines} (h : RankedRows R K src ins pred order rows)
    (h' : RankedRows R K src ins pred order rows') : rows = rows' := by
  obtain ⟨is, pc, first, rest, his, hpc, hzip, rfl⟩ := h
  obtain ⟨is', pc', first', rest', his', hpc', hzip', rfl⟩ := h'
  cases his.symm.trans his'
  cases hpc.symm.trans hpc'
  cases hzip.symm.trans hzip'
  rfl

/-- A ranking that holds one value at each coordinate ranks rows at items of
their own. -/
theorem rowsAtOwnItems_of_rank (hsrc : ∀ m c, src m = some c → Ranges S (S.dims m) c)
    (hK : K.OnePerRow)
    (hp : WellFormed S
      (.aggregate ins params pred groupBy func order window perItem into flat ty))
    (hroute : orderRoute func ins.length params perItem window order into =
      some (values, .rank cat))
    (h : buildColl R K src
      (.aggregate ins params pred groupBy func order window perItem into flat ty) = .ok c)
    (hone : OneValued c) {rows : Lines} (hranked : RankedRows R K src ins pred order rows) :
    RowsAtOwnItems groupBy cat rows := by
  obtain ⟨rows', d, capacity, hranked', -, -, -, -, horder, rfl⟩ :=
    buildColl_rank hsrc hp hroute h
  rw [hranked.unique hranked']
  refine rowsAtOwnItems_of_oneValued horder (fun group => ?_) hone
  have hlength := hK func (aggRows ins.length capacity group) values (by simp [aggRows])
  rw [hlength]
  simp [aggRows]

/-- The aggregations the order-statistics operator does not take are functional
with a single result. -/
theorem functional_aggregate {f : MeasureId → Bool}
    (hf : functional f
      (.aggregate ins params pred groupBy func order window perItem into flat ty) = true) :
    (∃ values spec, orderRoute func ins.length params perItem window order into =
      some (values, spec)) ∨ (window = none ∧ perItem = false ∧ into = []) := by
  unfold functional at hf
  split at hf
  · next hroute =>
      obtain ⟨x, hx⟩ := Option.isSome_iff_exists.mp hroute
      exact .inl ⟨x.1, x.2, hx⟩
  · simp only [Bool.and_eq_true, Option.isNone_iff_eq_none, Bool.not_eq_true',
      List.isEmpty_iff] at hf
    exact .inr ⟨hf.1.1, hf.1.2, hf.2⟩

end Aggregate

theorem oneValued_of_literal {p : PlanNode} {v : CellValue} (hv : literalValue p = some v)
    {c : Coll} (h : buildColl R K src p = .ok c) : OneValued c := by
  cases p with
  | literal w ty =>
      rw [buildColl] at h
      cases h
      exact oneValued_constant _
  | _ => cases hv

/-- A functional plan whose rankings rank rows at items of their own holds one
value at each coordinate. -/
theorem oneValued_functional {f : MeasureId → Bool}
    (hsrc : ∀ m c, src m = some c → Ranges S (S.dims m) c)
    (hone : ∀ m c, f m = true → src m = some c → OneValued c) {p : PlanNode}
    (hp : WellFormed S p) : functional f p = true → RanksApart R K src p →
    ∀ c, buildColl R K src p = .ok c → OneValued c := by
  induction hp with
  | inputMeasure _ =>
      intro hf _ c h
      exact hone _ c hf (buildColl_inputMeasure.mp h)
  | mapUnary hp _ ih =>
      intro hf hr c h
      rw [buildColl] at h
      obtain ⟨c', hc', h⟩ := bind_eq_ok_iff.mp h
      cases h
      exact (ih hf hr c' hc').map_values _
  | @mapBinary op a b ty ha hb hty hsame iha ihb =>
      intro hf hr c h
      rw [functional] at hf
      have hsides : (functional f a = true ∨ ∃ v, literalValue a = some v) ∧
          (functional f b = true ∨ ∃ v, literalValue b = some v) := by
        split at hf
        · next v hv hw => exact ⟨.inr ⟨v, hv⟩, .inl hf⟩
        · next w hv hw => exact ⟨.inl hf, .inr ⟨w, hw⟩⟩
        · exact ⟨.inl (Bool.and_eq_true_iff.mp hf).1, .inl (Bool.and_eq_true_iff.mp hf).2⟩
        · cases hf
      refine oneValued_mapBinary hsrc (.mapBinary ha hb hty hsame) (fun c' hc' => ?_)
        (fun c' hc' => ?_) h
      · rcases hsides.1 with hfa | ⟨v, hv⟩
        · exact iha hfa hr.1 c' hc'
        · exact oneValued_of_literal hv hc'
      · rcases hsides.2 with hfb | ⟨v, hv⟩
        · exact ihb hfb hr.2 c' hc'
        · exact oneValued_of_literal hv hc'
  | join ha hb _ hkeys iha ihb =>
      intro hf hr c h
      rw [buildColl] at h
      obtain ⟨l, hl, h⟩ := bind_eq_ok_iff.mp h
      obtain ⟨r, hr', h⟩ := bind_eq_ok_iff.mp h
      cases h
      have hfab := Bool.and_eq_true_iff.mp hf
      have halign : OneValued (align l r _) :=
        oneValued_align (ranges_buildColl hsrc ha hl) (ranges_buildColl hsrc hb hr') hkeys
          (iha hfab.1 hr.1 l hl) (ihb hfab.2 hr.2 r hr')
      exact halign.map_values _
  | @aggregate ins params pred groupBy func order window perItem into flat ty hwf hwfp hdims =>
      intro hf hr c h
      have hp : WellFormed S
          (.aggregate ins params pred groupBy func order window perItem into flat ty) :=
        .aggregate hwf hwfp hdims
      rcases functional_aggregate hf with ⟨values, spec, hroute⟩ | ⟨rfl, rfl, rfl⟩
      · cases spec with
        | rank cat => exact oneValued_rank hsrc hp hroute (hr values cat hroute) h
        | sortBy cells =>
            have hinto : into ≠ [] := by
              obtain ⟨-, -, ⟨cat, hcat, -⟩ | ⟨-, hinto⟩⟩ := orderRoute_eq_some hroute
              · cases hcat
              · exact hinto
            exact oneValued_buildColl (f := fun _ => False) hsrc (fun _ _ hm => hm.elim)
              (.lists hinto) hp c h
      · exact oneValued_buildColl (f := fun _ => False) hsrc (fun _ _ hm => hm.elim)
          .single hp c h
  | literal _ => exact fun hf => absurd hf (by simp [functional])
  | items _ _ => exact fun hf => absurd hf (by simp [functional])
  | recurrence _ _ _ _ => exact fun hf => absurd hf (by simp [functional])
  | coalesce _ _ _ _ => exact fun hf => absurd hf (by simp [functional])
  | remap _ _ _ => exact fun hf => absurd hf (by simp [functional])
  | shift _ _ _ _ _ _ _ _ => exact fun hf => absurd hf (by simp [functional])
  | funcCall _ _ _ => exact fun hf => absurd hf (by simp [functional])
  | fixpoint => exact fun hf => absurd hf (by simp [functional])
  | cond _ _ _ _ _ _ _ _ _ _ => exact fun hf => absurd hf (by simp [functional])

theorem ranksApart_of_literal {p : PlanNode} {v : CellValue} (hv : literalValue p = some v) :
    RanksApart R K src p := by
  cases p with
  | literal w ty => trivial
  | _ => cases hv

theorem oneValued_of_map_values {c c' : Coll} {g : CoordKey × CellValue → CellValue}
    (hc : c = c'.map fun x => (x.1, g x)) (hone : OneValued c) : OneValued c' := by
  subst hc
  unfold OneValued at hone ⊢
  rw [Multiset.map_map] at hone
  exact hone

/-- Where no two collections are joined, one value at each coordinate needs
every ranking to rank rows at items of their own. -/
theorem ranksApart_of_oneValued (hsrc : ∀ m c, src m = some c → Ranges S (S.dims m) c)
    (hK : K.OnePerRow)
    {p : PlanNode} (hp : WellFormed S p) : unjoined p = true →
    ∀ c, buildColl R K src p = .ok c → OneValued c → RanksApart R K src p := by
  induction hp with
  | mapUnary _ _ ih =>
      intro hu c h hone
      rw [buildColl] at h
      obtain ⟨c', hc', h⟩ := bind_eq_ok_iff.mp h
      exact ih hu c' hc' (oneValued_of_map_values (Except.ok.inj h).symm hone)
  | @mapBinary op a b ty _ _ _ _ iha ihb =>
      intro hu c h hone
      rw [unjoined] at hu
      rw [buildColl_mapBinary_eq] at h
      obtain ⟨side, -, h⟩ := bind_eq_ok_iff.mp h
      obtain ⟨l, hl, h⟩ := bind_eq_ok_iff.mp h
      obtain ⟨r, hr, h⟩ := bind_eq_ok_iff.mp h
      have hc := (Except.ok.inj h).symm
      unfold mapBinary at hc
      split at hu
      · next v hv hw =>
          rw [hv, hw] at hc
          exact ⟨ranksApart_of_literal hv, ihb hu r hr (oneValued_of_map_values hc hone)⟩
      · next w hv hw =>
          rw [hv, hw] at hc
          exact ⟨iha hu l hl (oneValued_of_map_values hc hone), ranksApart_of_literal hw⟩
      · cases hu
  | join _ _ _ _ _ _ => exact fun hu => absurd hu (by simp [unjoined])
  | aggregate hwf hwfp hdims =>
      intro _ c h hone values cat hroute rows hranked
      exact rowsAtOwnItems_of_rank hsrc hK (.aggregate hwf hwfp hdims) hroute h hone hranked
  | inputMeasure _ => exact fun _ _ _ _ => trivial
  | literal _ => exact fun _ _ _ _ => trivial
  | items _ _ => exact fun _ _ _ _ => trivial
  | recurrence _ _ _ _ => exact fun _ _ _ _ => trivial
  | coalesce _ _ _ _ => exact fun _ _ _ _ => trivial
  | remap _ _ _ => exact fun _ _ _ _ => trivial
  | shift _ _ _ _ _ _ _ _ => exact fun _ _ _ _ => trivial
  | funcCall _ _ _ => exact fun _ _ _ _ => trivial
  | fixpoint => exact fun _ _ _ _ => trivial
  | cond _ _ _ _ _ _ _ _ _ _ => exact fun _ _ _ _ => trivial

/-- Rankings as the kernel gives them for numbers, from the largest; nothing
else is computed. -/
def rankKernels : Kernels where
  eval _ _ := .err Err.NA
  reduce _ _ _ := .err Err.NA
  array _ _ _ := []
  perItem _ rows _ :=
    let number (vs : List CellValue) : F64 := (vs.head?.bind CellValue.asNum).getD .zero
    rows.vals.map fun v =>
      .ofF64 (.ofNat (1 + (rows.vals.filter fun w => (number v).lt (number w)).length))
  windows _ _ _ _ := []
  part _ _ := []
  finish _ _ := .err Err.NA
  powf _ _ := .nan
  displayNumber _ := ""
  displayDate _ := ""
  toLowercase s := s

/-- A measure over `A`, `T` and `C`. -/
def rankMeasure : MeasureId := ⟨1⟩

def rankSchema : Schema where
  dims m := if m = rankMeasure then [⟨1⟩, ⟨2⟩, ⟨3⟩] else []
  items _ _ := True

/-- 5 and 7 at two items of `C`. -/
def rankCells : Coll :=
  {([(1, 10), (2, 20), (3, 30)], .ofF64 (.ofNat 5)),
    ([(1, 10), (2, 20), (3, 31)], .ofF64 (.ofNat 7))}

def rankSources : Sources := fun m => if m = rankMeasure then some rankCells else none

/-- `RANK(x[A] OVER T)`. -/
def rankPlan : PlanNode :=
  .aggregate [.inputMeasure rankMeasure ⟨.number, .of [⟨1⟩]⟩] [] none [⟨1⟩] ⟨1050⟩
    [(⟨2⟩, [⟨20⟩])] none true [] false ⟨.number, .of [⟨1⟩, ⟨2⟩]⟩

/-- Both ranks at the one cell of the result. -/
def rankResult : Coll :=
  {([(1, 10), (2, 20)], .ofF64 (.ofNat 2)), ([(1, 10), (2, 20)], .ofF64 (.ofNat 1))}

theorem wellFormed_rankPlan : WellFormed rankSchema rankPlan := by
  refine .aggregate (by simp) (by simp) ?_
  exact
    { reducible := by
        intro p hp
        refine ⟨_, _, List.mem_singleton.mp hp, ?_, ?_⟩ <;> decide
      filtered := by simp
      grouped := by decide
      apart := by decide
      distinct := by decide
      items := by simp
      result := fun c => by
        change c ∈ [⟨1⟩, ⟨2⟩] ↔ c ∈ (Dim.of [⟨1⟩, ⟨2⟩]).categories
        rw [Dim.mem_of]
      along := by simp }

theorem ranges_rankSources {m : MeasureId} {c : Coll} (h : rankSources m = some c) :
    Ranges rankSchema (rankSchema.dims m) c ∧ OneValued c := by
  unfold rankSources at h
  split at h
  · next hm =>
      cases h
      subst hm
      refine ⟨fun x hx => ⟨?_, fun _ _ => trivial⟩, by unfold OneValued; decide⟩
      have hcells : ∀ x ∈ rankCells, Sorted x.1 ∧ names x.1 = [1, 2, 3] := by decide
      obtain ⟨hsorted, hnames⟩ := hcells x hx
      exact ⟨hsorted, fun n => by rw [hnames]; rfl⟩
  · cases h

theorem onePerRow_rankKernels : rankKernels.OnePerRow := by
  intro func rows params _
  simp [rankKernels]

theorem buildColl_rankPlan :
    buildColl ⟨[]⟩ rankKernels rankSources rankPlan = .ok rankResult := by
  decide +kernel

end Improv.Engine
