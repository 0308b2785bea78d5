import Improv.Engine.Functional
import Improv.Engine.TwoLevelReductions
/-!
# Groups in two levels

The groups of a plan's reduction: the dataflow reduces each group's rows block
by block and finishes the blocks' parts in block order.  Over a category whose
items are listed, each group has its flat reduction's result.
-/

namespace Improv.Engine

open Improv.Lib Improv.Lib.Bag Improv.CoreModel

/-! ## Groups in two levels -/

/-- The kernels reduce as the flat and the two-level reductions do. -/
structure Kernels.Reduces (K : Kernels) (families : Families) : Prop where
  reduce : ∀ func rows params v, Engine.reduce families func rows params = some v →
    K.reduce func rows params = v
  finish : ∀ func (blocks : List Rows) parts merged,
    blocks.mapM (TwoLevel.part func) = some parts → TwoLevel.merge func parts = some merged →
      K.finish func (blocks.map (K.part func)) = TwoLevel.finish func merged

open TwoLevel (Places rowsOf)

/-- The reduction row of an item's value. -/
def placed (P : Places) (r : Nat × CellValue) : AggRow := toLex (toLex ([P.pos r.1], r.1), [r.2])

variable {P : Places} {K : Kernels} {families : Families} {func : FuncId} {order : ItemOrder}
  {capacity : Nat}

theorem placed_le {a b : Nat × CellValue} (h : P.key a ≤ P.key b) : placed P a ≤ placed P b := by
  unfold Places.key at h
  unfold placed
  have hsingle : ∀ {α : Type} [LinearOrder α] (x y : α), x < y → [x] < [y] := fun x y hxy =>
    List.cons_lt_cons_iff.mpr (.inl hxy)
  rw [Prod.Lex.toLex_le_toLex] at h ⊢
  rcases h with hlt | ⟨heq, hle⟩
  · exact .inl (Prod.Lex.toLex_lt_toLex.mpr (.inl (hsingle _ _ hlt)))
  · have hitem : a.1 = b.1 := P.injective heq
    refine .inr ⟨by rw [hitem], ?_⟩
    rcases Prod.Lex.toLex_le_toLex.mp hle with hlt | ⟨-, hvalue⟩
    · exact absurd hlt (by omega)
    · rcases lt_or_eq_of_le hvalue with hlt | heq
      · exact (hsingle _ _ hlt).le
      · rw [heq]

theorem inOrder_placed (l : List (Nat × CellValue)) :
    inOrder ((l : Multiset (Nat × CellValue)).map (placed P)) =
      (l.mergeSort fun a b => decide (P.key a ≤ P.key b)).map (placed P) := by
  have hsorted := @List.pairwise_mergeSort _ (fun a b => decide (P.key a ≤ P.key b))
    (fun a b c hab hbc => by
      rw [decide_eq_true_eq] at hab hbc ⊢
      exact hab.trans hbc)
    (fun a b => by
      rw [Bool.or_eq_true, decide_eq_true_eq, decide_eq_true_eq]
      exact le_total _ _) l
  refine (eq_inOrder ?_ (List.pairwise_map.mpr (hsorted.imp fun h =>
    placed_le (of_decide_eq_true h)))).symm
  rw [Multiset.map_coe, Multiset.coe_eq_coe]
  exact (List.mergeSort_perm l _).map _

theorem aggRows_placed (l : List (Nat × CellValue)) :
    aggRows 1 capacity (inOrder ((l : Multiset (Nat × CellValue)).map (placed P))) =
      rowsOf capacity (P.inOrder l) := by
  rw [inOrder_placed]
  unfold aggRows rowsOf Places.inOrder
  rw [List.map_map, List.map_map, List.map_map, List.map_map]
  rfl

/-- The block of a reduction row. -/
def rowBlock (r : AggRow) : Nat := blockOf (ofLex (ofLex r).1).2

theorem twoLevelApplies_eq (func : FuncId) (nIn nParams : Nat) (order : ItemOrder) :
    twoLevelApplies func nIn nParams order = TwoLevel.applies func nIn nParams order := by
  unfold twoLevelApplies TwoLevel.applies
  rw [Bool.or_assoc]
  congr 2
  · congr 1
    · congr 1
      rw [Bool.decide_or]
      rfl

/-- A group reduced block by block has the flat reduction's result. -/
theorem Kernels.Reduces.finish_blocks (hK : K.Reduces families)
    (happlies : twoLevelApplies func 1 0 order = true) (hfunc : func.id ≠ 5 ∧ func.id ≠ 6)
    (capacity : Nat) {rows : List (Nat × CellValue)} (hne : rows ≠ [])
    (hlen : rows.length < 2 ^ 59)
    (hsum : func.id = 1 ∨ func.id = 2 → rows.length ≤ 2 ^ 45 - 2 ^ 13) {bs : List Nat}
    (hbs : bs.Nodup) (hmem : ∀ r ∈ rows, blockOf r.1 ∈ bs)
    (hused : ∀ b ∈ bs, ∃ r ∈ rows, blockOf r.1 = b) :
    K.finish func (bs.map fun b =>
        K.part func (rowsOf capacity (P.inOrder (rows.filter fun r => blockOf r.1 = b)))) =
      K.reduce func (rowsOf capacity (P.inOrder rows)) [] := by
  let parts := bs.map fun b => rows.filter fun r => blockOf r.1 = b
  have hsplit : parts.flatten.Perm rows := flatten_classes_perm _ hbs hmem
  rw [twoLevelApplies_eq] at happlies
  obtain ⟨vs, hflat, hempty, htwo⟩ := TwoLevel.twoLevel_eq_flat happlies P families capacity hsplit
    hlen hsum
  rw [if_neg fun h => h.1.elim hfunc.1 hfunc.2] at htwo
  have hvals : (rowsOf capacity (P.inOrder rows)).vals.isEmpty = false := by
    rw [List.isEmpty_eq_false_iff]
    intro hnil
    exact hne (P.inOrder_eq_nil.mp (List.map_eq_nil_iff.mp hnil))
  unfold TwoLevel.flatGroup at hflat
  rw [hvals, if_neg (by decide)] at hflat
  obtain ⟨v, hv, rfl⟩ := Option.map_eq_some_iff.mp hflat
  have hfilter : (parts.map fun l => rowsOf capacity (P.inOrder l)).filter
      (fun rs => !rs.vals.isEmpty) = parts.map fun l => rowsOf capacity (P.inOrder l) := by
    refine List.filter_eq_self.mpr fun rs hrs => ?_
    obtain ⟨l, hl, rfl⟩ := List.mem_map.mp hrs
    obtain ⟨b, hb, rfl⟩ := List.mem_map.mp hl
    obtain ⟨r, hr, hrb⟩ := hused b hb
    rw [Bool.not_eq_true', List.isEmpty_eq_false_iff]
    intro hnil
    have hnone := P.inOrder_eq_nil.mp (List.map_eq_nil_iff.mp hnil)
    exact List.filter_eq_nil_iff.mp hnone r hr (decide_eq_true hrb)
  unfold TwoLevel.twoLevelGroup at htwo
  rw [hfilter] at htwo
  obtain ⟨Ps, hparts, htwo⟩ := Option.bind_eq_some_iff.mp htwo
  split at htwo
  · cases htwo
  · obtain ⟨M, hmerge, hfinish⟩ := Option.bind_eq_some_iff.mp htwo
    have hblocks := hK.finish func _ Ps M hparts hmerge
    rw [hK.reduce func _ _ v hv]
    have hv' : TwoLevel.finish func M = v := by
      simpa using hfinish
    rw [← hv', ← hblocks, List.map_map, List.map_map]
    rfl

/-- A reduction in two levels finishes each group's blocks in block order. -/
theorem twoLevel_blocks (capacity : Nat) (keyed : Multiset (CoordKey × AggRow)) :
    twoLevel K func capacity keyed =
      Bag.reduceInOrder (fun l => [K.finish func ((blocks rowBlock l).map fun b =>
        K.part func (aggRows 1 capacity (l.filter (rowBlock · = b))))]) keyed := by
  refine (reduceInOrder_blocks rowBlock (fun group => K.part func (aggRows 1 capacity group))
    (fun parts : List (Nat ×ₗ List Nat) => [K.finish func (parts.dedup.map fun p => (ofLex p).2)])
    keyed).trans (reduceInOrder_congr fun x _ => ?_)
  have hnodup : ((blocks rowBlock (inOrder ((keyed.filter fun y => y.1 = x.1).map Prod.snd))).map
      fun b => toLex (b, K.part func (aggRows 1 capacity
        ((inOrder ((keyed.filter fun y => y.1 = x.1).map Prod.snd)).filter
          (rowBlock · = b))))).Nodup := by
    refine List.Nodup.of_map (fun p : Nat ×ₗ List Nat => (ofLex p).1) ?_
    rw [List.map_map]
    exact (List.map_id _).symm ▸ nodup_inOrder (Multiset.nodup_dedup _)
  rw [hnodup.dedup, List.map_map]
  rfl

theorem filter_placed (l : List (Nat × CellValue)) (b : Nat) :
    (inOrder ((l : Multiset (Nat × CellValue)).map (placed P))).filter (rowBlock · = b) =
      inOrder (((l.filter fun r => blockOf r.1 = b : List (Nat × CellValue)) :
        Multiset (Nat × CellValue)).map (placed P)) := by
  rw [← inOrder_filter, Multiset.filter_map, ← Multiset.filter_coe]
  rfl

/-- A reduction in two levels of rows that each hold a value of an item gives
each group's flat reduction. -/
theorem Kernels.Reduces.twoLevel_eq (hK : K.Reduces families)
    (happlies : twoLevelApplies func 1 0 order = true) (hfunc : func.id ≠ 5 ∧ func.id ≠ 6)
    (capacity : Nat) {rows : Multiset (CoordKey × (Nat × CellValue))}
    (hcard : rows.card ≤ 2 ^ 45 - 2 ^ 13) :
    twoLevel K func capacity (rows.map fun x => (x.1, placed P x.2)) =
      Bag.reduceInOrder (singleResult K func 1 capacity [])
        (rows.map fun x => (x.1, placed P x.2)) := by
  rw [twoLevel_blocks]
  refine reduceInOrder_congr fun x hx => ?_
  obtain ⟨y, hy, rfl⟩ := Multiset.mem_map.mp hx
  obtain ⟨l, hl⟩ := Quot.exists_rep ((rows.filter fun z => z.1 = y.1).map Prod.snd)
  have hgroup : ((rows.map fun x => (x.1, placed P x.2)).filter fun z => z.1 = y.1).map Prod.snd =
      (l : Multiset (Nat × CellValue)).map (placed P) := by
    rw [show (l : Multiset (Nat × CellValue)) = _ from hl, Multiset.filter_map, Multiset.map_map,
      Multiset.map_map]
    rfl
  have hcount : l.length ≤ rows.card := by
    rw [← Multiset.coe_card, show (l : Multiset (Nat × CellValue)) = _ from hl, Multiset.card_map]
    exact Multiset.card_le_card (Multiset.filter_le _ _)
  have hne : l ≠ [] := by
    intro hnil
    have hmem : y.2 ∈ (rows.filter fun z => z.1 = y.1).map Prod.snd :=
      Multiset.mem_map_of_mem _ (Multiset.mem_filter.mpr ⟨hy, rfl⟩)
    rw [← hl, hnil] at hmem
    exact absurd hmem (Multiset.notMem_zero _)
  rw [hgroup]
  let L := inOrder ((l : Multiset (Nat × CellValue)).map (placed P))
  have hmemL : ∀ b, b ∈ blocks rowBlock L ↔ ∃ r ∈ l, blockOf r.1 = b := by
    intro b
    rw [mem_blocks]
    constructor
    · rintro ⟨a, ha, rfl⟩
      obtain ⟨r, hr, rfl⟩ := Multiset.mem_map.mp (mem_inOrder.mp ha)
      exact ⟨r, hr, rfl⟩
    · rintro ⟨r, hr, rfl⟩
      exact ⟨placed P r, mem_inOrder.mpr (Multiset.mem_map_of_mem _ hr), rfl⟩
  have hnotempty : L.isEmpty = false := by
    rw [List.isEmpty_eq_false_iff]
    intro hnil
    have hlength := congrArg Multiset.card (coe_inOrder ((l : Multiset _).map (placed P)))
    rw [show inOrder ((l : Multiset _).map (placed P)) = [] from hnil, Multiset.card_map] at hlength
    exact hne (List.length_eq_zero_iff.mp hlength.symm)
  have hblocks : (blocks rowBlock L).map (fun b =>
      K.part func (aggRows 1 capacity (L.filter (rowBlock · = b)))) =
      (blocks rowBlock L).map fun b => K.part func
        (rowsOf capacity (P.inOrder (l.filter fun r => blockOf r.1 = b))) := by
    refine List.map_congr_left fun b _ => ?_
    rw [filter_placed, aggRows_placed]
  unfold singleResult
  have hbs : (blocks rowBlock L).Nodup := nodup_inOrder (Multiset.nodup_dedup _)
  have hfinish := hK.finish_blocks (P := P) happlies hfunc capacity hne (by omega)
    (fun _ => by omega) hbs (fun r hr => (hmemL _).mpr ⟨r, hr, rfl⟩) fun b hb => (hmemL b).mp hb
  rw [hnotempty, if_neg (by decide), hblocks, hfinish, aggRows_placed]
  rfl

/-! ## Either way the same -/

/-- An order that lists each item of its category once. -/
structure Listed (S : Schema) (o : CategoryId × List ItemId) : Prop where
  nodup : o.2.Nodup
  all : ∀ i, S.items o.1 i → i ∈ o.2
  length_le : o.2.length ≤ 2 ^ 31 - 1

theorem nodup_ids {items : List ItemId} (h : items.Nodup) : (items.map (·.id)).Nodup :=
  h.map fun _ _ hid => congrArg ItemId.mk hid

theorem positionOf_eq {items : List ItemId} (hnodup : items.Nodup) {i : ItemId} (hi : i ∈ items) :
    positionOf items i.id = some ((items.map (·.id)).idxOf i.id) := by
  have hids := nodup_ids hnodup
  unfold positionOf
  cases hfind : items.zipIdx.reverse.find? fun x => x.1.id = i.id with
  | none =>
      obtain ⟨n, hn, hin⟩ := List.getElem_of_mem hi
      have hmem : (i, n) ∈ items.zipIdx.reverse := by
        rw [List.mem_reverse, List.mk_mem_zipIdx_iff_getElem?, List.getElem?_eq_getElem hn, hin]
      exact absurd (decide_eq_true rfl) (List.find?_eq_none.mp hfind _ hmem)
  | some x =>
      have hx : x.1.id = i.id := by simpa using List.find?_some hfind
      have hmem := List.mem_reverse.mp (List.mem_of_find?_eq_some hfind)
      have hget : items[x.2]? = some x.1 := List.mem_zipIdx_iff_getElem?.mp hmem
      have hid : (items.map (·.id))[x.2]? = some i.id := by
        rw [List.getElem?_map, hget, Option.map_some, hx]
      obtain ⟨hlt, hat⟩ := List.getElem?_eq_some_iff.mp hid
      rw [Option.map_some, ← hat, hids.idxOf_getElem]

section Either

variable {S : Schema} {R : Registry} {src : Sources} {ins params : List PlanNode}
  {pred : Option PlanNode} {groupBy : List CategoryId} {window : Option Window} {perItem : Bool}
  {into : ItemOrder} {ty : TypeInfo} {first : PlanNode × Coll} {cat : CategoryId}
  {items : List ItemId}

/-- The items' places in their order. -/
def Listed.places (h : Listed S (cat, items)) : Places :=
  Places.ofItems (items.map (·.id)) (nodup_ids h.nodup) (by
    rw [List.length_map]
    exact h.length_le)

theorem Listed.sortPosition_eq (h : Listed S (cat, items)) {i : ItemId} (hi : S.items cat i) :
    sortPosition items i.id = h.places.pos i.id := by
  have hmem := h.all i hi
  unfold sortPosition
  rw [positionOf_eq h.nodup hmem, Option.getD_some]
  exact (if_pos (List.mem_map_of_mem hmem)).symm

/-- The rows of a reduction of one input hold one value each. -/
theorem singleton_of_reducedRows {reduced : List CategoryId} {pred : Option (PlanNode × Coll)}
    {x : CoordKey × List CellValue} (hx : x ∈ reducedRows reduced first [] pred) :
    ∃ v, x.2 = [v] := by
  unfold reducedRows at hx
  cases pred with
  | none =>
      obtain ⟨y, -, rfl⟩ := Multiset.mem_map.mp hx
      exact ⟨y.2, rfl⟩
  | some p =>
      obtain ⟨y, hy, hwhere⟩ := (Multiset.mem_filterMap _ _).mp hx
      obtain ⟨vs, hvs, rfl⟩ := Option.map_eq_some_iff.mp hwhere
      obtain ⟨a, ha, b, -, -, rfl⟩ := mem_join.mp hy
      obtain ⟨z, -, rfl⟩ := Multiset.mem_map.mp ha
      dsimp only at hvs
      unfold whereRow at hvs
      split at hvs
      · exact ⟨z.2, (Option.some.inj hvs).symm⟩
      · exact ⟨_, (Option.some.inj hvs).symm⟩
      · cases hvs

/-- The rows a reduction keys hold a value of an item each. -/
theorem exists_placed (groupBy : List CategoryId) (h : Listed S (cat, items))
    {d : List CategoryId} {rows : Lines} (hrows : Ranges S d rows) (hcat : cat ∈ d)
    (hone : ∀ x ∈ rows, ∃ v, x.2 = [v]) :
    ∃ values : Multiset (CoordKey × (Nat × CellValue)), values.card = rows.card ∧
      rows.map (aggKey [(cat, items)] groupBy) =
        values.map fun x => (x.1, placed h.places x.2) := by
  refine ⟨rows.map fun x =>
    (projectKey x.1 groupBy, itemOf x.1 cat, x.2.headD (.bool true)), Multiset.card_map _ _, ?_⟩
  rw [Multiset.map_map]
  refine Multiset.map_congr rfl fun x hx => ?_
  obtain ⟨v, hv⟩ := hone x hx
  have hitem := (hrows x hx).item _ (SparseKey.mem_of_lookup ((hrows x hx).itemOf_mem hcat))
  have hplace := h.sortPosition_eq (i := ⟨itemOf x.1 cat⟩) hitem
  rw [Function.comp_apply, hv]
  unfold aggKey aggRow placed
  rw [hv, List.map_cons, List.map_nil, hplace]
  rfl

/-- A reduction that gives the same bits either way has the same cells in two
levels and flat. -/
theorem Kernels.Reduces.aggregateRows_eq (hK : K.Reduces families) (h : Listed S (cat, items))
    (happlies : twoLevelApplies func 1 0 [(cat, items)] = true)
    (hfunc : func.id ≠ 5 ∧ func.id ≠ 6) {d : List CategoryId}
    {rows : Lines} (hrows : Ranges S d rows) (hcat : cat ∈ d)
    (hone : ∀ x ∈ rows, ∃ v, x.2 = [v]) (hcard : rows.card ≤ 2 ^ 45 - 2 ^ 13) (b b' : Bool) :
    aggregateRows K func 1 capacity [] [(cat, items)] none false [] b
        (rows.map (aggKey [(cat, items)] groupBy)) =
      aggregateRows K func 1 capacity [] [(cat, items)] none false [] b'
        (rows.map (aggKey [(cat, items)] groupBy)) := by
  obtain ⟨values, hvalues, hkeyed⟩ := exists_placed groupBy h hrows hcat hone
  have htwo : twoLevel K func capacity (rows.map (aggKey [(cat, items)] groupBy)) =
      Bag.reduceInOrder (singleResult K func 1 capacity [])
        (rows.map (aggKey [(cat, items)] groupBy)) := by
    rw [hkeyed]
    exact hK.twoLevel_eq happlies hfunc capacity (by omega)
  have heither : ∀ b, aggregateRows K func 1 capacity [] [(cat, items)] none false [] b
      (rows.map (aggKey [(cat, items)] groupBy)) =
        Bag.reduceInOrder (singleResult K func 1 capacity [])
          (rows.map (aggKey [(cat, items)] groupBy)) := by
    intro b
    cases b with
    | true => exact htwo
    | false => rfl
  rw [heither b, heither b']

end Either

end Improv.Engine
