import Improv.Engine.Coordinates
/-!
# What the operators keep

The categories each operator's rows range over, and when an operator whose
inputs hold at most one row at each coordinate does so itself.
-/

namespace Improv.Engine

open Improv.Lib Improv.Lib.SparseKey Improv.Lib.Bag Improv.CoreModel

variable {S : Schema} {V W : Type} {d e keys groupBy : List CategoryId}

theorem Ranges.congr {c : Multiset (CoordKey × V)} (h : Ranges S d c) (hde : SameCats d e) :
    Ranges S e c :=
  fun x hx => (h x hx).congr hde

theorem Ranges.map {c : Multiset (CoordKey × V)} (h : Ranges S d c) {f : CoordKey × V → W} :
    Ranges S d (c.map fun x => (x.1, f x)) := by
  intro x hx
  obtain ⟨y, hy, rfl⟩ := Multiset.mem_map.mp hx
  exact h y hy

theorem Ranges.oneEach {c : Coll} (h : Ranges S d c) : Ranges S d (oneEach c) := Ranges.map h

theorem ranges_constant (v : CellValue) : Ranges S [] (constant v) := by
  intro x hx
  rw [constant, Multiset.mem_singleton] at hx
  subst hx
  exact .nil

/-! ## Alignment -/

section Alignment

variable {l : Multiset (CoordKey × V)} {r : Coll}

theorem ranges_align (hl : Ranges S d l) (hr : Ranges S e r) :
    Ranges S (d ++ e) (align l r keys) := by
  intro x hx
  obtain ⟨a, ha, b, hb, -, rfl⟩ := mem_join.mp hx
  exact (hl a ha).union (hr b hb)

theorem oneValued_align (hl : Ranges S d l) (hr : Ranges S e r)
    (hkeys : ∀ c ∈ d, c ∈ e → c ∈ keys) (hlo : OneValued l) (hro : OneValued r) :
    OneValued (align l r keys) := by
  refine hlo.join hro fun a ha b hb hab a' ha' b' hb' hab' heq => ?_
  refine At.eq_of_union_eq (hl a ha).at_dim (hl a' ha').at_dim (hr b hb).at_dim
    (hr b' hb').at_dim (fun n hn hn' => ?_) hab.symm hab'.symm heq
  obtain ⟨c, hc, rfl⟩ := List.mem_map.mp hn
  exact List.mem_map_of_mem (hkeys c hc (mem_map_id.mp hn'))

/-- Aligned with categories it has, a row keeps its coordinate. -/
theorem exists_of_mem_align (hl : Ranges S d l) (hr : Ranges S e r) (hsub : ∀ c ∈ e, c ∈ d)
    {x : CoordKey × V × CellValue} (hx : x ∈ align l r keys) : (x.1, x.2.1) ∈ l := by
  obtain ⟨a, ha, b, hb, -, rfl⟩ := mem_join.mp hx
  rw [(hl a ha).union_eq_left (hr b hb) hsub]
  exact ha

theorem ranges_align_of_subset (hl : Ranges S d l) (hr : Ranges S e r)
    (hsub : ∀ c ∈ e, c ∈ d) : Ranges S d (align l r keys) :=
  fun _ hx => hl _ (exists_of_mem_align hl hr hsub hx)

end Alignment

section AlignAll

/-! A measure's reference may keep fewer categories than the measure's cells
have; `dims` gives the cells' categories. -/

variable {dims : PlanNode → List CategoryId} {extra : List CategoryId}
  {rest : List (PlanNode × Coll)} {rows : Lines} {dim : List CategoryId}

theorem ranges_alignAll (hrows : Ranges S d rows)
    (hrest : ∀ n ∈ rest, Ranges S (dims n.1) n.2) :
    Ranges S (d ++ rest.flatMap fun n => dims n.1) (alignAll extra rows dim rest) := by
  induction rest generalizing rows dim d with
  | nil => simpa [alignAll] using hrows
  | cons n rest ih =>
      rw [alignAll, List.flatMap_cons, ← List.append_assoc]
      have hn := hrest n List.mem_cons_self
      exact ih (ranges_align hrows hn).map fun n hn => hrest n (List.mem_cons_of_mem _ hn)

theorem oneValued_alignAll (hrows : Ranges S d rows)
    (hrest : ∀ n ∈ rest, Ranges S (dims n.1) n.2)
    (hdims : ∀ n ∈ rest, ∀ c ∈ dims n.1, c ∈ n.1.cats ++ extra) (hdim : ∀ c ∈ d, c ∈ dim)
    (hone : OneValued rows) (hones : ∀ n ∈ rest, OneValued n.2) :
    OneValued (alignAll extra rows dim rest) := by
  induction rest generalizing rows dim d with
  | nil => exact hone
  | cons n rest ih =>
      rw [alignAll]
      have hn := hrest n List.mem_cons_self
      have hdn := hdims n List.mem_cons_self
      refine ih (ranges_align hrows hn).map (fun n hn => hrest n (List.mem_cons_of_mem _ hn))
        (fun n hn => hdims n (List.mem_cons_of_mem _ hn)) (fun c hc => ?_) ?_
        fun n hn => hones n (List.mem_cons_of_mem _ hn)
      · rw [List.mem_append, List.mem_filter]
        by_cases hcd : c ∈ dim
        · exact .inl hcd
        · have hcn : c ∈ n.1.cats ++ extra := by
            rcases List.mem_append.mp hc with h | h
            · exact absurd (hdim c h) hcd
            · exact hdn c h
          exact .inr ⟨hcn, by simpa using hcd⟩
      · refine OneValued.map_values (oneValued_align hrows hn (fun c hc hcn => ?_) hone
          (hones n List.mem_cons_self)) _
        rw [List.mem_filter]
        exact ⟨hdn c hcn, by simpa using hdim c hc⟩

theorem subset_alignedCats {nodes : List PlanNode} {c : CategoryId}
    (hc : c ∈ dim ∨ ∃ n ∈ nodes, c ∈ n.cats ++ extra) : c ∈ alignedCats extra dim nodes := by
  induction nodes generalizing dim with
  | nil => simpa [alignedCats] using hc
  | cons n nodes ih =>
      refine ih ?_
      by_cases hcd : c ∈ dim
      · exact .inl (List.mem_append_left _ hcd)
      · rcases hc with hc | ⟨m, hm, hcm⟩
        · exact absurd hc hcd
        · rcases List.mem_cons.mp hm with rfl | hm
          · refine .inl (List.mem_append_right _ (List.mem_filter.mpr ⟨hcm, ?_⟩))
            simpa using hcd
          · exact .inr ⟨m, hm, hcm⟩

end AlignAll

/-! ## Landing a group's results -/

/-- A group's results at the coordinates they land on. -/
theorem ranges_land {rows : Multiset (CoordKey × W × CellValue)} (place : W → CoordKey)
    (hd : Ranges S d rows) (he : e.Nodup) (hdisj : ∀ c ∈ d, c ∉ e)
    (hplace : ∀ x ∈ rows, Landing S e (place x.2.1)) :
    Ranges S (d ++ e) (rows.map fun x => (sortKey (x.1 ++ place x.2.1), x.2.2)) := by
  intro y hy
  obtain ⟨x, hx, rfl⟩ := Multiset.mem_map.mp hy
  exact (hd x hx).append (hplace x hx) he hdisj

theorem oneValued_land {rows : Multiset (CoordKey × W × CellValue)} (place : W → CoordKey)
    (hd : Ranges S d rows) (he : e.Nodup) (hdisj : ∀ c ∈ d, c ∉ e)
    (hplace : ∀ x ∈ rows, Landing S e (place x.2.1)) (hinj : Function.Injective place)
    (hlabels : (rows.map fun x => (x.1, x.2.1)).Nodup) :
    OneValued (rows.map fun x => (sortKey (x.1 ++ place x.2.1), x.2.2)) := by
  unfold OneValued
  rw [Multiset.map_map]
  refine Multiset.Nodup.map_on (fun x hx y hy heq => ?_) (Multiset.Nodup.of_map _ hlabels)
  have hxy := (hd x hx).append_inj (hd y hy) (hplace x hx) (hplace y hy) he hdisj heq
  have hlabel : (x.1, x.2.1) = (y.1, y.2.1) := by
    rw [hxy.1, hinj hxy.2]
  exact Multiset.inj_on_of_nodup_map hlabels x hx y hy hlabel

theorem nodup_map_zip {α β : Type*} {labels : List α} (h : labels.Nodup) (values : List β) :
    ((labels.zip values).map Prod.fst).Nodup := by
  refine h.sublist ?_
  induction labels generalizing values with
  | nil => simp
  | cons a labels ih =>
      cases values with
      | nil => simp
      | cons v values => simpa using ih (List.nodup_cons.mp h).2 values

/-- The rows of one group tell apart by their item of `c`, when the other
categories are the group's. -/
theorem nodup_group_items {rows : Multiset (CoordKey × W)} {c : CategoryId}
    (hr : Ranges S d rows) (hone : OneValued rows) (hsub : ∀ c' ∈ d, c' ∈ groupBy ∨ c' = c)
    (g : CoordKey) :
    ((rows.filter fun x => projectKey x.1 groupBy = g).map fun x => itemOf x.1 c).Nodup := by
  refine Multiset.Nodup.map_on (fun x hx y hy heq => ?_) (hone.nodup.filter _)
  obtain ⟨hx, hxg⟩ := Multiset.mem_filter.mp hx
  obtain ⟨hy, hyg⟩ := Multiset.mem_filter.mp hy
  exact hone.eq_of_key_eq hx hy ((hr x hx).eq_of_group (hr y hy) hsub (hxg.trans hyg.symm) heq)

/-- The items of a group's rows, whatever their order. -/
theorem nodup_labels_inOrder {α : Type*} [LinearOrder α] {rows : Multiset W} {f : W → α}
    {label : α → Nat} (h : (rows.map fun x => label (f x)).Nodup) :
    ((inOrder (rows.map f)).map label).Nodup := by
  rw [← Multiset.coe_nodup, ← Multiset.map_coe, coe_inOrder, Multiset.map_map]
  exact h

theorem Ranges.reduceInOrder {α β : Type} [LinearOrder α] {rows : Multiset (CoordKey × α)}
    (h : Ranges S d rows) (logic : List α → List β) :
    Ranges S d (Bag.reduceInOrder logic rows) := by
  intro x hx
  obtain ⟨⟨r, hr, heq⟩, -⟩ := mem_reduceInOrder.mp hx
  exact heq ▸ h r hr

/-! ## Aggregations -/

section Aggregation

variable {dims : PlanNode → List CategoryId} {reduced : List CategoryId}
  {first : PlanNode × Coll} {rest : List (PlanNode × Coll)} {pred : Option (PlanNode × Coll)}

/-- The categories a condition adds to the rows it filters. -/
def predCats (pred : Option PlanNode) : List CategoryId := (pred.map PlanNode.cats).getD []

theorem ranges_reducedRows (hfirst : Ranges S (dims first.1) first.2)
    (hrest : ∀ n ∈ rest, Ranges S (dims n.1) n.2)
    (hpred : ∀ p ∈ pred, Ranges S p.1.cats p.2) :
    Ranges S (dims first.1 ++ (rest.flatMap fun n => dims n.1) ++ predCats (pred.map (·.1)))
      (reducedRows reduced first rest pred) := by
  unfold reducedRows
  have hrows : Ranges S (dims first.1 ++ rest.flatMap fun n => dims n.1)
      (alignAll reduced (oneEach first.2) (first.1.cats ++ reduced) rest) :=
    ranges_alignAll hfirst.oneEach hrest
  cases pred with
  | none => simpa [predCats] using hrows
  | some p =>
      intro x hx
      obtain ⟨y, hy, hxy⟩ := (Multiset.mem_filterMap _ _).mp hx
      have hkey : x.1 = y.1 := by
        simp only [Option.map_eq_some_iff] at hxy
        obtain ⟨_, _, rfl⟩ := hxy
        rfl
      rw [hkey]
      exact ranges_align hrows (hpred p rfl) y hy

theorem oneValued_reducedRows (hfirst : Ranges S (dims first.1) first.2)
    (hrest : ∀ n ∈ rest, Ranges S (dims n.1) n.2)
    (hpred : ∀ p ∈ pred, Ranges S p.1.cats p.2)
    (hdims : ∀ n ∈ first :: rest, ∀ c ∈ dims n.1, c ∈ n.1.cats ++ reduced)
    (hone : OneValued first.2) (hones : ∀ n ∈ rest, OneValued n.2)
    (honep : ∀ p ∈ pred, OneValued p.2) :
    OneValued (reducedRows reduced first rest pred) := by
  unfold reducedRows
  have hrows : Ranges S (dims first.1 ++ rest.flatMap fun n => dims n.1)
      (alignAll reduced (oneEach first.2) (first.1.cats ++ reduced) rest) :=
    ranges_alignAll hfirst.oneEach hrest
  have honer : OneValued (alignAll reduced (oneEach first.2) (first.1.cats ++ reduced) rest) :=
    oneValued_alignAll hfirst.oneEach hrest
      (fun n hn => hdims n (List.mem_cons_of_mem _ hn)) (hdims first List.mem_cons_self)
      (hone.map_values _) hones
  cases pred with
  | none => exact honer
  | some p =>
      have halign : OneValued (align _ p.2 p.1.cats) :=
        oneValued_align hrows (hpred p rfl) (fun _ _ hc => hc) honer (honep p rfl)
      refine halign.filterMap fun x hx y hy x' y' hxx' hyy' heq => ?_
      simp only [Option.map_eq_some_iff] at hxx' hyy'
      obtain ⟨_, _, rfl⟩ := hxx'
      obtain ⟨_, _, rfl⟩ := hyy'
      exact halign.eq_of_key_eq hx hy heq

end Aggregation

section Groups

variable {rows : Lines} {order into : ItemOrder} (K : Kernels)

/-- A group's rows, in order. -/
def groupOf (keyed : Multiset (CoordKey × AggRow)) (g : CoordKey) : List AggRow :=
  inOrder ((keyed.filter fun x => x.1 = g).map Prod.snd)

theorem ranges_keyed (h : Ranges S d rows) (hsub : ∀ c ∈ groupBy, c ∈ d) :
    Ranges S groupBy (rows.map (aggKey order groupBy)) := by
  intro x hx
  obtain ⟨r, hr, rfl⟩ := Multiset.mem_map.mp hx
  exact (h r hr).project hsub

variable {keyed : Multiset (CoordKey × AggRow)} {labels : List AggRow → List CoordKey}
  {values : List AggRow → List CellValue}

theorem landing_of_mem (hlabels : ∀ g, ∀ l ∈ labels (groupOf keyed g), Landing S e l)
    {x : CoordKey × CoordKey × CellValue}
    (hx : x ∈ Bag.reduceInOrder (fun group => (labels group).zip (values group)) keyed) :
    Landing S e x.2.1 := by
  have hmem := (mem_reduceInOrder.mp hx).2
  exact hlabels x.1 _ (List.of_mem_zip hmem).1

theorem ranges_landed (hk : Ranges S d keyed) (he : e.Nodup) (hdisj : ∀ c ∈ d, c ∉ e)
    (hlabels : ∀ g, ∀ l ∈ labels (groupOf keyed g), Landing S e l) :
    Ranges S (d ++ e) (landed labels values keyed) :=
  ranges_land id (hk.reduceInOrder _) he hdisj fun _ hx => landing_of_mem hlabels hx

theorem oneValued_landed (hk : Ranges S d keyed) (he : e.Nodup) (hdisj : ∀ c ∈ d, c ∉ e)
    (hlabels : ∀ g, ∀ l ∈ labels (groupOf keyed g), Landing S e l)
    (hnodup : ∀ g, (labels (groupOf keyed g)).Nodup) :
    OneValued (landed labels values keyed) :=
  oneValued_land id (hk.reduceInOrder _) he hdisj (fun _ hx => landing_of_mem hlabels hx)
    Function.injective_id (nodup_map_reduceInOrder fun g => nodup_map_zip (hnodup g) _)

/-- The items of a group's rows, in whatever order. -/
theorem coe_aggItems {c : CategoryId} (horder : order.head?.map (·.1) = some c) (g : CoordKey) :
    (aggItems (groupOf (rows.map (aggKey order groupBy)) g) : Multiset Nat) =
      (rows.filter fun x => projectKey x.1 groupBy = g).map fun x => itemOf x.1 c := by
  unfold aggItems groupOf
  rw [← Multiset.map_coe, coe_inOrder, Multiset.filter_map, Multiset.map_map, Multiset.map_map]
  cases order with
  | nil => simp at horder
  | cons o order =>
      obtain rfl : o.1 = c := by simpa using horder
      rfl

/-- The items of a group's rows are distinct where group and item tell the
rows apart. -/
theorem nodup_itemLabels {c : CategoryId} (horder : order.head?.map (·.1) = some c)
    (hrows : ∀ g, ((rows.filter fun x => projectKey x.1 groupBy = g).map
      fun x => itemOf x.1 c).Nodup) (g : CoordKey) :
    (itemLabels c.id (groupOf (rows.map (aggKey order groupBy)) g)).Nodup := by
  have hitems : (aggItems (groupOf (rows.map (aggKey order groupBy)) g)).Nodup := by
    rw [← Multiset.coe_nodup, coe_aggItems horder]
    exact hrows g
  exact hitems.map fun i j h => (Prod.mk.inj (List.cons.inj h).1).2

theorem landing_itemLabels {c : CategoryId} (horder : order.head?.map (·.1) = some c)
    (hrows : Ranges S d rows) (hc : c ∈ d) (g : CoordKey) :
    ∀ l ∈ itemLabels c.id (groupOf (rows.map (aggKey order groupBy)) g), Landing S [c] l := by
  intro l hl
  obtain ⟨i, hi, rfl⟩ := List.mem_map.mp hl
  rw [← Multiset.mem_coe, coe_aggItems horder] at hi
  obtain ⟨r, hr, rfl⟩ := Multiset.mem_map.mp hi
  have hrow := hrows r (Multiset.mem_filter.mp hr).1
  refine ⟨rfl, fun x hx => ?_⟩
  rw [List.mem_singleton] at hx
  subst hx
  exact hrow.item _ (mem_of_lookup (hrow.itemOf_mem hc))

end Groups

end Improv.Engine
