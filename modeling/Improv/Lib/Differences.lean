import Mathlib.Algebra.BigOperators.Group.List.Basic
import Mathlib.Algebra.Order.BigOperators.Group.List
import Mathlib.Algebra.Ring.Int.Defs
import Mathlib.Data.Int.Basic
import Mathlib.Data.List.Nodup
import Mathlib.Data.List.Perm.Basic
import Mathlib.Data.List.Sort
import Mathlib.Logic.Function.Basic
import Mathlib.Tactic.Common
/-!
# Differences

A list of differences adds or takes away each of its keys some number of
times.  Consolidating a list leaves one difference for each key, of the same
weight.
-/

namespace Improv.Lib

variable {κ : Type*}

/-- How often a list of differences adds a key, in all. -/
def weight [DecidableEq κ] (d : List (κ × ℤ)) (k : κ) : ℤ :=
  (d.map fun x => if x.1 = k then x.2 else 0).sum

/-- One more difference on a consolidated list, last difference first. -/
def pushDelta [DecidableEq κ] : List (κ × ℤ) → κ × ℤ → List (κ × ℤ)
  | y :: net, x => if y.1 = x.1 then (y.1, y.2 + x.2) :: net else x :: y :: net
  | [], x => [x]

/-- The differences sorted, those of one key as one. -/
def consolidate [LinearOrder κ] (d : List (κ × ℤ)) : List (κ × ℤ) :=
  ((d.insertionSort fun x y => x.1 ≤ y.1).foldl pushDelta []).reverse

/-! ## Weights -/

section Weight

variable [DecidableEq κ]

@[simp] theorem weight_nil (k : κ) : weight ([] : List (κ × ℤ)) k = 0 := rfl

@[simp] theorem weight_cons (x : κ × ℤ) (d : List (κ × ℤ)) (k : κ) :
    weight (x :: d) k = (if x.1 = k then x.2 else 0) + weight d k := by
  simp [weight]

theorem weight_perm {d e : List (κ × ℤ)} (h : d.Perm e) (k : κ) : weight d k = weight e k :=
  (h.map _).sum_eq

theorem weight_pushDelta (net : List (κ × ℤ)) (x : κ × ℤ) (k : κ) :
    weight (pushDelta net x) k = weight net k + weight [x] k := by
  cases net with
  | nil => simp [pushDelta]
  | cons y net =>
      by_cases hyx : y.1 = x.1
      · by_cases hk : x.1 = k
        · simp [pushDelta, hyx, hk]
          omega
        · simp [pushDelta, hyx, hk]
      · simp only [pushDelta, if_neg hyx, weight_cons, weight_nil]
        omega

theorem weight_foldl_pushDelta (d net : List (κ × ℤ)) (k : κ) :
    weight (d.foldl pushDelta net) k = weight net k + weight d k := by
  induction d generalizing net with
  | nil => simp
  | cons x d ih =>
      rw [List.foldl_cons, ih, weight_pushDelta]
      simp only [weight_cons, weight_nil]
      omega

/-- A key a list does not name has no weight in it. -/
theorem weight_eq_zero {d : List (κ × ℤ)} {k : κ} (h : k ∉ d.map Prod.fst) :
    weight d k = 0 := by
  induction d with
  | nil => rfl
  | cons x d ih =>
      simp only [List.map_cons, List.mem_cons, not_or] at h
      rw [weight_cons, if_neg (Ne.symm h.1), ih h.2]
      rfl

/-- With one difference for each key, each difference is its key's weight. -/
theorem weight_of_mem {d : List (κ × ℤ)} (hd : (d.map Prod.fst).Nodup) {k : κ} {n : ℤ}
    (h : (k, n) ∈ d) : weight d k = n := by
  induction d with
  | nil => simp at h
  | cons x d ih =>
      rw [List.map_cons, List.nodup_cons] at hd
      rcases List.mem_cons.mp h with rfl | hmem
      · simp [weight_eq_zero hd.1]
      · have hne : x.1 ≠ k := fun heq => hd.1 (heq ▸ List.mem_map_of_mem (f := Prod.fst) hmem)
        rw [weight_cons, if_neg hne, ih hd.2 hmem]
        omega

/-- A key that some assertion names has positive weight among assertions. -/
theorem weight_pos_of_mem {d : List (κ × ℤ)} (hpos : ∀ x ∈ d, 0 < x.2) {x : κ × ℤ}
    (hx : x ∈ d) : 0 < weight d x.1 := by
  induction d with
  | nil => simp at hx
  | cons y d ih =>
      have hy : 0 < y.2 := hpos y (by simp)
      have hd : ∀ z ∈ d, 0 < z.2 := fun z hz => hpos z (List.mem_cons_of_mem _ hz)
      have hnonneg : 0 ≤ weight d x.1 := by
        refine List.sum_nonneg fun n hn => ?_
        obtain ⟨z, hz, rfl⟩ := List.mem_map.mp hn
        have hzpos := hd z hz
        split <;> omega
      rw [weight_cons]
      rcases List.mem_cons.mp hx with rfl | hmem
      · simp only [if_true]
        omega
      · have hrest := ih hd hmem
        split <;> omega

end Weight

/-! ## Consolidation -/

section Consolidate

variable [LinearOrder κ]

theorem weight_consolidate (d : List (κ × ℤ)) (k : κ) :
    weight (consolidate d) k = weight d k := by
  unfold consolidate
  rw [weight_perm (List.reverse_perm _), weight_foldl_pushDelta]
  rw [weight_nil, weight_perm (List.perm_insertionSort _ d)]
  omega

private instance isTrans_fst : IsTrans (κ × ℤ) fun x y => x.1 ≤ y.1 := ⟨fun _ _ _ => le_trans⟩

private instance total_fst : @Std.Total (κ × ℤ) fun x y => x.1 ≤ y.1 :=
  ⟨fun x y => le_total x.1 y.1⟩

/-- Pushing sorted differences keeps the keys strictly decreasing. -/
theorem pairwise_foldl_pushDelta {d net : List (κ × ℤ)} (hd : d.Pairwise fun x y => x.1 ≤ y.1)
    (hnet : net.Pairwise fun x y => y.1 < x.1) (hle : ∀ y ∈ net, ∀ x ∈ d, y.1 ≤ x.1) :
    (d.foldl pushDelta net).Pairwise fun x y => y.1 < x.1 := by
  induction d generalizing net with
  | nil => exact hnet
  | cons x d ih =>
      rw [List.pairwise_cons] at hd
      rw [List.foldl_cons]
      cases net with
      | nil =>
          refine ih hd.2 (by simp [pushDelta]) ?_
          intro y hy z hz
          simp only [pushDelta, List.mem_singleton] at hy
          subst hy
          exact hd.1 z hz
      | cons y net =>
          rw [List.pairwise_cons] at hnet
          by_cases hyx : y.1 = x.1
          · refine ih hd.2 ?_ ?_
            · simp only [pushDelta, if_pos hyx, List.pairwise_cons]
              exact hnet
            · intro z hz w hw
              simp only [pushDelta, if_pos hyx, List.mem_cons] at hz
              rcases hz with rfl | hz
              · exact hle y (by simp) w (by simp [hw])
              · exact hle z (by simp [hz]) w (by simp [hw])
          · have hlt : y.1 < x.1 := lt_of_le_of_ne (hle y (by simp) x (by simp)) hyx
            refine ih hd.2 ?_ ?_
            · simp only [pushDelta, if_neg hyx, List.pairwise_cons, List.mem_cons]
              refine ⟨?_, hnet⟩
              intro z hz
              rcases hz with rfl | hz
              · exact hlt
              · exact (hnet.1 z hz).trans hlt
            · intro z hz w hw
              simp only [pushDelta, if_neg hyx, List.mem_cons] at hz
              rcases hz with rfl | rfl | hz
              · exact hd.1 w hw
              · exact hle z (by simp) w (by simp [hw])
              · exact hle z (by simp [hz]) w (by simp [hw])

/-- A consolidated list has one difference for each key. -/
theorem nodup_keys_consolidate (d : List (κ × ℤ)) : ((consolidate d).map Prod.fst).Nodup := by
  have hdesc : ((d.insertionSort fun x y => x.1 ≤ y.1).foldl pushDelta []).Pairwise
      fun x y => y.1 < x.1 :=
    pairwise_foldl_pushDelta (List.pairwise_insertionSort _ d) .nil (by simp)
  unfold consolidate
  rw [List.map_reverse, List.nodup_reverse]
  exact List.pairwise_map.mpr (hdesc.imp fun h => h.ne')

/-- A consolidated list holds each key's weight. -/
theorem mem_consolidate {d : List (κ × ℤ)} {k : κ} {n : ℤ} (h : (k, n) ∈ consolidate d) :
    weight d k = n := by
  rw [← weight_consolidate]
  exact weight_of_mem (nodup_keys_consolidate d) h

/-- A key of nonzero weight is in the consolidated list. -/
theorem mem_consolidate_of_weight {d : List (κ × ℤ)} {k : κ} (h : weight d k ≠ 0) :
    (k, weight d k) ∈ consolidate d := by
  have hmem : k ∈ (consolidate d).map Prod.fst := by
    by_contra hnone
    exact h ((weight_consolidate d k).symm.trans (weight_eq_zero hnone))
  obtain ⟨x, hx, rfl⟩ := List.mem_map.mp hmem
  rw [mem_consolidate (k := x.1) (n := x.2) hx]
  exact hx

end Consolidate

end Improv.Lib

/-!
## Keyed views

A view of a table by key: some rows make an entry, a key and a value, and no two
rows make an entry of one key.  A row put in or taken out changes the view at
its key alone.
-/

namespace Improv.Lib

variable {ρ κ α : Type*}

/-- A view is that of some rows. -/
structure Shows (cell : ρ → Option (κ × α)) (view : κ → Option α) (rows : List ρ) : Prop where
  keys : ((rows.filterMap cell).map (·.1)).Nodup
  view : ∀ k a, view k = some a ↔ (k, a) ∈ rows.filterMap cell

namespace Shows

variable {cell : ρ → Option (κ × α)} {view : κ → Option α} {rows rows' : List ρ} {r : ρ} {k : κ}
  {a : α}

theorem nil (cell : ρ → Option (κ × α)) : Shows cell (fun _ => none) [] :=
  ⟨List.nodup_nil, fun k a => by simp⟩

theorem perm (h : Shows cell view rows) (hrows : rows.Perm rows') : Shows cell view rows' := by
  have hcells : (rows.filterMap cell).Perm (rows'.filterMap cell) := hrows.filterMap cell
  refine ⟨(hcells.map _).nodup_iff.mp h.keys, fun k a => ?_⟩
  rw [h.view, hcells.mem_iff]

/-- What a key shows comes from a row. -/
theorem exists_row (h : Shows cell view rows) (hk : view k = some a) :
    ∃ r ∈ rows, cell r = some (k, a) :=
  List.mem_filterMap.mp ((h.view k a).mp hk)

theorem of_mem (h : Shows cell view rows) (hr : r ∈ rows) (hcell : cell r = some (k, a)) :
    view k = some a :=
  (h.view k a).mpr (List.mem_filterMap.mpr ⟨r, hr, hcell⟩)

/-- Rows have one view. -/
theorem unique {view' : κ → Option α} (h : Shows cell view rows) (h' : Shows cell view' rows) :
    view = view' := by
  funext k
  apply Option.ext
  intro a
  rw [h.view, h'.view]

/-- A row that makes no entry changes nothing. -/
theorem cons_none (hcell : cell r = none) :
    Shows cell view (r :: rows) ↔ Shows cell view rows := by
  have hcells : (r :: rows).filterMap cell = rows.filterMap cell := by
    rw [List.filterMap_cons, hcell]
  constructor
  · intro h
    exact ⟨hcells ▸ h.keys, fun k a => by rw [h.view, hcells]⟩
  · intro h
    exact ⟨hcells ▸ h.keys, fun k a => by rw [h.view, hcells]⟩

variable [DecidableEq κ]

/-- A row put in at a key that shows nothing. -/
theorem insert (h : Shows cell view rows) (hcell : cell r = some (k, a)) (hk : view k = none) :
    Shows cell (Function.update view k (some a)) (r :: rows) := by
  have hcells : (r :: rows).filterMap cell = (k, a) :: rows.filterMap cell := by
    rw [List.filterMap_cons, hcell]
  have hfree : ∀ b, (k, b) ∉ rows.filterMap cell := by
    intro b hb
    rw [← h.view, hk] at hb
    cases hb
  constructor
  · rw [hcells, List.map_cons, List.nodup_cons]
    refine ⟨fun hmem => ?_, h.keys⟩
    obtain ⟨⟨j, b⟩, hb, rfl⟩ := List.mem_map.mp hmem
    exact hfree b hb
  · intro j b
    rw [hcells, List.mem_cons]
    by_cases hj : j = k
    · subst hj
      rw [Function.update_self, Option.some.injEq, Prod.mk.injEq]
      constructor
      · intro hab
        exact .inl ⟨rfl, hab.symm⟩
      · rintro (⟨_, hab⟩ | hb)
        · exact hab.symm
        · exact absurd hb (hfree b)
    · rw [Function.update_of_ne hj, h.view, Prod.mk.injEq]
      exact ⟨.inr, fun hb => hb.resolve_left fun heq => hj heq.1⟩

/-- A row taken out. -/
theorem erase (h : Shows cell view (r :: rows)) (hcell : cell r = some (k, a)) :
    Shows cell (Function.update view k none) rows := by
  have hcells : (r :: rows).filterMap cell = (k, a) :: rows.filterMap cell := by
    rw [List.filterMap_cons, hcell]
  have hkeys := h.keys
  rw [hcells, List.map_cons, List.nodup_cons] at hkeys
  refine ⟨hkeys.2, fun j b => ?_⟩
  by_cases hj : j = k
  · subst hj
    rw [Function.update_self]
    constructor
    · intro hnone
      cases hnone
    · intro hb
      exact absurd (List.mem_map_of_mem hb) hkeys.1
  · rw [Function.update_of_ne hj, h.view, hcells, List.mem_cons, Prod.mk.injEq]
    exact ⟨fun hb => hb.resolve_left fun heq => hj heq.1, .inr⟩

end Shows

end Improv.Lib
