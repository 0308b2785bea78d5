import Improv.StorageSql.Filling
/-!
# The orders of a load

A load seeds its interner by walking the model's items and registers what it
interned by walking the interner's maps; both are hash maps, so either walk may
go in any order.  Which item a name is found as and which id it is minted, for
each order of the walks.
-/

namespace Improv.PgModel

open Improv.Lib Improv.CoreModel Improv.Engine
open Improv.StorageSql (Named internAll get?_registerItem items_foldl_registerItem)

/-- The orders a load's walks go in. -/
structure Orders where
  seed : List Item
  walk : ItemInterner → List (CategoryId × String × ItemId)

/-- A walk of an interner's maps: the categories in some order, and the names of
each in some order. -/
def Walk (it : ItemInterner) (ps : List (CategoryId × String × ItemId)) : Prop :=
  ∃ (es : List (CategoryId × SortedMap String ItemId))
    (groups : List (CategoryId × List (String × ItemId))),
    es.Perm it.map.entries ∧
    List.Forall₂ (fun g e => g.1 = e.1 ∧ g.2.Perm e.2.entries) groups es ∧
    ps = groups.flatMap fun g => g.2.map fun q => (g.1, q.1, q.2)

/-- Orders that a load of a model can go in. -/
structure Orders.Valid (o : Orders) (m : Model) : Prop where
  seed : o.seed.Perm m.items.values
  walk : ∀ it, Walk it (o.walk it)

/-- The interner seeded by a walk of the items. -/
def seededIn (items : List Item) (base : Nat) : ItemInterner where
  nextItem := max base ((items.map fun it => it.id.id).foldl max 0 + 1)
  map := items.foldl (fun items it => items.add it.category it.name it.id) .empty

/-! ## Walks -/

theorem Walk.perm {it : ItemInterner} {ps : List (CategoryId × String × ItemId)}
    (h : Walk it ps) : ps.Perm it.pairs := by
  obtain ⟨es, groups, hes, hgroups, rfl⟩ := h
  have hsame : (groups.flatMap fun g => g.2.map fun q => (g.1, q.1, q.2)).Perm
      (es.flatMap fun e => e.2.entries.map fun q => (e.1, q.1, q.2)) := by
    clear hes
    induction hgroups with
    | nil => exact .nil
    | @cons g e groups es hg _ ih =>
        rw [List.flatMap_cons, List.flatMap_cons, hg.1]
        exact (hg.2.map _).append ih
  exact hsame.trans (hes.flatMap_right _)

theorem walk_pairs (it : ItemInterner) : Walk it it.pairs := by
  refine ⟨it.map.entries, it.map.entries.map fun e => (e.1, e.2.entries), .refl _, ?_, ?_⟩
  · rw [List.forall₂_map_left_iff, List.forall₂_same]
    exact fun e _ => ⟨rfl, .refl _⟩
  · rw [List.flatMap_map]
    rfl

/-- The walk that goes through the names of each category backwards. -/
def backwards (it : ItemInterner) : List (CategoryId × String × ItemId) :=
  it.map.entries.flatMap fun e => e.2.entries.reverse.map fun q => (e.1, q.1, q.2)

theorem walk_backwards (it : ItemInterner) : Walk it (backwards it) := by
  refine ⟨it.map.entries, it.map.entries.map fun e => (e.1, e.2.entries.reverse), .refl _, ?_, ?_⟩
  · rw [List.forall₂_map_left_iff, List.forall₂_same]
    exact fun e _ => ⟨rfl, List.reverse_perm _⟩
  · rw [List.flatMap_map]
    rfl

/-- Within a category the one walk is the other backwards. -/
theorem filter_backwards (it : ItemInterner) (c : CategoryId) (keep : ItemId → Bool) :
    ((backwards it).filter fun p => p.1 = c && keep p.2.2) =
      (it.pairs.filter fun p => p.1 = c && keep p.2.2).reverse := by
  unfold backwards ItemInterner.pairs
  have hnodup := it.map.nodup_keys
  unfold SortedMap.keys at hnodup
  generalize it.map.entries = es at hnodup ⊢
  induction es with
  | nil => rfl
  | cons e es ih =>
      rw [List.map_cons, List.nodup_cons] at hnodup
      rw [List.flatMap_cons, List.flatMap_cons, List.filter_append, List.filter_append,
        List.reverse_append, ih hnodup.2, List.map_reverse, List.filter_reverse]
      by_cases hc : e.1 = c
      · have hrest : (es.flatMap fun p => p.2.entries.map fun q => (p.1, q.1, q.2)).filter
            (fun p => p.1 = c && keep p.2.2) = [] := by
          rw [List.filter_eq_nil_iff]
          intro p hp
          obtain ⟨e', he', hq⟩ := List.mem_flatMap.mp hp
          obtain ⟨q, -, rfl⟩ := List.mem_map.mp hq
          have hne : e'.1 ≠ c := fun heq =>
            hnodup.1 (hc.trans heq.symm ▸ List.mem_map_of_mem he')
          simp [hne]
        rw [hrest, List.reverse_nil, List.append_nil, List.nil_append]
      · have hnone : ∀ qs : List (String × ItemId), (qs.map fun q => (e.1, q.1, q.2)).filter
            (fun p => p.1 = c && keep p.2.2) = [] := by
          intro qs
          rw [List.filter_eq_nil_iff]
          intro p hp
          obtain ⟨q, -, rfl⟩ := List.mem_map.mp hp
          simp [hc]
        rw [hnone, List.reverse_nil, List.nil_append, List.append_nil]

/-! ## Seeds -/

/-- An item of a model is called by a name in a category. -/
def Bears (m : Model) (c : CategoryId) (n : String) (i : ItemId) : Prop :=
  ∃ x, m.items.get? i = some x ∧ x.category = c ∧ x.name = n

theorem Bears.eq {m : Model} {c c' : CategoryId} {n n' : String} {i : ItemId}
    (h : Bears m c n i) (h' : Bears m c' n' i) : c = c' ∧ n = n' := by
  obtain ⟨x, hx, rfl, rfl⟩ := h
  obtain ⟨y, hy, rfl, rfl⟩ := h'
  rw [hx, Option.some.injEq] at hy
  subst hy
  exact ⟨rfl, rfl⟩

theorem Bears.le_maxId {m : Model} (hm : ∀ k x, m.items.get? k = some x → x.id = k)
    {c : CategoryId} {n : String} {i : ItemId} (h : Bears m c n i) :
    i.id ≤ ItemInterner.maxId m := by
  obtain ⟨x, hx, -, -⟩ := h
  have hle := ItemInterner.le_maxId hx
  rw [hm i x hx] at hle
  exact hle

section Seeds

variable {m : Model} {s : List Item}

theorem nextItem_seededIn (hs : s.Perm m.items.values) (base : Nat) :
    (seededIn s base).nextItem = max base (ItemInterner.maxId m + 1) := by
  have hfold : (s.map fun it => it.id.id).foldl max 0 = ItemInterner.maxId m :=
    (hs.map _).foldl_eq 0
  unfold seededIn
  rw [hfold]

theorem find_seededIn (base : Nat) (c : CategoryId) (n : String) :
    (seededIn s base).map.find c n = ((s.filter (Items.named c n)).getLast?).map Item.id := by
  unfold seededIn
  rw [Items.find_foldl_add, Items.find_empty, Option.or_none]

/-- A name that an item bears is found. -/
theorem exists_find (hs : s.Perm m.items.values) {c : CategoryId} {n : String} {i : ItemId}
    (h : Bears m c n i) (base : Nat) :
    ∃ j, (seededIn s base).map.find c n = some j := by
  obtain ⟨x, hx, rfl, rfl⟩ := h
  have hmem : x ∈ s.filter (Items.named x.category x.name) := by
    apply List.mem_filter.mpr
    exact ⟨hs.mem_iff.mpr (SortedMap.mem_values_iff.mpr ⟨i, hx⟩), by simp [Items.named]⟩
  rw [find_seededIn, List.getLast?_eq_some_getLast (List.ne_nil_of_mem hmem)]
  exact ⟨_, rfl⟩

variable (hm : ∀ k x, m.items.get? k = some x → x.id = k) (hs : s.Perm m.items.values)
include hm hs

theorem bears_of_mem {x : Item} (hx : x ∈ s) : Bears m x.category x.name x.id := by
  obtain ⟨k, hk⟩ := SortedMap.mem_values_iff.mp (hs.mem_iff.mp hx)
  rw [hm k x hk]
  exact ⟨x, hk, rfl, rfl⟩

/-- A name is found as an item that bears it. -/
theorem bears_of_find {base : Nat} {c : CategoryId} {n : String} {i : ItemId}
    (h : (seededIn s base).map.find c n = some i) : Bears m c n i := by
  rw [find_seededIn] at h
  obtain ⟨x, hlast, rfl⟩ := Option.map_eq_some_iff.mp h
  obtain ⟨hx, hnamed⟩ := List.mem_filter.mp (List.mem_of_getLast? hlast)
  unfold Items.named at hnamed
  simp only [Bool.and_eq_true, decide_eq_true_eq] at hnamed
  have hbears := bears_of_mem hm hs hx
  rw [hnamed.1, hnamed.2] at hbears
  exact hbears

theorem find_seededIn_eq_none_iff {base : Nat} {c : CategoryId} {n : String} :
    (seededIn s base).map.find c n = none ↔ ∀ i, ¬Bears m c n i := by
  constructor
  · intro h i hi
    obtain ⟨j, hj⟩ := exists_find hs hi base
    rw [h] at hj
    cases hj
  · intro h
    cases hj : (seededIn s base).map.find c n with
    | none => rfl
    | some j => exact absurd (bears_of_find hm hs hj) (h j)

end Seeds

/-- The items can be walked so that each name is found as the item picked. -/
theorem exists_seed {m : Model} (hm : ∀ k x, m.items.get? k = some x → x.id = k)
    {pick : CategoryId → String → ItemId}
    (hpick : ∀ c n i, Bears m c n i → Bears m c n (pick c n)) :
    ∃ s : List Item, s.Perm m.items.values ∧
      ∀ c n i, Bears m c n i → (seededIn s 1).map.find c n = some (pick c n) := by
  let picked : Item → Bool := fun y => pick y.category y.name = y.id
  have hperm : (m.items.values.filter (fun y => !picked y) ++
      m.items.values.filter picked).Perm m.items.values := by
    refine List.perm_append_comm.trans ?_
    exact List.filter_append_perm picked m.items.values
  refine ⟨_, hperm, ?_⟩
  intro c n i hi
  obtain ⟨x, hx, hcat, hname⟩ := hpick c n i hi
  have hid := hm _ x hx
  have hmem : x ∈ (m.items.values.filter picked).filter (Items.named c n) := by
    refine List.mem_filter.mpr ⟨List.mem_filter.mpr ⟨SortedMap.mem_values_iff.mpr ⟨_, hx⟩, ?_⟩, ?_⟩
    · simp only [picked, hcat, hname, hid, decide_true]
    · simp [Items.named, hcat, hname]
  obtain ⟨y, hy⟩ : ∃ y, ((m.items.values.filter picked).filter (Items.named c n)).getLast? =
      some y := ⟨_, List.getLast?_eq_some_getLast (List.ne_nil_of_mem hmem)⟩
  obtain ⟨hlast, hnamed⟩ := List.mem_filter.mp (List.mem_of_getLast? hy)
  have hpicked := (List.mem_filter.mp hlast).2
  unfold Items.named at hnamed
  simp only [Bool.and_eq_true, decide_eq_true_eq] at hnamed
  simp only [picked, hnamed.1, hnamed.2, decide_eq_true_eq] at hpicked
  rw [find_seededIn, List.filter_append, List.getLast?_append, hy, Option.some_or,
    Option.map_some, hpicked]

end Improv.PgModel
