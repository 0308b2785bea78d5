import Improv.Engine.Operators
import Improv.Lib.ListLemmas
/-!
# Operators that move cells

What renaming categories, shifting along one, choosing between branches and
filling a domain keep of their inputs' coordinates.
-/

namespace Improv.Engine

open Improv.Lib Improv.Lib.SparseKey Improv.Lib.Bag Improv.CoreModel

variable {S : Schema} {d e : List CategoryId}

/-! ## Items -/

theorem ranges_items {cat : CategoryId} {vals : List (ItemId × Value)}
    (hitems : ∀ v ∈ vals, S.items cat v.1) : Ranges S [cat] (items cat vals) := by
  intro x hx
  obtain ⟨v, hv, rfl⟩ := List.mem_map.mp hx
  exact .singleton (hitems v hv)

theorem oneValued_items {cat : CategoryId} {vals : List (ItemId × Value)}
    (hnodup : (vals.map (·.1)).Nodup) : OneValued (items cat vals) := by
  unfold OneValued items
  rw [Multiset.map_coe, Multiset.coe_nodup, List.map_map]
  have hmap : vals.map (Prod.fst ∘ fun x => ([(cat.id, x.1.id)], CellValue.fromModelValue x.2)) =
      (vals.map (·.1)).map fun i => [(cat.id, i.id)] := by
    rw [List.map_map]
    rfl
  rw [hmap]
  refine hnodup.map fun i j h => ?_
  exact congrArg ItemId.mk (Prod.mk.inj (List.cons.inj h).1).2

/-! ## Renaming categories -/

/-- The category a renaming gives, as identifiers. -/
def renamed (maps : Remaps) (n : Nat) : Nat :=
  ((maps.find? fun m => m.1.id = n).map (·.2.1.id)).getD n

/-- A renaming of the categories `d` to `e`. -/
structure Renames (S : Schema) (maps : Remaps) (d e : List CategoryId) : Prop where
  sources : (maps.map (·.1.id)).Nodup
  distinct : (d.map fun c => renamed maps c.id).Nodup
  result : ∀ n, n ∈ e.map (·.id) ↔ n ∈ d.map fun c => renamed maps c.id
  items : ∀ m ∈ maps, ∀ x ∈ m.2.2, S.items m.2.1 x.2

section Renaming

variable {maps : Remaps} {x x' y : Nat × Nat}

theorem mem_of_remapTarget {c i : Nat} (h : remapTarget maps c i = some y) :
    ∃ m ∈ maps, ∃ t ∈ m.2.2, m.1.id = c ∧ t.1.id = i ∧ y = (m.2.1.id, t.2.id) := by
  unfold remapTarget at h
  obtain ⟨p, hp, rfl⟩ := Option.map_eq_some_iff.mp h
  have hmem := List.mem_reverse.mp (List.mem_of_find?_eq_some hp)
  have hkey : p.1 = (c, i) := by simpa using List.find?_some hp
  obtain ⟨m, hm, hpm⟩ := List.mem_flatMap.mp hmem
  obtain ⟨t, ht, rfl⟩ := List.mem_map.mp hpm
  obtain ⟨hc, hi⟩ := Prod.mk.inj hkey
  exact ⟨m, hm, t, ht, hc, hi, rfl⟩

theorem find?_eq_of_mem (hsources : (maps.map (·.1.id)).Nodup)
    {m : CategoryId × CategoryId × List (ItemId × ItemId)} (hm : m ∈ maps) :
    (maps.find? fun m' => m'.1.id = m.1.id) = some m := by
  induction maps with
  | nil => simp at hm
  | cons a maps ih =>
      rw [List.map_cons, List.nodup_cons] at hsources
      rcases List.mem_cons.mp hm with rfl | hm
      · simp
      · have hne : a.1.id ≠ m.1.id := fun heq =>
          hsources.1 (heq ▸ List.mem_map_of_mem hm)
        rw [List.find?_cons_of_neg (by simpa using hne)]
        exact ih hsources.2 hm

/-- A renamed pair: its category is the renaming's, its item a listed target or
the item itself. -/
theorem remapPair_spec (hsources : (maps.map (·.1.id)).Nodup) (h : remapPair maps x = some y) :
    y.1 = renamed maps x.1 ∧
      ((∃ m ∈ maps, ∃ t ∈ m.2.2, m.1.id = x.1 ∧ t.1.id = x.2 ∧ y = (m.2.1.id, t.2.id)) ∨
        ((∀ m ∈ maps, m.1.id ≠ x.1) ∧ y = x)) := by
  unfold remapPair at h
  split at h
  · obtain ⟨m, hm, t, ht, hc, hi, rfl⟩ := mem_of_remapTarget h
    refine ⟨?_, .inl ⟨m, hm, t, ht, hc, hi, rfl⟩⟩
    unfold renamed
    rw [← hc, find?_eq_of_mem hsources hm]
    rfl
  · next hany =>
      cases h
      have hnone : ∀ m ∈ maps, m.1.id ≠ x.1 := by simpa using hany
      refine ⟨?_, .inr ⟨hnone, rfl⟩⟩
      unfold renamed
      rw [List.find?_eq_none.mpr (by simpa using hnone)]
      rfl

/-- Renaming is one to one on the pairs of a category when no two of its items
have one target. -/
theorem remapPair_inj (hsources : (maps.map (·.1.id)).Nodup)
    (htargets : ∀ m ∈ maps, ∀ t ∈ m.2.2, ∀ t' ∈ m.2.2, t.2 = t'.2 → t.1 = t'.1)
    (h : remapPair maps x = some y) (h' : remapPair maps x' = some y) (hcat : x.1 = x'.1) :
    x = x' := by
  refine Prod.ext hcat ?_
  rcases (remapPair_spec hsources h).2 with ⟨m, hm, t, ht, hc, hi, hy⟩ | ⟨hnone, hy⟩
  · rcases (remapPair_spec hsources h').2 with ⟨m', hm', t', ht', hc', hi', hy'⟩ | ⟨hnone', -⟩
    · have hmm : m = m' := by
        have hfind := find?_eq_of_mem hsources hm
        rw [hc, hcat, ← hc', find?_eq_of_mem hsources hm'] at hfind
        exact (Option.some.inj hfind).symm
      subst hmm
      have htt : t.2 = t'.2 := congrArg ItemId.mk (Prod.mk.inj (hy.symm.trans hy')).2
      rw [← hi, ← hi', htargets m hm t ht t' ht' htt]
    · exact absurd (hc.trans hcat) (hnone' m hm)
  · rcases (remapPair_spec hsources h').2 with ⟨m', hm', t', ht', hc', hi', hy'⟩ | ⟨-, hy'⟩
    · exact absurd (hc'.trans hcat.symm) (hnone m' hm')
    · exact congrArg Prod.snd (hy.symm.trans hy')

theorem names_of_remap (hsources : (maps.map (·.1.id)).Nodup) {k q : CoordKey}
    (h : List.Forall₂ (fun x y => remapPair maps x = some y) k q) :
    names q = (names k).map (renamed maps) := by
  induction h with
  | nil => rfl
  | cons hxy _ ih =>
      simp only [names, List.map_cons] at ih ⊢
      rw [ih, (remapPair_spec hsources hxy).1]

theorem coordinate_remapKey (hmaps : Renames S maps d e) {k r : CoordKey}
    (hk : Coordinate S d k) (h : remapKey maps k = some r) : Coordinate S e r := by
  unfold remapKey at h
  obtain ⟨q, hq, rfl⟩ := Option.map_eq_some_iff.mp h
  have hstep := Scalar.allSome_map_eq_some_iff.mp hq
  have hnames := names_of_remap hmaps.sources hstep
  have hmem : ∀ n, n ∈ names q ↔ n ∈ e.map (·.id) := by
    intro n
    rw [hnames, hmaps.result, List.mem_map, List.mem_map]
    constructor
    · intro hn
      obtain ⟨m, hm, rfl⟩ := hn
      exact ⟨⟨m⟩, hk.mem_names.mp hm, rfl⟩
    · intro hn
      obtain ⟨c, hc, rfl⟩ := hn
      exact ⟨c.id, hk.mem_names.mpr hc, rfl⟩
  have hnodup : (names q).Nodup := by
    rw [hnames]
    refine List.Nodup.map_on (fun n hn n' hn' heq => ?_) hk.nodup_names
    have hinj := List.inj_on_of_nodup_map hmaps.distinct (hk.mem_names.mp hn)
      (hk.mem_names.mp hn') heq
    exact congrArg CategoryId.id hinj
  refine ⟨⟨sorted_sortKey hnodup, fun n => ?_⟩, fun y hy => ?_⟩
  · have hp : (names (sortKey q)).Perm (names q) := (perm_sortKey q).map _
    rw [hp.mem_iff, hmem]
  · have hyq : y ∈ q := (perm_sortKey q).mem_iff.mp hy
    obtain ⟨x, hx, hxy⟩ := exists_of_mem_left hstep.flip hyq
    rcases (remapPair_spec hmaps.sources hxy).2 with ⟨m, hm, t, ht, -, -, rfl⟩ | ⟨-, rfl⟩
    · exact hmaps.items m hm t ht
    · exact hk.item _ hx

theorem ranges_remap (hmaps : Renames S maps d e) {c : Coll} (hc : Ranges S d c) :
    Ranges S e (remap maps c) := by
  intro y hy
  obtain ⟨x, hx, hxy⟩ := (Multiset.mem_filterMap _ _).mp hy
  obtain ⟨r, hr, rfl⟩ := Option.map_eq_some_iff.mp hxy
  exact coordinate_remapKey hmaps (hc x hx) hr

theorem remapKey_inj (hmaps : Renames S maps d e)
    (htargets : ∀ m ∈ maps, ∀ t ∈ m.2.2, ∀ t' ∈ m.2.2, t.2 = t'.2 → t.1 = t'.1)
    {k k' r : CoordKey} (hk : Coordinate S d k) (hk' : Coordinate S d k')
    (h : remapKey maps k = some r) (h' : remapKey maps k' = some r) : k = k' := by
  unfold remapKey at h h'
  obtain ⟨q, hq, rfl⟩ := Option.map_eq_some_iff.mp h
  obtain ⟨q', hq', hr⟩ := Option.map_eq_some_iff.mp h'
  have hstep := Scalar.allSome_map_eq_some_iff.mp hq
  have hstep' := Scalar.allSome_map_eq_some_iff.mp hq'
  have hkk : names k = names k' := hk.at_dim.names_eq hk'.at_dim
  have hqq : q = q' := by
    refine eq_of_perm_of_names ?_ ?_ ((perm_sortKey q).symm.trans (hr ▸ perm_sortKey q'))
    · rw [names_of_remap hmaps.sources hstep]
      refine List.Nodup.map_on (fun n hn n' hn' heq => ?_) hk.nodup_names
      exact congrArg CategoryId.id (List.inj_on_of_nodup_map hmaps.distinct
        (hk.mem_names.mp hn) (hk.mem_names.mp hn') heq)
    · rw [names_of_remap hmaps.sources hstep, names_of_remap hmaps.sources hstep', hkk]
  subst hqq
  clear hr hq hq' h h' hk hk'
  induction hstep generalizing k' with
  | nil =>
      cases hstep'
      rfl
  | cons hxy _ ih =>
      cases hstep' with
      | cons hxy' hrest =>
          simp only [names, List.map_cons, List.cons.injEq] at hkk
          rw [remapPair_inj hmaps.sources htargets hxy hxy' hkk.1, ih hkk.2 hrest]

/-- A renaming that never merges two items keeps one row at each coordinate. -/
theorem oneValued_remap (hmaps : Renames S maps d e)
    (htargets : ∀ m ∈ maps, ∀ t ∈ m.2.2, ∀ t' ∈ m.2.2, t.2 = t'.2 → t.1 = t'.1)
    {c : Coll} (hc : Ranges S d c) (hone : OneValued c) : OneValued (remap maps c) := by
  refine hone.filterMap fun x hx y hy x' y' hxx hyy heq => ?_
  obtain ⟨r, hr, rfl⟩ := Option.map_eq_some_iff.mp hxx
  obtain ⟨r', hr', rfl⟩ := Option.map_eq_some_iff.mp hyy
  have hkey : r = r' := heq
  subst hkey
  exact hone.eq_of_key_eq hx hy (remapKey_inj hmaps htargets (hc x hx) (hc y hy) hr hr')

end Renaming

/-! ## Shifting along a category -/

section Shifting

variable {cat : CategoryId} {offset : Int} {order : List ItemId}

theorem positionOf_spec {i p : Nat} (h : positionOf order i = some p) :
    ∃ item, order[p]? = some item ∧ item.id = i := by
  unfold positionOf at h
  obtain ⟨x, hx, rfl⟩ := Option.map_eq_some_iff.mp h
  have hmem := List.mem_reverse.mp (List.mem_of_find?_eq_some hx)
  have hid : x.1.id = i := by simpa using List.find?_some hx
  exact ⟨x.1, List.mk_mem_zipIdx_iff_getElem?.mp hmem, hid⟩

/-- The item a shift moves an item to. -/
def shiftItem (offset : Int) (order : List ItemId) (i : Nat) : Option ItemId :=
  (positionOf order i).bind fun p =>
    if (p : Int) - offset < 0 then none else order[((p : Int) - offset).toNat]?

theorem shiftItem_inj (hnodup : order.Nodup) {i i' : Nat} {item : ItemId}
    (h : shiftItem offset order i = some item) (h' : shiftItem offset order i' = some item) :
    i = i' := by
  unfold shiftItem at h h'
  obtain ⟨p, hp, hpi⟩ := Option.bind_eq_some_iff.mp h
  obtain ⟨p', hp', hpi'⟩ := Option.bind_eq_some_iff.mp h'
  split at hpi
  · cases hpi
  · split at hpi'
    · cases hpi'
    · have hlt := (List.getElem?_eq_some_iff.mp hpi).1
      have hpos := (List.getElem?_inj hlt hnodup).mp (hpi.trans hpi'.symm)
      have hpp : p = p' := by omega
      subst hpp
      obtain ⟨a, ha, rfl⟩ := positionOf_spec hp
      obtain ⟨b, hb, rfl⟩ := positionOf_spec hp'
      rw [Option.some.inj (ha.symm.trans hb)]

theorem shiftKey_cons (x : Nat × Nat) (k : CoordKey) :
    shiftKey cat offset order (x :: k) =
      if x.1 = cat.id then (shiftItem offset order x.2).map fun i => (x.1, i.id) :: k
      else (shiftKey cat offset order k).map (x :: ·) := by
  unfold shiftItem
  rw [shiftKey]
  split
  · cases positionOf order x.2 with
    | none => rfl
    | some p =>
        simp only [Option.bind_eq_bind, Option.bind_some]
        split
        · rfl
        · cases order[((p : Int) - offset).toNat]? <;> rfl
  · rfl

theorem names_shiftKey {k r : CoordKey} (h : shiftKey cat offset order k = some r) :
    names r = names k := by
  induction k generalizing r with
  | nil => cases h
  | cons x k ih =>
      rw [shiftKey_cons] at h
      split at h
      · obtain ⟨i, -, rfl⟩ := Option.map_eq_some_iff.mp h
        rfl
      · obtain ⟨q, hq, rfl⟩ := Option.map_eq_some_iff.mp h
        simpa [names] using ih hq

theorem item_shiftKey (hitems : ∀ i ∈ order, S.items cat i) {k r : CoordKey}
    (hk : ∀ x ∈ k, S.items ⟨x.1⟩ ⟨x.2⟩) (h : shiftKey cat offset order k = some r) :
    ∀ x ∈ r, S.items ⟨x.1⟩ ⟨x.2⟩ := by
  induction k generalizing r with
  | nil => cases h
  | cons y k ih =>
      rw [shiftKey_cons] at h
      split at h
      · next hcat =>
          obtain ⟨i, hi, rfl⟩ := Option.map_eq_some_iff.mp h
          obtain ⟨p, -, hpi⟩ := Option.bind_eq_some_iff.mp hi
          have hmem : i ∈ order := by
            split at hpi
            · cases hpi
            · exact List.mem_of_getElem? hpi
          intro x hx
          rcases List.mem_cons.mp hx with rfl | hx
          · rw [show (⟨y.1⟩ : CategoryId) = cat from congrArg CategoryId.mk hcat]
            exact hitems i hmem
          · exact hk x (List.mem_cons_of_mem _ hx)
      · obtain ⟨q, hq, rfl⟩ := Option.map_eq_some_iff.mp h
        intro x hx
        rcases List.mem_cons.mp hx with rfl | hx
        · exact hk x List.mem_cons_self
        · exact ih (fun x hx => hk x (List.mem_cons_of_mem _ hx)) hq x hx

theorem shiftKey_inj (hnodup : order.Nodup) {k k' r : CoordKey}
    (h : shiftKey cat offset order k = some r) (h' : shiftKey cat offset order k' = some r) :
    k = k' := by
  induction k generalizing k' r with
  | nil => cases h
  | cons x k ih =>
      cases k' with
      | nil => cases h'
      | cons x' k' =>
          have hcat : x.1 = x'.1 := by
            have hnames := (names_shiftKey h).symm.trans (names_shiftKey h')
            simp only [names, List.map_cons, List.cons.injEq] at hnames
            exact hnames.1
          rw [shiftKey_cons] at h h'
          rw [← hcat] at h'
          by_cases hx : x.1 = cat.id
          · rw [if_pos hx] at h h'
            obtain ⟨i, hi, rfl⟩ := Option.map_eq_some_iff.mp h
            obtain ⟨i', hi', heq⟩ := Option.map_eq_some_iff.mp h'
            obtain ⟨hii, rfl⟩ := List.cons.inj heq
            have hitem : i' = i := congrArg ItemId.mk (Prod.mk.inj hii).2
            subst hitem
            rw [Prod.ext hcat (shiftItem_inj hnodup hi hi')]
          · rw [if_neg hx] at h h'
            obtain ⟨q, hq, rfl⟩ := Option.map_eq_some_iff.mp h
            obtain ⟨q', hq', heq⟩ := Option.map_eq_some_iff.mp h'
            obtain ⟨rfl, rfl⟩ := List.cons.inj heq
            rw [ih hq hq']

theorem coordinate_shiftKey (hitems : ∀ i ∈ order, S.items cat i) {k r : CoordKey}
    (hk : Coordinate S d k) (h : shiftKey cat offset order k = some r) : Coordinate S d r where
  at_dim := by
    have hnames := names_shiftKey h
    refine ⟨List.pairwise_map.mp (?_ : (names r).Pairwise (· < ·)), fun n => ?_⟩
    · rw [hnames]
      exact List.pairwise_map.mpr hk.at_dim.sorted
    · rw [hnames, hk.at_dim.names]
  item := item_shiftKey hitems hk.item h

variable {x : Coll} {default : Option (PlanNode × Coll)}

/-- The cells moved along the category. -/
def moved (cat : CategoryId) (offset : Int) (order : List ItemId) (x : Coll) : Coll :=
  x.filterMap fun y => (shiftKey cat offset order y.1).map (·, y.2)

/-- The input's coordinates nothing moved to. -/
def holes (cat : CategoryId) (offset : Int) (order : List ItemId) (x : Coll) : Coll :=
  (x.map (·.1) - (moved cat offset order x).map (·.1)).dedup.map fun k => (k, .bool true)

theorem shift_some (p : PlanNode × Coll) :
    shift cat offset order x (some p) =
      moved cat offset order x +
        (align (holes cat offset order x) p.2 p.1.cats).map fun y => (y.1, y.2.2) := rfl

theorem ranges_moved (hitems : ∀ i ∈ order, S.items cat i) (hx : Ranges S d x) :
    Ranges S d (moved cat offset order x) := by
  intro y hy
  obtain ⟨z, hz, hzy⟩ := (Multiset.mem_filterMap _ _).mp hy
  obtain ⟨r, hr, rfl⟩ := Option.map_eq_some_iff.mp hzy
  exact coordinate_shiftKey hitems (hx z hz) hr

theorem oneValued_moved (hnodup : order.Nodup) (hone : OneValued x) :
    OneValued (moved cat offset order x) := by
  refine hone.filterMap fun y hy z hz y' z' hyy hzz heq => ?_
  obtain ⟨r, hr, rfl⟩ := Option.map_eq_some_iff.mp hyy
  obtain ⟨r', hr', rfl⟩ := Option.map_eq_some_iff.mp hzz
  have hkey : r = r' := heq
  subst hkey
  exact hone.eq_of_key_eq hy hz (shiftKey_inj hnodup hr hr')

theorem ranges_holes (hx : Ranges S d x) : Ranges S d (holes cat offset order x) := by
  intro y hy
  obtain ⟨k, hk, rfl⟩ := Multiset.mem_map.mp hy
  have hmem := Multiset.mem_of_le (Multiset.sub_le_self _ _) (Multiset.mem_dedup.mp hk)
  obtain ⟨z, hz, rfl⟩ := Multiset.mem_map.mp hmem
  exact hx z hz

theorem oneValued_holes : OneValued (holes cat offset order x) := by
  unfold OneValued holes
  rw [Multiset.map_map]
  simp only [Function.comp_def, Multiset.map_id']
  exact Multiset.nodup_dedup _

/-- A hole of a one-valued input is no moved cell's coordinate. -/
theorem not_mem_moved_of_mem_holes (hone : OneValued x) {y : CoordKey × CellValue}
    (hy : y ∈ holes cat offset order x) : y.1 ∉ (moved cat offset order x).map (·.1) := by
  obtain ⟨k, hk, rfl⟩ := Multiset.mem_map.mp hy
  have hcount := Multiset.count_pos.mpr (Multiset.mem_dedup.mp hk)
  rw [Multiset.count_sub] at hcount
  have hle := Multiset.nodup_iff_count_le_one.mp hone k
  have hzero : Multiset.count k ((moved cat offset order x).map (·.1)) = 0 := by
    unfold OneValued at hone
    have hle' : Multiset.count k (x.map fun y => y.1) ≤ 1 := hle
    omega
  exact Multiset.count_eq_zero.mp hzero

theorem ranges_shift (hitems : ∀ i ∈ order, S.items cat i) (hx : Ranges S d x)
    (hdefault : ∀ p ∈ default, Ranges S p.1.cats p.2 ∧ ∀ c ∈ p.1.cats, c ∈ d) :
    Ranges S d (shift cat offset order x default) := by
  cases default with
  | none => exact ranges_moved hitems hx
  | some p =>
      obtain ⟨hp, hsub⟩ := hdefault p rfl
      rw [shift_some]
      intro y hy
      rcases Multiset.mem_add.mp hy with hy | hy
      · exact ranges_moved hitems hx y hy
      · exact (ranges_align_of_subset (ranges_holes hx) hp hsub).map y hy

theorem oneValued_shift (hnodup : order.Nodup) (hx : Ranges S d x)
    (hdefault : ∀ p ∈ default, Ranges S p.1.cats p.2 ∧ ∀ c ∈ p.1.cats, c ∈ d)
    (hone : OneValued x) (honed : ∀ p ∈ default, OneValued p.2) :
    OneValued (shift cat offset order x default) := by
  cases default with
  | none => exact oneValued_moved hnodup hone
  | some p =>
      obtain ⟨hp, hsub⟩ := hdefault p rfl
      have halign : OneValued (align (holes cat offset order x) p.2 p.1.cats) :=
        oneValued_align (ranges_holes hx) hp (fun _ _ hc => hc) oneValued_holes (honed p rfl)
      have hfill := halign.map_values fun y => y.2.2
      rw [shift_some]
      unfold OneValued
      rw [Multiset.map_add, Multiset.nodup_add]
      refine ⟨oneValued_moved hnodup hone, hfill, Multiset.disjoint_right.mpr ?_⟩
      intro k hk
      obtain ⟨y, hy, rfl⟩ := Multiset.mem_map.mp hk
      obtain ⟨z, hz, rfl⟩ := Multiset.mem_map.mp hy
      have hhole := exists_of_mem_align (ranges_holes hx) hp hsub hz
      have hnot := not_mem_moved_of_mem_holes hone hhole
      exact hnot

end Shifting

/-! ## Choosing a branch -/

section Choosing

variable {dom : Coll} {branch : PlanNode × Coll} {want : Bool}

theorem mem_dom_of_mem_pick (hdom : Ranges S d dom) (hb : Ranges S branch.1.cats branch.2)
    (hsub : ∀ c ∈ branch.1.cats, c ∈ d) {x : CoordKey × CellValue}
    (hx : x ∈ pick want dom branch) : (x.1, CellValue.bool want) ∈ dom := by
  obtain ⟨y, hy, rfl⟩ := Multiset.mem_map.mp hx
  have hfilter : Ranges S d (dom.filter fun x => x.2 = .bool want) :=
    fun x hx => hdom x (Multiset.mem_filter.mp hx).1
  obtain ⟨hmem, htest⟩ := Multiset.mem_filter.mp (exists_of_mem_align hfilter hb hsub hy)
  rw [← show y.2.1 = CellValue.bool want from htest]
  exact hmem

theorem oneValued_pick (hdom : Ranges S d dom) (hb : Ranges S branch.1.cats branch.2)
    (hone : OneValued dom) (honeb : OneValued branch.2) :
    OneValued (pick want dom branch) := by
  have hfilter : Ranges S d (dom.filter fun x => x.2 = .bool want) :=
    fun x hx => hdom x (Multiset.mem_filter.mp hx).1
  have halign : OneValued (align (dom.filter fun x => x.2 = .bool want) branch.2
      branch.1.cats) :=
    oneValued_align hfilter hb (fun _ _ hc => hc) (hone.mono (Multiset.filter_le _ _)) honeb
  exact halign.map_values fun y => y.2.2

theorem oneValued_add {a b : Coll} (ha : OneValued a) (hb : OneValued b)
    (hdisj : ∀ x ∈ a, ∀ y ∈ b, x.1 ≠ y.1) : OneValued (a + b) := by
  unfold OneValued
  rw [Multiset.map_add, Multiset.nodup_add]
  refine ⟨ha, hb, Multiset.disjoint_left.mpr fun {k} hk hk' => ?_⟩
  obtain ⟨x, hx, rfl⟩ := Multiset.mem_map.mp hk
  obtain ⟨y, hy, heq⟩ := Multiset.mem_map.mp hk'
  exact hdisj x hx y hy heq.symm

variable {test : PlanNode × Coll} {otherwise : Option (PlanNode × Coll)} {spanning : Option Nat}
  {c : Coll}

theorem cond_eq_ok (h : cond test branch otherwise spanning = .ok c) :
    ∃ dom, testDomain test branch otherwise spanning = some dom ∧
      c = (pick true dom branch + (otherwise.map (pick false dom)).getD 0) +
        dom.filter fun x => x.2.isErr := by
  unfold cond at h
  split at h
  · cases h
  · next dom hdom => exact ⟨dom, hdom, (Except.ok.inj h).symm⟩

variable (hbranch : Ranges S branch.1.cats branch.2)
  (hother : ∀ b ∈ otherwise, Ranges S b.1.cats b.2)
  (hsub : ∀ c ∈ branch.1.cats, c ∈ d) (hsubo : ∀ b ∈ otherwise, ∀ c ∈ b.1.cats, c ∈ d)

include hbranch hother hsub hsubo

theorem ranges_cond (hdom : ∀ dom, testDomain test branch otherwise spanning = some dom →
    Ranges S d dom) (h : cond test branch otherwise spanning = .ok c) : Ranges S d c := by
  obtain ⟨dom, hd, rfl⟩ := cond_eq_ok h
  have hr := hdom dom hd
  intro x hx
  rcases Multiset.mem_add.mp hx with hx | hx
  · rcases Multiset.mem_add.mp hx with hx | hx
    · have hcoord := hr _ (mem_dom_of_mem_pick hr hbranch hsub hx)
      exact hcoord
    · cases otherwise with
      | none => simp at hx
      | some b =>
          have hcoord := hr _ (mem_dom_of_mem_pick hr (hother b rfl) (hsubo b rfl) hx)
          exact hcoord
  · exact hr x (Multiset.mem_filter.mp hx).1

/-- The chosen cells and the test's errors stand at different cells of a
one-valued test. -/
theorem oneValued_cond (hdom : ∀ dom, testDomain test branch otherwise spanning = some dom →
    Ranges S d dom ∧ OneValued dom) (honeb : OneValued branch.2)
    (honeo : ∀ b ∈ otherwise, OneValued b.2)
    (h : cond test branch otherwise spanning = .ok c) : OneValued c := by
  obtain ⟨dom, hd, rfl⟩ := cond_eq_ok h
  obtain ⟨hr, hone⟩ := hdom dom hd
  have hne : ∀ k k' v v', (k, v) ∈ dom → (k', v') ∈ dom → v ≠ v' → k ≠ k' :=
    fun k k' v v' hx hy hxy heq => hxy (congrArg Prod.snd (hone.eq_of_key_eq hx hy heq))
  have htrue : ∀ x ∈ pick true dom branch, (x.1, CellValue.bool true) ∈ dom :=
    fun x hx => mem_dom_of_mem_pick hr hbranch hsub hx
  have hfalse : ∀ x ∈ (otherwise.map (pick false dom)).getD 0,
      (x.1, CellValue.bool false) ∈ dom := by
    intro x hx
    cases otherwise with
    | none => simp at hx
    | some b => exact mem_dom_of_mem_pick hr (hother b rfl) (hsubo b rfl) hx
  have honefalse : OneValued ((otherwise.map (pick false dom)).getD 0) := by
    cases otherwise with
    | none => exact oneValued_zero
    | some b => exact oneValued_pick hr (hother b rfl) hone (honeo b rfl)
  have herr : ∀ y ∈ dom.filter (fun x => x.2.isErr), ∀ b, y.2 ≠ CellValue.bool b := by
    intro y hy b heq
    have hisErr := (Multiset.mem_filter.mp hy).2
    rw [heq] at hisErr
    cases hisErr
  have hpicked := oneValued_add (oneValued_pick hr hbranch hone honeb) honefalse
    fun x hx y hy => hne _ _ _ _ (htrue x hx) (hfalse y hy) (by simp)
  refine oneValued_add hpicked (hone.mono (Multiset.filter_le _ _)) fun x hx y hy => ?_
  have hy' := (Multiset.mem_filter.mp hy).1
  rcases Multiset.mem_add.mp hx with hx | hx
  · exact hne _ _ _ _ (htrue x hx) hy' (herr y hy true).symm
  · exact hne _ _ _ _ (hfalse x hx) hy' (herr y hy false).symm

end Choosing

/-! ## Filling a domain -/

section Filling

variable {args : List (PlanNode × Coll)} {grid : Option ItemOrder} {ty : TypeInfo} {c : Coll}

variable (hargs : ∀ a ∈ args, Ranges S a.1.cats a.2)
  (hsub : ∀ a ∈ args, ∀ c ∈ a.1.cats, c ∈ ty.dim.categories)

include hargs

theorem ranges_coalesceDomain (hgrid : ∀ g ∈ grid, g.map (·.1) = ty.dim.categories ∧
    ∀ x ∈ g, ∀ i ∈ x.2, S.items x.1 i) :
    Ranges S ty.dim.categories
      ((coalesceDomain args grid ty).map fun k => (k, CellValue.bool true)) := by
  intro x hx
  obtain ⟨k, hk, rfl⟩ := Multiset.mem_map.mp hx
  cases grid with
  | some g =>
      obtain ⟨hcats, hitems⟩ := hgrid g rfl
      have hland := landing_gridKeys hitems (Multiset.mem_coe.mp hk)
      rw [hcats] at hland
      exact hland.coordinate ty.dim.sorted
  | none =>
      obtain ⟨a, ha, hka⟩ := Multiset.mem_bind.mp (Multiset.mem_dedup.mp hk)
      obtain ⟨y, hy, rfl⟩ := Multiset.mem_map.mp hka
      obtain ⟨ha, hspans⟩ := List.mem_filter.mp (Multiset.mem_coe.mp ha)
      have hdim : a.1.ty.dim = ty.dim := by simpa [spans] using hspans
      rw [← hdim]
      exact hargs a ha y hy

include hsub

theorem ranges_coalesceTagged {domain : Coll} (hdomain : Ranges S ty.dim.categories domain) :
    Ranges S ty.dim.categories (coalesceTagged args ty domain) := by
  intro x hx
  obtain ⟨a, ha, hxa⟩ := Multiset.mem_bind.mp hx
  have hmem : a.1 ∈ args := List.fst_mem_of_mem_zipIdx ha
  split at hxa
  · next hspans =>
      obtain ⟨y, hy, rfl⟩ := Multiset.mem_map.mp hxa
      have hdim : a.1.1.ty.dim = ty.dim := by simpa [spans] using hspans
      have hcoord := hargs a.1 hmem y hy
      unfold PlanNode.cats at hcoord
      rwa [hdim] at hcoord
  · obtain ⟨y, hy, rfl⟩ := Multiset.mem_map.mp hxa
    exact ranges_align_of_subset hdomain (hargs a.1 hmem) (hsub a.1 hmem) y hy

theorem ranges_coalesce (hgrid : ∀ g ∈ grid, g.map (·.1) = ty.dim.categories ∧
    ∀ x ∈ g, ∀ i ∈ x.2, S.items x.1 i) (h : coalesce args grid ty = .ok c) :
    Ranges S ty.dim.categories c := by
  unfold coalesce at h
  split at h
  · cases h
  · cases h
    have hdomain := ranges_coalesceDomain hargs hgrid
    exact (ranges_coalesceTagged hargs hsub hdomain).reduceInOrder _

omit hargs hsub

/-- Only the first argument with a cell counts. -/
theorem oneValued_coalesce (h : coalesce args grid ty = .ok c) : OneValued c := by
  unfold coalesce at h
  split at h
  · cases h
  · cases h
    refine oneValued_reduceInOrder fun l => ?_
    rw [List.length_take]
    exact min_le_left _ _

end Filling

/-! ## Recurrences -/

section Recurring

variable {R : Registry} {K : Kernels} {body : Expr} {ids : List MeasureId} {slots : List Slot}
  {cat : CategoryId} {order : List ItemId} {refs : List (PlanNode × Coll)} {c : Coll}

/-- A recurrence gives at most one result for each of its rows, at the row's
item. -/
theorem recur_items (done : List (Int × CellValue))
    (rows : List ((Nat ×ₗ Nat) ×ₗ List CellValue)) :
    ((recur R K body ids slots done rows).map Prod.fst).Sublist
      (rows.map fun r => (ofLex (ofLex r).1).2) := by
  induction rows generalizing done with
  | nil => simp [recur]
  | cons r rows ih =>
      rw [recur]
      split
      · exact (ih _).cons_cons _
      · exact (ih _).cons _

/-- The rows a recurrence runs over, by group. -/
def recurrenceRows (cat : CategoryId) (order : List ItemId) (rows : Lines) :
    Multiset (CoordKey × (Nat ×ₗ Nat) ×ₗ List CellValue) :=
  rows.map fun x => (x.1.filter (·.1 ≠ cat.id),
    toLex (toLex (sortPosition order (itemOf x.1 cat), itemOf x.1 cat), x.2))

theorem filter_eq_projectKey {k : CoordKey} (hk : Coordinate S d k) :
    k.filter (·.1 ≠ cat.id) = projectKey k (d.filter (· ≠ cat)) := by
  unfold projectKey project
  refine List.filter_congr fun x hx => ?_
  have hmem : (⟨x.1⟩ : CategoryId) ∈ d := hk.mem_names.mp (List.mem_map_of_mem hx)
  rw [decide_eq_decide, show x.1 = (CategoryId.mk x.1).id from rfl, mem_map_id,
    List.mem_filter, decide_eq_true_eq]
  constructor
  · intro hne
    exact ⟨hmem, fun heq => hne (congrArg CategoryId.id heq)⟩
  · intro h heq
    exact h.2 (congrArg CategoryId.mk heq)

theorem ranges_recurrenceRows {rows : Lines} (hrows : Ranges S d rows) :
    Ranges S (d.filter (· ≠ cat)) (recurrenceRows cat order rows) := by
  intro x hx
  obtain ⟨r, hr, rfl⟩ := Multiset.mem_map.mp hx
  change Coordinate S _ (r.1.filter (·.1 ≠ cat.id))
  rw [filter_eq_projectKey (hrows r hr)]
  exact (hrows r hr).project fun c hc => (List.mem_filter.mp hc).1

theorem recurrence_eq_ok (h : recurrence R K body ids refs slots cat order = .ok c) :
    ∃ first rest, refs = first :: rest ∧
      c = (Bag.reduceInOrder (fun group => recur R K body ids slots [] group.dedup)
        (recurrenceRows cat order (alignAll [] (oneEach first.2) first.1.cats rest))).map
          fun x => (sortKey (x.1 ++ [(cat.id, x.2.1)]), x.2.2) := by
  unfold recurrence at h
  split at h
  · cases h
  · next first c' rest =>
      exact ⟨(first, c'), rest, rfl, (Except.ok.inj h).symm⟩

section Results

variable {rows : Lines} (hrows : Ranges S d rows) (hcat : cat ∈ d)

include hrows

include hcat in
theorem landing_recurrence {x : CoordKey × Nat × CellValue}
    (hx : x ∈ Bag.reduceInOrder (fun group => recur R K body ids slots [] group.dedup)
      (recurrenceRows cat order rows)) : Landing S [cat] [(cat.id, x.2.1)] := by
  have hmem := List.mem_map_of_mem (f := Prod.fst) (mem_reduceInOrder.mp hx).2
  obtain ⟨a, ha, hax⟩ := List.mem_map.mp ((recur_items _ _).subset hmem)
  obtain ⟨y, hy, rfl⟩ := Multiset.mem_map.mp (mem_inOrder.mp (List.mem_dedup.mp ha))
  obtain ⟨r, hr, rfl⟩ := Multiset.mem_map.mp (Multiset.mem_filter.mp hy).1
  refine ⟨rfl, fun z hz => ?_⟩
  rw [List.mem_singleton] at hz
  subst hz
  rw [← hax]
  exact (hrows r hr).item _ (mem_of_lookup ((hrows r hr).itemOf_mem hcat))

theorem nodup_recurrence (hone : OneValued rows) :
    ((Bag.reduceInOrder (fun group => recur R K body ids slots [] group.dedup)
      (recurrenceRows cat order rows)).map fun x => (x.1, x.2.1)).Nodup := by
  have hsub : ∀ c ∈ d, c ∈ d.filter (· ≠ cat) ∨ c = cat := by
    intro c hc
    by_cases h : c = cat
    · exact .inr h
    · exact .inl (List.mem_filter.mpr ⟨hc, by simpa using h⟩)
  refine nodup_map_reduceInOrder fun g => ?_
  have hgroup : ((rows.filter fun x => x.1.filter (·.1 ≠ cat.id) = g).map
      fun x => itemOf x.1 cat).Nodup := by
    rw [Multiset.filter_congr fun x hx => by rw [filter_eq_projectKey (hrows x hx)]]
    exact nodup_group_items hrows hone hsub g
  unfold recurrenceRows
  rw [Multiset.filter_map, Multiset.map_map]
  refine List.Nodup.sublist ((recur_items _ _).trans ((List.dedup_sublist _).map _)) ?_
  exact nodup_labels_inOrder hgroup

end Results

theorem ranges_recurrence (hrefs : ∀ n ∈ refs, Ranges S n.1.cats n.2)
    (hcat : ∃ n ∈ refs, cat ∈ n.1.cats)
    (h : recurrence R K body ids refs slots cat order = .ok c) :
    Ranges S (refs.flatMap (·.1.cats)) c := by
  obtain ⟨first, rest, rfl, rfl⟩ := recurrence_eq_ok h
  have hrows : Ranges S ((first :: rest).flatMap (·.1.cats))
      (alignAll [] (oneEach first.2) first.1.cats rest) :=
    ranges_alignAll (hrefs first List.mem_cons_self).oneEach
      fun n hn => hrefs n (List.mem_cons_of_mem _ hn)
  have hmem : cat ∈ (first :: rest).flatMap (·.1.cats) := List.mem_flatMap.mpr hcat
  refine (ranges_land (fun i => [(cat.id, i)]) ((ranges_recurrenceRows hrows).reduceInOrder _)
    (List.nodup_singleton cat) (fun c hc => ?_)
    fun x hx => landing_recurrence hrows hmem hx).congr fun c => ?_
  · simpa using (List.mem_filter.mp hc).2
  · rw [List.mem_append, List.mem_filter, List.mem_singleton]
    by_cases hc : c = cat
    · subst hc
      exact iff_of_true (.inr rfl) hmem
    · rw [decide_eq_true_eq, and_iff_left hc, or_iff_left hc]

theorem oneValued_recurrence (hrefs : ∀ n ∈ refs, Ranges S n.1.cats n.2 ∧ OneValued n.2)
    (hcat : ∃ n ∈ refs, cat ∈ n.1.cats)
    (h : recurrence R K body ids refs slots cat order = .ok c) : OneValued c := by
  obtain ⟨first, rest, rfl, rfl⟩ := recurrence_eq_ok h
  obtain ⟨hfirst, honef⟩ := hrefs first List.mem_cons_self
  have hrows : Ranges S ((first :: rest).flatMap (·.1.cats))
      (alignAll [] (oneEach first.2) first.1.cats rest) :=
    ranges_alignAll hfirst.oneEach fun n hn => (hrefs n (List.mem_cons_of_mem _ hn)).1
  have hone : OneValued (alignAll [] (oneEach first.2) first.1.cats rest) :=
    oneValued_alignAll hfirst.oneEach (fun n hn => (hrefs n (List.mem_cons_of_mem _ hn)).1)
      (fun n _ c hc => by simpa using hc) (fun _ hc => hc) (honef.map_values _)
      fun n hn => (hrefs n (List.mem_cons_of_mem _ hn)).2
  have hmem : cat ∈ (first :: rest).flatMap (·.1.cats) := List.mem_flatMap.mpr hcat
  refine oneValued_land (fun i => [(cat.id, i)]) ((ranges_recurrenceRows hrows).reduceInOrder _)
    (List.nodup_singleton cat) (fun c hc => ?_)
    (fun x hx => landing_recurrence hrows hmem hx)
    (fun i j hij => (Prod.mk.inj (List.cons.inj hij).1).2) (nodup_recurrence hrows hone)
  simpa using (List.mem_filter.mp hc).2

end Recurring

end Improv.Engine
