import Mathlib.Data.List.Dedup
import Improv.Policy.RowDecisions
/-!
# Classes of items

A row check knows each dimension's items by their classes.  Items of a class are
alike for every question about them and about the cells at them, so one
combination of classes has one decision.
-/

namespace Improv.Policy.Restricted

open Improv.Lib Improv.CoreModel Improv.Service
open Improv.Lib.Cached (Yields)

variable {r : Restricted}

/-! ## The items of a category -/

theorem Built.mem_itemsOf (h : r.Built) {c : CategoryId} {x : Item} :
    x ∈ r.itemsOf c ↔ r.model.items.get? x.id = some x ∧ x.category = c := by
  rw [itemsOf, List.mem_filter, SortedMap.mem_values_iff, decide_eq_true_iff]
  constructor
  · intro ⟨⟨k, hk⟩, hc⟩
    rw [h.keyed.item k x hk]
    exact ⟨hk, hc⟩
  · intro ⟨hx, hc⟩
    exact ⟨⟨x.id, hx⟩, hc⟩

theorem Built.shape_items (h : r.Built) (i : ItemId) :
    r.session.shape.items.get? i = (r.model.items.get? i).map Item.category := by
  rw [h.shape]
  exact SortedMap.get?_map _ _ _

theorem Built.shape_measures (h : r.Built) (m : MeasureId) :
    r.session.shape.measures.get? m = (r.model.measures.get? m).map shapeOf := by
  rw [h.shape]
  exact SortedMap.get?_map _ _ _

theorem Built.nodup_names (h : r.Built) (c : CategoryId) :
    ((r.itemsOf c).map Item.name).Nodup := by
  have hvalues : r.model.items.values.Pairwise fun x y => x.id ≠ y.id := by
    rw [SortedMap.values, List.pairwise_map]
    refine (List.pairwise_map.mp r.model.items.nodup_keys).imp_of_mem fun {p q} hp hq hne => ?_
    rw [h.keyed.item p.1 p.2 (SortedMap.get?_eq_some_iff.mpr hp),
      h.keyed.item q.1 q.2 (SortedMap.get?_eq_some_iff.mpr hq)]
    exact hne
  refine List.pairwise_map.mpr ((hvalues.filter _).imp_of_mem fun {x y} hx hy hne hname => ?_)
  obtain ⟨hxi, hxc⟩ := h.mem_itemsOf.mp hx
  obtain ⟨hyi, hyc⟩ := h.mem_itemsOf.mp hy
  exact hne (h.unique _ _ x y hxi hyi (hxc.trans hyc.symm) hname)

/-- An item of the category in the class with this number. -/
def InNumber (r : Restricted) (c : CategoryId) (k : Nat) (x : Item) : Prop :=
  x ∈ r.itemsOf c ∧ ((x.id ∉ r.named ∧ k = 0) ∨
    (x.id ∈ r.named ∧ ∃ n, k = n + 1 ∧ (r.namedOf c)[n]? = some x))

theorem mem_classed {c : CategoryId} {n : String} {k : Nat} {i : ItemId} :
    (n, (k, i)) ∈ r.classed c ↔ ∃ x, r.InNumber c k x ∧ x.name = n ∧ x.id = i := by
  unfold classed InNumber
  simp only [List.mem_append, List.mem_map, List.mem_filter, decide_eq_true_iff, Prod.mk.injEq,
    Prod.exists]
  constructor
  · rintro (⟨x, ⟨hx, hnot⟩, hn, hk, hi⟩ | ⟨x, k', hmem, hn, hk, hi⟩)
    · exact ⟨x, ⟨hx, .inl ⟨hnot, hk.symm⟩⟩, hn, hi⟩
    · rw [List.mk_mem_zipIdx_iff_le_and_getElem?_sub] at hmem
      have hin := List.mem_filter.mp (List.mem_of_getElem? hmem.2)
      exact ⟨x, ⟨hin.1, .inr ⟨of_decide_eq_true hin.2, k' - 1, by omega, hmem.2⟩⟩, hn, hi⟩
  · rintro ⟨x, ⟨hx, ⟨hnot, hk⟩ | ⟨_, p, hk, hget⟩⟩, hn, hi⟩
    · exact .inl ⟨x, ⟨hx, hnot⟩, hn, hk.symm, hi⟩
    · refine .inr ⟨x, k, ?_, hn, rfl, hi⟩
      rw [List.mk_mem_zipIdx_iff_le_and_getElem?_sub, hk]
      exact ⟨by omega, hget⟩

theorem exists_number {c : CategoryId} {x : Item} (hx : x ∈ r.itemsOf c) :
    ∃ k, r.InNumber c k x := by
  by_cases hn : x.id ∈ r.named
  · have hmem : x ∈ r.namedOf c := List.mem_filter.mpr ⟨hx, decide_eq_true hn⟩
    obtain ⟨n, hget⟩ := List.getElem?_of_mem hmem
    exact ⟨n + 1, hx, .inr ⟨hn, n, rfl, hget⟩⟩
  · exact ⟨0, hx, .inl ⟨hn, rfl⟩⟩

/-- A class's number is below the number of classes. -/
theorem InNumber.lt {c : CategoryId} {k : Nat} {x : Item} (h : r.InNumber c k x) :
    k < (r.namedOf c).length + 1 := by
  rcases h.2 with ⟨_, hk⟩ | ⟨_, n, hk, hget⟩
  · omega
  · have hlt := (List.getElem?_eq_some_iff.mp hget).1
    omega

/-- Two items of a class are the same one, or no policy names either. -/
theorem InNumber.twins {c : CategoryId} {k : Nat} {x y : Item} (hx : r.InNumber c k x)
    (hy : r.InNumber c k y) : x.id = y.id ∨ (x.id ∉ r.named ∧ y.id ∉ r.named) := by
  rcases hx.2 with ⟨hxn, hk⟩ | ⟨_, n, hk, hget⟩
  · rcases hy.2 with ⟨hyn, _⟩ | ⟨_, n, hk', _⟩
    · exact .inr ⟨hxn, hyn⟩
    · omega
  · rcases hy.2 with ⟨_, hk'⟩ | ⟨_, n', hk', hget'⟩
    · omega
    · have hn : n' = n := by omega
      rw [hn, hget] at hget'
      rw [Option.some.inj hget']
      exact .inl rfl

theorem classed_names (r : Restricted) (c : CategoryId) :
    ((r.classed c).map (·.1)).Perm ((r.itemsOf c).map Item.name) := by
  have hnamed : ((r.namedOf c).zipIdx 1).map (fun p => p.1.name) =
      (r.namedOf c).map Item.name := by
    show ((r.namedOf c).zipIdx 1).map (Item.name ∘ Prod.fst) = _
    rw [← List.map_map, List.zipIdx_map_fst]
  have hsplit := (List.filter_append_perm (fun x : Item => x.id ∈ r.named)
    (r.itemsOf c)).map Item.name
  have hnot : (r.itemsOf c).filter (fun x => !(Decidable.decide (x.id ∈ r.named))) =
      (r.itemsOf c).filter (·.id ∉ r.named) := by
    simp
  rw [hnot, List.map_append] at hsplit
  unfold classed
  rw [List.map_append, List.map_map, List.map_map]
  have hcomm : (((r.itemsOf c).filter (·.id ∉ r.named)).map Item.name ++
      (r.namedOf c).map Item.name).Perm _ := List.perm_append_comm
  rw [← hnamed] at hcomm
  refine hcomm.trans ?_
  rw [hnamed]
  exact hsplit

/-- A dimension knows each of its names by its class and item. -/
theorem Built.get?_names (h : r.Built) {c : CategoryId} {n : String} {p : Nat × ItemId} :
    (SortedMap.ofList (r.classed c)).get? n = some p ↔ (n, p) ∈ r.classed c :=
  SortedMap.get?_ofList_of_nodup ((r.classed_names c).nodup_iff.mpr (h.nodup_names c))

/-! ## Coordinates -/

section Coordinates

variable {cats : List CategoryId} {is js : List ItemId}

/-- The items are of the categories, one each. -/
def OfCategories (r : Restricted) (cats : List CategoryId) (is : List ItemId) : Prop :=
  List.Forall₂ (fun i c => r.session.shape.items.get? i = some c) is cats

/-- The items are the same, or no policy names them. -/
def Twins (r : Restricted) (is js : List ItemId) : Prop :=
  List.Forall₂ (fun i j => i = j ∨ (i ∉ r.named ∧ j ∉ r.named)) is js

theorem keys_fromPairs (hlen : is.length = cats.length) (c : CategoryId) :
    c ∈ (Coordinate.fromPairs (cats.zip is)).keys ↔ c ∈ cats := by
  rw [Coordinate.fromPairs, SortedMap.mem_keys_ofList, List.map_fst_zip (by omega)]

theorem get?_fromPairs (hcats : cats.Nodup) (hlen : is.length = cats.length) :
    List.Forall₂ (fun c i => (Coordinate.fromPairs (cats.zip is)).get? c = some i) cats is := by
  rw [List.forall₂_iff_zip]
  refine ⟨hlen.symm, fun {c i} hmem => ?_⟩
  refine (SortedMap.get?_ofList_of_nodup ?_).mpr hmem
  rw [List.map_fst_zip (by omega)]
  exact hcats

theorem size_fromPairs (hlen : is.length = cats.length) :
    (Coordinate.fromPairs (cats.zip is)).size = cats.length ↔ cats.Nodup := by
  have hperm : (Coordinate.fromPairs (cats.zip is)).keys.Perm cats.dedup :=
    (List.perm_ext_iff_of_nodup (SortedMap.nodup_keys _) (List.nodup_dedup cats)).mpr fun c => by
      rw [keys_fromPairs hlen, List.mem_dedup]
  rw [← SortedMap.length_keys, hperm.length_eq]
  constructor
  · intro heq
    rw [← (List.dedup_sublist cats).eq_of_length heq]
    exact List.nodup_dedup cats
  · intro hnodup
    rw [List.Nodup.dedup hnodup]

theorem filterMap_of_forall₂ {f : CategoryId → Option ItemId}
    (h : List.Forall₂ (fun c i => f c = some i) cats is) : cats.filterMap f = is := by
  induction h with
  | nil => rfl
  | cons hc _ ih => rw [List.filterMap_cons_some hc, ih]

/-- The items of a coordinate made of one item for each category. -/
theorem cellItems_fromPairs (h : r.OfCategories cats is) {m : MeasureId} {x : MeasureShape}
    (hx : r.session.shape.measures.get? m = some x) (hcats : x.categories = cats) :
    cats.Nodup ∧ r.session.shape.cellItems m (Coordinate.fromPairs (cats.zip is)) = .ok is ∨
      ¬cats.Nodup ∧ ∃ e, r.session.shape.cellItems m (Coordinate.fromPairs (cats.zip is)) =
        .error e := by
  have hlen : is.length = cats.length := h.length_eq
  unfold Structure.cellItems
  rw [hx]
  simp only [hcats]
  by_cases hnodup : cats.Nodup
  · have hget := get?_fromPairs hnodup hlen
    have hall : cats.all (fun c => ((Coordinate.fromPairs (cats.zip is)).get? c).any fun i =>
        r.session.shape.items.get? i = some c) = true := by
      rw [List.all_eq_true]
      intro c hc
      have hfst : (cats.zip is).map (·.1) = cats := List.map_fst_zip (by omega)
      rw [← hfst] at hc
      obtain ⟨⟨c, i⟩, hmem, rfl⟩ := List.mem_map.mp hc
      have hi := (List.forall₂_iff_zip.mp h.flip).2 hmem
      rw [(List.forall₂_iff_zip.mp hget).2 hmem]
      simpa using hi
    refine .inl ⟨hnodup, ?_⟩
    rw [if_pos ⟨(size_fromPairs hlen).mpr hnodup, hall⟩, filterMap_of_forall₂ hget]
  · refine .inr ⟨hnodup, _, if_neg fun hfits => hnodup ((size_fromPairs hlen).mp hfits.1)⟩

theorem Built.itemVisible_eq (h : r.Built) (i : ItemId) :
    r.session.itemVisible i =
      (r.session.decide .viewModel .model && r.session.decide .readItem (.item i)) := by
  obtain ⟨ask, hans, _⟩ := h.alike
  unfold Session.itemVisible Session.allowed
  rw [hans]
  simp [Session.steps, Session.needs, bind, Except.bind, pure, Except.pure]

theorem Built.decide_item_twin (h : r.Built) {i j : ItemId} {c : CategoryId}
    (hi : r.session.shape.items.get? i = some c) (hj : r.session.shape.items.get? j = some c)
    (htwin : i = j ∨ (i ∉ r.named ∧ j ∉ r.named)) (a : Action) :
    r.session.decide a (.item i) = r.session.decide a (.item j) := by
  have hclass : ∀ k, r.session.shape.items.get? k = some c →
      r.InClass (.item c (r.ownClass k)) (.item k) := by
    intro k hk
    simp [InClass, classOf, hk]
  exact h.decide_congr (hclass i hi) (ownClass_eq_iff.mpr htwin ▸ hclass j hj) a

theorem Built.itemVisible_twin (h : r.Built) {i j : ItemId} {c : CategoryId}
    (hi : r.session.shape.items.get? i = some c) (hj : r.session.shape.items.get? j = some c)
    (htwin : i = j ∨ (i ∉ r.named ∧ j ∉ r.named)) :
    r.session.itemVisible i = r.session.itemVisible j := by
  rw [h.itemVisible_eq, h.itemVisible_eq, h.decide_item_twin hi hj htwin]

theorem Twins.mem_iff (h : r.Twins is js) : ∀ i ∈ r.named, i ∈ is ↔ i ∈ js := by
  intro k hk
  induction h with
  | nil => exact Iff.rfl
  | @cons i j is js hij _ ih =>
      rw [List.mem_cons, List.mem_cons, ih]
      rcases hij with rfl | ⟨hi, hj⟩
      · exact Iff.rfl
      · have hki : k ≠ i := fun heq => hi (heq ▸ hk)
        have hkj : k ≠ j := fun heq => hj (heq ▸ hk)
        simp [hki, hkj]

/-- What twins of a category share, twin lists share. -/
theorem Twins.map_eq {α : Type} {f : ItemId → α} (hf : ∀ i j c,
      r.session.shape.items.get? i = some c → r.session.shape.items.get? j = some c →
        (i = j ∨ (i ∉ r.named ∧ j ∉ r.named)) → f i = f j)
    (h : r.Twins is js) (his : r.OfCategories cats is) (hjs : r.OfCategories cats js) :
    is.map f = js.map f := by
  induction h generalizing cats with
  | nil => rfl
  | @cons i j is js hij _ ih =>
      cases his with
      | cons hi his =>
          cases hjs with
          | cons hj hjs => rw [List.map_cons, List.map_cons, hf i j _ hi hj hij, ih his hjs]

/-- Cells at twin items are decided alike. -/
theorem Built.cellVisible_twins (h : r.Built) {m : MeasureId} {x : MeasureShape}
    (hx : r.session.shape.measures.get? m = some x) (hcats : x.categories = cats)
    (his : r.OfCategories cats is) (hjs : r.OfCategories cats js) (htwins : r.Twins is js) :
    r.session.cellVisible m (Coordinate.fromPairs (cats.zip is)) =
      r.session.cellVisible m (Coordinate.fromPairs (cats.zip js)) := by
  rw [h.cellVisible_eq, h.cellVisible_eq]
  unfold cellAnswer
  rcases cellItems_fromPairs his hx hcats with ⟨hnodup, hi⟩ | ⟨hdup, e, hi⟩
  · rcases cellItems_fromPairs hjs hx hcats with ⟨_, hj⟩ | ⟨hdup, _⟩
    · have hcell : r.session.decide .readCell (.cell m (Coordinate.fromPairs (cats.zip is))) =
          r.session.decide .readCell (.cell m (Coordinate.fromPairs (cats.zip js))) :=
        h.decide_congr
          (show r.InClass (.cell m js) (.cell m (Coordinate.fromPairs (cats.zip is))) from
            ⟨rfl, is, hi, htwins.mem_iff⟩)
          (show r.InClass (.cell m js) (.cell m (Coordinate.fromPairs (cats.zip js))) from
            ⟨rfl, js, hj, fun _ _ => Iff.rfl⟩) _
      have hitems : (is.map fun i => (Action.readItem, Resource.item i)).all
            (fun p => r.session.decide p.1 p.2) =
          (js.map fun i => (Action.readItem, Resource.item i)).all
            (fun p => r.session.decide p.1 p.2) := by
        have hmap := htwins.map_eq (f := fun i => r.session.decide .readItem (.item i))
          (fun i j c hic hjc hij => h.decide_item_twin hic hjc hij _) his hjs
        simpa [List.all_map, Function.comp_def] using congrArg (List.all · id) hmap
      rw [hi, hj]
      simp only [cellSteps, List.cons_append, List.all_cons, List.all_append, hitems, hcell,
        reduceCtorEq, if_false, List.all_nil]
    · exact absurd hnodup hdup
  · rcases cellItems_fromPairs hjs hx hcats with ⟨hnodup, _⟩ | ⟨_, e', hj⟩
    · exact absurd hnodup hdup
    · rw [hi, hj]

/-- A shown cell's model, measure and items may all be read. -/
theorem Built.readable_of_cellVisible (h : r.Built) {m : MeasureId} {x : MeasureShape}
    (hx : r.session.shape.measures.get? m = some x) (hcats : x.categories = cats)
    (his : r.OfCategories cats is)
    (hshown : r.session.cellVisible m (Coordinate.fromPairs (cats.zip is)) = true) :
    r.session.decide .viewModel .model = true ∧
      r.session.decide .readMeasure (.measure m) = true ∧
        ∀ i ∈ is, r.session.itemVisible i = true := by
  rw [h.cellVisible_eq] at hshown
  unfold cellAnswer at hshown
  rcases cellItems_fromPairs his hx hcats with ⟨_, hi⟩ | ⟨_, e, hi⟩
  · rw [hi] at hshown
    simp only [cellSteps, List.cons_append, List.all_cons, List.all_append, List.all_map,
      Bool.and_eq_true, List.all_eq_true, Function.comp_apply] at hshown
    refine ⟨hshown.1, hshown.2.1, fun i hmem => ?_⟩
    rw [h.itemVisible_eq, hshown.1, hshown.2.2.1 i hmem]
    rfl
  · rw [hi] at hshown
    cases hshown

end Coordinates

end Improv.Policy.Restricted
