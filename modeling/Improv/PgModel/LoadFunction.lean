import Improv.PgModel.LoadRuns
/-!
# When a load is a function of the data

A load gives one model for every order of the rows, of the bindings and of its
walks exactly when its names leave nothing to the order: each category gets one
item at most, and a name that several items bear places no cell.
-/

namespace Improv.PgModel

open Improv.Lib Improv.CoreModel Improv.Engine
open Improv.StorageSql (Named internAll find_internAll extends_internAll)

/-! ## What names can mean -/

section Means

variable {cal : Calendar} {m : Model} {bound bound' : List BoundRows} {o o' : Orders}

/-- An item that a name can be found as: one that bears it, or the one minted for
it where none does. -/
def Means (m : Model) (bound : List BoundRows) (c : CategoryId) (n : String) (i : ItemId) : Prop :=
  Bears m c n i ∨ (∀ j, ¬Bears m c n j) ∧
    (internAll (seededIn m.items.values 1) (namesIn m bound)).map.find c n = some i

/-- A coordinate that some names can be placed at. -/
def Candidate (m : Model) (bound : List BoundRows) (names : SortedMap CategoryId String)
    (k : Coordinate) : Prop :=
  ∀ c, (names.get? c = none → k.get? c = none) ∧
    ∀ n, names.get? c = some n → ∃ i, k.get? c = some i ∧ Means m bound c n i

/-- A category gets one item at most, the only one its name can mean. -/
def ListsFree (m : Model) (bound : List BoundRows) : Prop :=
  ∀ c x, m.categories.get? c = some x → ∀ n i, Means m bound c n i → i ∉ x.items →
    (∀ j, Means m bound c n j → j = i) ∧
      ∀ n' i', Means m bound c n' i' → i' ∉ x.items → i' = i

/-- A row's names mean one item each, or the model holds the row's value wherever
they can be placed. -/
def CellsFree (cal : Calendar) (m : Model) (bound : List BoundRows) : Prop :=
  ∀ e ∈ entries cal m bound,
    (∀ c n i j, e.1.2.get? c = some n → Means m bound c n i → Means m bound c n j → i = j) ∨
      ∀ k, Candidate m bound e.1.2 k → m.inputs.get? ⟨e.1.1, k⟩ = some e.2

/-- Nothing of a load is left to the order of its walks, and its ids do not run
out. -/
def OrderFree (cal : Calendar) (m : Model) (bound : List BoundRows) : Prop :=
  InShape m bound → StorageSql.Fits (seededIn m.items.values 1) (namesIn m bound) ∧
    (Clean cal m bound → ListsFree m bound ∧ CellsFree cal m bound)

variable (hm : ∀ k x, m.items.get? k = some x → x.id = k)
include hm

theorem minting_canonical : Minting m (internAll (seededIn m.items.values 1) (namesIn m bound)) :=
  (Minting.seeded hm (.refl _)).internAll _

/-- A name is found as an item it can mean. -/
theorem means_of_find (ho : o.Valid m) {c : CategoryId} {n : String} {i : ItemId}
    (h : (interned o m bound).map.find c n = some i) : Means m bound c n i := by
  rcases (minting_interned hm ho bound).sound c n i h with hbears | ⟨-, hnot⟩
  · exact .inl hbears
  · refine .inr ⟨hnot, ?_⟩
    rw [find_internAll_seededIn hm (.refl _) ho.seed _ hnot]
    exact h

/-- A name that means one item is found as it. -/
theorem find_of_means (ho : o.Valid m) {c : CategoryId} {n : String} {i : ItemId}
    (h : Means m bound c n i) (hone : ∀ j, Means m bound c n j → j = i) :
    (interned o m bound).map.find c n = some i := by
  rcases h with hbears | ⟨hnot, hfind⟩
  · obtain ⟨j, hj⟩ := (minting_interned hm ho bound).complete c n i hbears
    rw [hj, hone j (means_of_find hm ho hj)]
  · unfold interned
    rw [find_internAll_seededIn hm ho.seed (.refl _) _ hnot]
    exact hfind

/-- An item has one name. -/
theorem Means.eq {c c' : CategoryId} {n n' : String} {i : ItemId} (h : Means m bound c n i)
    (h' : Means m bound c' n' i) : c = c' ∧ n = n' := by
  have hcanonical := @minting_canonical m bound hm
  have habove : ∀ {c n}, (∀ j, ¬Bears m c n j) →
      (internAll (seededIn m.items.values 1) (namesIn m bound)).map.find c n = some i →
        ItemInterner.maxId m < i.id := fun hnot hfind =>
    ((hcanonical.sound _ _ _ hfind).resolve_left (hnot i)).1
  rcases h with hb | ⟨hnot, hfind⟩
  · rcases h' with hb' | ⟨hnot', hfind'⟩
    · exact hb.eq hb'
    · exact absurd (habove hnot' hfind') (not_lt.mpr (hb.le_maxId hm))
  · rcases h' with hb' | ⟨hnot', hfind'⟩
    · exact absurd (habove hnot hfind) (not_lt.mpr (hb'.le_maxId hm))
    · exact hcanonical.injective _ _ _ _ _ hfind hfind'

/-- Names that can be placed at one coordinate are the same. -/
theorem Candidate.eq {names names' : SortedMap CategoryId String} {k : Coordinate}
    (h : Candidate m bound names k) (h' : Candidate m bound names' k) : names = names' := by
  ext1 c
  cases hn : names.get? c with
  | none =>
      cases hn' : names'.get? c with
      | none => rfl
      | some n' =>
          obtain ⟨i, hi, -⟩ := (h' c).2 n' hn'
          rw [(h c).1 hn] at hi
          cases hi
  | some n =>
      obtain ⟨i, hi, hmeans⟩ := (h c).2 n hn
      cases hn' : names'.get? c with
      | none =>
          rw [(h' c).1 hn'] at hi
          cases hi
      | some n' =>
          obtain ⟨j, hj, hmeans'⟩ := (h' c).2 n' hn'
          rw [hi, Option.some.injEq] at hj
          subst hj
          rw [(hmeans.eq hm hmeans').2]

/-- The names of a row are placed where they can be. -/
theorem candidate_place (ho : o.Valid m) (hshape : InShape m bound) {e : Entry}
    (he : e ∈ entries cal m bound) :
    Candidate m bound e.1.2 (place (interned o m bound).map e.1.2) := by
  intro c
  rw [get?_place]
  constructor
  · intro hn
    rw [hn]
    rfl
  · intro n hn
    obtain ⟨i, hi⟩ : ∃ i, (interned o m bound).map.find c n = some i :=
      find_internAll ((mem_namesIn hshape).mpr (uses_of_mem_entries he hn))
    refine ⟨i, ?_, means_of_find hm ho hi⟩
    rw [hn, Option.map_some, hi, Option.getD_some]

/-- Names that mean one item each are placed alike in every order. -/
theorem place_congr (ho : o.Valid m) (ho' : o'.Valid m) (hshape : InShape m bound) {e : Entry}
    (he : e ∈ entries cal m bound)
    (hone : ∀ c n i j, e.1.2.get? c = some n → Means m bound c n i → Means m bound c n j → i = j) :
    place (interned o m bound).map e.1.2 = place (interned o' m bound).map e.1.2 := by
  ext1 c
  rw [get?_place, get?_place]
  cases hn : e.1.2.get? c with
  | none => rfl
  | some n =>
      obtain ⟨i, hi⟩ : ∃ i, (interned o m bound).map.find c n = some i :=
        find_internAll ((mem_namesIn hshape).mpr (uses_of_mem_entries he hn))
      have hmeans := means_of_find hm ho hi
      have hfind := find_of_means hm ho' hmeans fun j hj => hone c n j i hn hj hmeans
      rw [Option.map_some, Option.map_some, hi, hfind]

end Means

/-! ## One model for every order -/

/-- Lists of different members that have the same one member at most are one. -/
theorem eq_of_le_one {α : Type} {l l' : List α} (hl : l.Nodup) (hl' : l'.Nodup)
    (hsame : ∀ a, a ∈ l ↔ a ∈ l') (hone : ∀ a ∈ l, ∀ b ∈ l, a = b) : l = l' := by
  have hperm := (List.perm_ext_iff_of_nodup hl hl').mpr hsame
  match l, hl, hone with
  | [], _, _ => exact hperm.nil_eq
  | [a], _, _ => exact (List.singleton_perm.mp hperm)
  | a :: b :: rest, hnodup, hone =>
      have hab := hone a (by simp) b (by simp)
      rw [List.nodup_cons, hab] at hnodup
      exact absurd List.mem_cons_self hnodup.1

section Same

variable {cal : Calendar} {m : Model} {bound : List BoundRows} {o o' : Orders}
  (hm : ∀ k x, m.items.get? k = some x → x.id = k) (ho : o.Valid m) (ho' : o'.Valid m)
include hm ho ho'

theorem items_congr :
    ((o.walk (interned o m bound)).foldl ItemInterner.registerItem m).items =
      ((o'.walk (interned o' m bound)).foldl ItemInterner.registerItem m).items := by
  ext1 k
  apply Option.ext
  intro x
  rw [get?_items_walk (minting_interned hm ho bound) (ho.walk _),
    get?_items_walk (minting_interned hm ho' bound) (ho'.walk _)]
  have hsame : m.items.get? k = none →
      ((interned o m bound).map.find x.category x.name = some k ↔
        (interned o' m bound).map.find x.category x.name = some k) := by
    intro hnone
    have hnot : ∀ {q : Orders}, q.Valid m → (interned q m bound).map.find x.category x.name =
        some k → ∀ j, ¬Bears m x.category x.name j := by
      intro q hq hfind
      apply ((minting_interned hm hq bound).sound _ _ _ hfind).resolve_left _ |>.2
      rintro ⟨y, hy, -⟩
      rw [hnone] at hy
      cases hy
    constructor
    · intro hfind
      unfold interned
      rw [find_internAll_seededIn hm ho'.seed ho.seed _ (hnot ho hfind)]
      exact hfind
    · intro hfind
      unfold interned
      rw [find_internAll_seededIn hm ho.seed ho'.seed _ (hnot ho' hfind)]
      exact hfind
  constructor
  · rintro (hold | ⟨hnone, hid, hfind⟩)
    · exact .inl hold
    · exact .inr ⟨hnone, hid, (hsame hnone).mp hfind⟩
  · rintro (hold | ⟨hnone, hid, hfind⟩)
    · exact .inl hold
    · exact .inr ⟨hnone, hid, (hsame hnone).mpr hfind⟩

theorem categories_congr (hfree : ListsFree m bound) :
    ((o.walk (interned o m bound)).foldl ItemInterner.registerItem m).categories =
      ((o'.walk (interned o' m bound)).foldl ItemInterner.registerItem m).categories := by
  ext1 c
  cases hx : m.categories.get? c with
  | none => rw [get?_categories_foldl_none hx, get?_categories_foldl_none hx]
  | some x =>
      have hnodup := (minting_interned hm ho bound).nodup (ho.walk _) c
      have hnodup' := (minting_interned hm ho' bound).nodup (ho'.walk _) c
      have hsub : ∀ {q : Orders} (_ : q.Valid m) {i : ItemId},
          i ∈ unlisted c x (q.walk (interned q m bound)) → i ∉ x.items ∧
            ∃ n, Means m bound c n i := by
        intro q hq i hi
        obtain ⟨hin, n, hfind⟩ := (mem_unlisted (hq.walk _)).mp hi
        exact ⟨hin, n, means_of_find hm hq hfind⟩
      have hto : ∀ {q q' : Orders} (_ : q.Valid m) (_ : q'.Valid m) {i : ItemId},
          i ∈ unlisted c x (q.walk (interned q m bound)) →
            i ∈ unlisted c x (q'.walk (interned q' m bound)) := by
        intro q q' hq hq' i hi
        obtain ⟨hin, n, hmeans⟩ := hsub hq hi
        exact (mem_unlisted (hq'.walk _)).mpr
          ⟨hin, n, find_of_means hm hq' hmeans (hfree c x hx n i hmeans hin).1⟩
      rw [get?_categories_foldl hnodup hx, get?_categories_foldl hnodup' hx,
        eq_of_le_one (nodup_unlisted x hnodup) (nodup_unlisted x hnodup')
          (fun i => ⟨hto ho ho', hto ho' ho⟩) fun i hi j hj => ?_]
      obtain ⟨hin, n, hmeans⟩ := hsub ho hi
      obtain ⟨hjn, n', hmeans'⟩ := hsub ho hj
      exact ((hfree c x hx n i hmeans hin).2 n' j hmeans' hjn).symm

/-- A cell of the load in one order is one in any other. -/
theorem shown_congr (hshape : InShape m bound) (hclean : Clean cal m bound)
    (hfree : CellsFree cal m bound) {k : Cell} {v : Value}
    (h : Shown cal m bound (interned o m bound).map k v) :
    Shown cal m bound (interned o' m bound).map k v := by
  have hone : ∀ e ∈ entries cal m bound, ∀ e' ∈ entries cal m bound,
      ∀ {k : Cell}, k = ⟨e.1.1, k.coord⟩ → k = ⟨e'.1.1, k.coord⟩ →
      Candidate m bound e.1.2 k.coord → Candidate m bound e'.1.2 k.coord → e = e' := by
    intro e he e' he' k hk hk' hcand hcand'
    have hkeys : e.1 = e'.1 := Prod.ext (by rw [hk] at hk'; exact (Cell.mk.inj hk').1)
      (hcand.eq hm hcand')
    exact List.inj_on_of_nodup_map hclean.2 he he' hkeys
  have hland : ∀ {q : Orders}, q.Valid m → ∀ e ∈ entries cal m bound,
      Candidate m bound e.1.2 (cellAt (interned q m bound).map e).1.coord :=
    fun hq e he => candidate_place hm hq hshape he
  by_cases hin' : k ∈ ((entries cal m bound).map (cellAt (interned o' m bound).map)).map Prod.fst
  · obtain ⟨p, hp, rfl⟩ := List.mem_map.mp hin'
    obtain ⟨e', he', rfl⟩ := List.mem_map.mp hp
    suffices hv : v = e'.2 by
      rw [hv]
      exact .inl (List.mem_map_of_mem he')
    rcases h with hmem | ⟨hnot, hold⟩
    · obtain ⟨e, he, heq⟩ := List.mem_map.mp hmem
      have hcell := congrArg Prod.fst heq
      have hcand := hland ho e he
      rw [hcell] at hcand
      have hmeasure : (cellAt (interned o' m bound).map e').1 =
          ⟨e.1.1, (cellAt (interned o' m bound).map e').1.coord⟩ := by
        rw [← hcell]
        rfl
      have hsame := hone e he e' he' hmeasure rfl hcand (hland ho' e' he')
      rw [← hsame]
      exact (congrArg Prod.snd heq).symm
    · rcases hfree e' he' with huniq | hheld
      · apply absurd _ hnot
        have hplace := place_congr hm ho ho' hshape he' huniq
        have hcell : (cellAt (interned o' m bound).map e').1 =
            (cellAt (interned o m bound).map e').1 := by
          unfold cellAt
          rw [hplace]
        rw [hcell]
        exact List.mem_map_of_mem (List.mem_map_of_mem he')
      · have hhere := hheld _ (hland ho' e' he')
        change m.inputs.get? (cellAt (interned o' m bound).map e').1 = _ at hhere
        rw [hold, Option.some.injEq] at hhere
        exact hhere
  · refine .inr ⟨hin', ?_⟩
    rcases h with hmem | ⟨-, hold⟩
    · obtain ⟨e, he, heq⟩ := List.mem_map.mp hmem
      rcases hfree e he with huniq | hheld
      · apply absurd _ hin'
        have hplace := place_congr hm ho ho' hshape he huniq
        have hk : (cellAt (interned o m bound).map e).1 = k := congrArg Prod.fst heq
        have hcell : k = (cellAt (interned o' m bound).map e).1 := by
          rw [← hk]
          unfold cellAt
          rw [hplace]
        rw [hcell]
        exact List.mem_map_of_mem (List.mem_map_of_mem he)
      · have hhere := hheld _ (hland ho e he)
        change m.inputs.get? (cellAt (interned o m bound).map e).1 = _ at hhere
        have hv : e.2 = v := congrArg Prod.snd heq
        rw [heq, hv] at hhere
        exact hhere
    · exact hold

end Same

/-! ## Loads of free names -/

/-- The orders in which everything is walked by its key. -/
def inOrder (m : Model) : Orders := ⟨m.items.values, ItemInterner.pairs⟩

theorem valid_inOrder (m : Model) : (inOrder m).Valid m := ⟨.refl _, walk_pairs⟩

section Free

variable {cal : Calendar} {m : Model} {bound bound' : List BoundRows}

theorem Reordered.namesIn_eq (h : Reordered bound bound') (hshape : InShape m bound) :
    namesIn m bound' = namesIn m bound :=
  (namesIn_congr hshape (h.inShape_iff.mp hshape) fun _ _ => h.uses_iff).symm

theorem Reordered.interned_eq (h : Reordered bound bound') (hshape : InShape m bound)
    (o : Orders) : interned o m bound' = interned o m bound := by
  unfold interned
  rw [h.namesIn_eq hshape]

theorem Reordered.shown_iff (h : Reordered bound bound') {items : Items} {k : Cell} {v : Value} :
    Shown cal m bound' items k v ↔ Shown cal m bound items k v := by
  have hperm := (@Reordered.entries_perm bound bound' m cal h).map (cellAt items)
  unfold Shown
  rw [hperm.mem_iff, (hperm.map Prod.fst).mem_iff]

variable (hm : ∀ k x, m.items.get? k = some x → x.id = k)
include hm

/-- A load of clean rows in some order of the data. -/
theorem run_reordered {o : Orders} (ho : o.Valid m) (hshape : InShape m bound)
    (hfits : StorageSql.Fits (seededIn m.items.values 1) (namesIn m bound))
    (hclean : Clean cal m bound) (h : Reordered bound bound') :
    ∃ inputs, modelAfter m (loadInputsIn o cal m bound') = some
        { (o.walk (interned o m bound)).foldl ItemInterner.registerItem m with inputs := inputs } ∧
      ∀ k v, inputs.get? k = some v ↔ Shown cal m bound (interned o m bound).map k v := by
  have hfits' : StorageSql.Fits (seededIn o.seed 1) (namesIn m bound') := by
    rw [h.namesIn_eq hshape, fits_seededIn hm ho.seed (.refl _)]
    exact hfits
  rcases @loadInputsIn_of_fits cal _ _ _ hm ho (h.inShape_iff.mp hshape) hfits' with
    ⟨hnot, -⟩ | ⟨-, inputs, l, hok, -, -, -, hinputs⟩
  · exact absurd (h.clean_iff.mp hclean) hnot
  · rw [h.interned_eq hshape] at hok hinputs
    refine ⟨inputs, ?_, fun k v => ?_⟩
    · rw [hok]
      rfl
    · rw [hinputs, h.shown_iff]

/-- Where nothing is left to the order, every load leaves the same model. -/
theorem modelAfter_of_orderFree (hfree : OrderFree cal m bound) :
    ∃ m', ∀ o bound', o.Valid m → Reordered bound bound' →
      modelAfter m (loadInputsIn o cal m bound') = some m' := by
  by_cases hshape : InShape m bound
  · obtain ⟨hfits, hrest⟩ := hfree hshape
    by_cases hclean : Clean cal m bound
    · obtain ⟨hlists, hcells⟩ := hrest hclean
      have hcanonical := valid_inOrder m
      obtain ⟨inputs, -, hinputs⟩ :=
        run_reordered hm hcanonical hshape hfits hclean (.refl bound)
      refine ⟨{ ((inOrder m).walk (interned (inOrder m) m bound)).foldl
        ItemInterner.registerItem m with inputs := inputs }, fun o bound' ho h => ?_⟩
      obtain ⟨inputs', hrun, hinputs'⟩ := run_reordered hm ho hshape hfits hclean h
      have hsame : inputs' = inputs := by
        ext1 k
        apply Option.ext
        intro v
        rw [hinputs, hinputs']
        exact ⟨shown_congr hm ho hcanonical hshape hclean hcells,
          shown_congr hm hcanonical ho hshape hclean hcells⟩
      have hmodel : (o.walk (interned o m bound)).foldl ItemInterner.registerItem m =
          ((inOrder m).walk (interned (inOrder m) m bound)).foldl ItemInterner.registerItem m := by
        rw [foldl_registerItem_frame, items_congr hm ho hcanonical,
          categories_congr hm ho hcanonical hlists, ← foldl_registerItem_frame]
      rw [hrun, hsame, hmodel]
    · refine ⟨m, fun o bound' ho h => ?_⟩
      have hfits' : StorageSql.Fits (seededIn o.seed 1) (namesIn m bound') := by
        rw [h.namesIn_eq hshape, fits_seededIn hm ho.seed (.refl _)]
        exact hfits
      rcases @loadInputsIn_of_fits cal _ _ _ hm ho (h.inShape_iff.mp hshape) hfits' with
        ⟨-, e, he⟩ | ⟨hclean', -⟩
      · rw [he]
        rfl
      · exact absurd (h.clean_iff.mpr hclean') hclean
  · refine ⟨m, fun o bound' _ h => ?_⟩
    obtain ⟨e, he⟩ := @loadInputsIn_of_not_inShape cal m bound' o fun hshape' =>
      hshape (h.inShape_iff.mpr hshape')
    rw [he]
    rfl

end Free

/-! ## Names left to the order -/

section Left

variable {cal : Calendar} {m : Model} {bound : List BoundRows}

/-- A list of different members that reads the same backwards has one at most. -/
theorem eq_of_eq_reverse {α : Type} {l : List α} (hl : l.Nodup) (h : l = l.reverse) :
    ∀ a ∈ l, ∀ b ∈ l, a = b := by
  cases l with
  | nil => exact fun a ha => absurd ha List.not_mem_nil
  | cons a t =>
      rw [List.reverse_cons] at h
      cases ht : t.reverse with
      | nil =>
          rw [List.reverse_eq_nil_iff] at ht
          subst ht
          intro x hx y hy
          rw [List.mem_singleton.mp hx, List.mem_singleton.mp hy]
      | cons b u =>
          rw [ht, List.cons_append, List.cons.injEq] at h
          have hmem : b ∈ t := by
            rw [← List.mem_reverse, ht]
            exact List.mem_cons_self
          rw [List.nodup_cons, h.1] at hl
          exact absurd hmem hl.1

theorem means_unique_of_not_bears {c : CategoryId} {n : String} {i j : ItemId}
    (hi : Means m bound c n i) (hj : Means m bound c n j)
    (hnot : ¬(Bears m c n i ∧ Bears m c n j)) : j = i := by
  rcases hi with hbi | ⟨hni, hfi⟩
  · rcases hj with hbj | ⟨hnj, -⟩
    · exact absurd ⟨hbi, hbj⟩ hnot
    · exact absurd hbi (hnj i)
  · rcases hj with hbj | ⟨-, hfj⟩
    · exact absurd hbj (hni j)
    · rw [hfi, Option.some.injEq] at hfj
      exact hfj.symm

variable (hm : ∀ k x, m.items.get? k = some x → x.id = k)
include hm

/-- Some orders find one name as any item that bears it, and others as they may. -/
theorem exists_orders {pick : CategoryId → String → ItemId} :
    ∃ o : Orders, o.Valid m ∧ ∀ c n i, Bears m c n i → Bears m c n (pick c n) →
      (interned o m bound).map.find c n = some (pick c n) := by
  classical
  let pick' : CategoryId → String → ItemId := fun c n =>
    if Bears m c n (pick c n) then pick c n
    else ((seededIn m.items.values 1).map.find c n).getD ⟨0⟩
  have hpick : ∀ c n i, Bears m c n i → Bears m c n (pick' c n) := by
    intro c n i hi
    by_cases hb : Bears m c n (pick c n)
    · simp only [pick', if_pos hb]
      exact hb
    · simp only [pick', if_neg hb]
      obtain ⟨j, hj⟩ := exists_find (.refl _) hi 1
      rw [hj]
      exact bears_of_find hm (.refl _) hj
  obtain ⟨s, hs, hfind⟩ := exists_seed hm hpick
  refine ⟨⟨s, ItemInterner.pairs⟩, ⟨hs, walk_pairs⟩, fun c n i hi hb => ?_⟩
  apply extends_internAll
  have hfound := hfind c n i hi
  simp only [pick', if_pos hb] at hfound
  exact hfound

variable (hshape : InShape m bound)
  (hfits : StorageSql.Fits (seededIn m.items.values 1) (namesIn m bound))
  (hclean : Clean cal m bound)
  (hsame : ∃ m', ∀ o bound', o.Valid m → Reordered bound bound' →
    modelAfter m (loadInputsIn o cal m bound') = some m')
include hshape hfits hclean hsame

/-- Loads that leave one model list the same items and show the same cells. -/
theorem runs_agree {o o' : Orders} (ho : o.Valid m) (ho' : o'.Valid m) :
    ((o.walk (interned o m bound)).foldl ItemInterner.registerItem m).categories =
        ((o'.walk (interned o' m bound)).foldl ItemInterner.registerItem m).categories ∧
      ∀ k v, Shown cal m bound (interned o m bound).map k v ↔
        Shown cal m bound (interned o' m bound).map k v := by
  obtain ⟨m', hm'⟩ := hsame
  obtain ⟨inputs, hrun, hinputs⟩ := run_reordered hm ho hshape hfits hclean (.refl bound)
  obtain ⟨inputs', hrun', hinputs'⟩ := run_reordered hm ho' hshape hfits hclean (.refl bound)
  rw [hm' o bound ho (.refl bound), Option.some.injEq] at hrun
  rw [hm' o' bound ho' (.refl bound), Option.some.injEq] at hrun'
  have heq := hrun.symm.trans hrun'
  have hcategories := congrArg Model.categories heq
  have hins : inputs = inputs' := congrArg Model.inputs heq
  refine ⟨hcategories, fun k v => ?_⟩
  rw [← hinputs, ← hinputs', hins]

/-- An item that is not listed is the only one its name can mean. -/
theorem means_unique_of_same {c : CategoryId} {x : Category} (hx : m.categories.get? c = some x)
    {n : String} {i j : ItemId} (hi : Means m bound c n i) (hin : i ∉ x.items)
    (hj : Means m bound c n j) : j = i := by
  by_contra hne
  obtain ⟨hbi, hbj⟩ : Bears m c n i ∧ Bears m c n j := by
    by_contra hnot
    exact hne (means_unique_of_not_bears hi hj hnot)
  obtain ⟨o, ho, hfind⟩ := @exists_orders m bound hm fun _ _ => i
  obtain ⟨o', ho', hfind'⟩ := @exists_orders m bound hm fun _ _ => j
  have hlist := get?_categories_foldl ((minting_interned hm ho bound).nodup (ho.walk _) c) hx
  have hlist' := get?_categories_foldl ((minting_interned hm ho' bound).nodup (ho'.walk _) c) hx
  rw [(runs_agree hm hshape hfits hclean hsame ho ho').1, hlist'] at hlist
  have hlists := List.append_cancel_left (congrArg Category.items (Option.some.inj hlist.symm))
  have hmem : i ∈ unlisted c x (o.walk (interned o m bound)) :=
    (mem_unlisted (ho.walk _)).mpr ⟨hin, n, hfind c n i hbi hbi⟩
  rw [hlists] at hmem
  obtain ⟨-, n', hn'⟩ := (mem_unlisted (ho'.walk _)).mp hmem
  have hname := (hi.eq hm (means_of_find hm ho' hn')).2
  rw [← hname, hfind' c n i hbi hbj, Option.some.injEq] at hn'
  exact hne hn'

theorem listsFree_of_same : ListsFree m bound := by
  intro c x hx n i hi hin
  have hone : ∀ {n i}, Means m bound c n i → i ∉ x.items → ∀ j, Means m bound c n j → j = i :=
    fun hi hin j hj => means_unique_of_same hm hshape hfits hclean hsame hx hi hin hj
  refine ⟨hone hi hin, fun n' i' hi' hin' => ?_⟩
  have ho := valid_inOrder m
  have ho' : (⟨m.items.values, backwards⟩ : Orders).Valid m := ⟨.refl _, walk_backwards⟩
  have hnodup := (minting_interned hm ho bound).nodup (ho.walk _) c
  have hlist := get?_categories_foldl hnodup hx
  have hlist' := get?_categories_foldl ((minting_interned hm ho' bound).nodup (ho'.walk _) c) hx
  rw [(runs_agree hm hshape hfits hclean hsame ho ho').1, hlist'] at hlist
  have hlists := List.append_cancel_left (congrArg Category.items (Option.some.inj hlist.symm))
  have hreverse : unlisted c x (backwards (interned (inOrder m) m bound)) =
      (unlisted c x (interned (inOrder m) m bound).pairs).reverse := by
    unfold unlisted
    rw [filter_backwards _ c fun k => !x.items.contains k, List.map_reverse]
  have hmem : ∀ {n i}, Means m bound c n i → i ∉ x.items →
      i ∈ unlisted c x (interned (inOrder m) m bound).pairs := fun hi hin =>
    (mem_unlisted (walk_pairs _)).mpr ⟨hin, _, find_of_means hm ho hi (hone hi hin)⟩
  exact eq_of_eq_reverse (nodup_unlisted x hnodup) (hlists.trans hreverse) _ (hmem hi' hin') _
    (hmem hi hin)

theorem cellsFree_of_same : CellsFree cal m bound := by
  intro e he
  by_contra hnot
  rw [not_or] at hnot
  simp only [not_forall] at hnot
  obtain ⟨⟨c, n, i, j, hn, hi, hj, hij⟩, k, hk, hinputs⟩ := hnot
  obtain ⟨hbi, hbj⟩ : Bears m c n i ∧ Bears m c n j := by
    by_contra hnot
    exact hij (means_unique_of_not_bears hi hj hnot).symm
  obtain ⟨a, ha, hmeans⟩ := (hk c).2 n hn
  obtain ⟨b, hb, hba⟩ : ∃ b, Bears m c n b ∧ b ≠ a := by
    by_cases hia : i = a
    · exact ⟨j, hbj, fun hja => hij (hia.trans hja.symm)⟩
    · exact ⟨i, hbi, hia⟩
  -- one order places the row at `k`, another elsewhere
  obtain ⟨o, ho, hfind⟩ := @exists_orders m bound hm fun c _ => (k.get? c).getD ⟨0⟩
  obtain ⟨o', ho', hfind'⟩ := @exists_orders m bound hm fun _ _ => b
  have hplace : place (interned o m bound).map e.1.2 = k := by
    ext1 d
    rw [get?_place]
    cases hd : e.1.2.get? d with
    | none => rw [Option.map_none, (hk d).1 hd]
    | some l =>
        obtain ⟨y, hy, hmean⟩ := (hk d).2 l hd
        have hfound : (interned o m bound).map.find d l = some y := by
          rcases hmean with hbears | ⟨hnone, hminted⟩
          · have hpick := hfind d l y hbears
            rw [hy, Option.getD_some] at hpick
            exact hpick hbears
          · unfold interned
            rw [find_internAll_seededIn hm ho.seed (.refl _) _ hnone]
            exact hminted
        rw [Option.map_some, hfound, Option.getD_some, hy]
  have hshown : Shown cal m bound (interned o m bound).map ⟨e.1.1, k⟩ e.2 := by
    refine .inl (List.mem_map.mpr ⟨e, he, ?_⟩)
    unfold cellAt
    rw [hplace]
  rcases ((runs_agree hm hshape hfits hclean hsame ho ho').2 _ _).mp hshown with
    hmem | ⟨-, hold⟩
  · obtain ⟨e', he', heq⟩ := List.mem_map.mp hmem
    have hcell : (cellAt (interned o' m bound).map e').1 = ⟨e.1.1, k⟩ := congrArg Prod.fst heq
    have hk' : place (interned o' m bound).map e'.1.2 = k := (Cell.mk.inj hcell).2
    have hcand := candidate_place hm ho' hshape he'
    rw [hk'] at hcand
    rw [hcand.eq hm hk] at hk'
    have hget := congrArg (fun k => k.get? c) hk'
    simp only [get?_place, hn, Option.map_some, hfind' c n i hbi hb, Option.getD_some, ha,
      Option.some.injEq] at hget
    exact hba hget
  · exact hinputs hold

end Left

/-! ## Loads as functions -/

/-- A load is a function of the data: one model for every order, a load that
returns refuses or places the rows, and one whose unknown names are minted first
mints nothing. -/
structure FunctionOfData (cal : Calendar) (m : Model) (bound : List BoundRows) : Prop where
  same : ∃ m', ∀ o bound', o.Valid m → Reordered bound bound' →
    modelAfter m (loadInputsIn o cal m bound') = some m'
  runs : ∀ o bound' out, o.Valid m → Reordered bound bound' →
    loadInputsIn o cal m bound' = some out → Outcome cal m bound' out
  first : ∀ o bound' minted, MintedFirst m bound' minted → Reordered bound bound' →
    o.Valid (withItems m minted) →
    ∃ out, loadInputsIn o cal (withItems m minted) bound' = some out ∧
      Outcome cal (withItems m minted) bound' out ∧
      ∀ m' l, out = .ok (m', l) → l.newItems = [] ∧ m'.items = (withItems m minted).items

/-- A load that walks everything by its key is the load of bound rows, where the
ids suffice. -/
theorem loadInputsIn_inOrder (cal : Calendar) {m : Model} {bound : List BoundRows}
    (hfits : StorageSql.Fits (seededIn m.items.values 1) (namesIn m bound)) :
    loadInputsIn (inOrder m) cal m bound = some (loadInputs cal m bound) := by
  unfold loadInputsIn loadInputs
  unfold namesIn at hfits
  cases hshape : shape m bound with
  | error e => rfl
  | ok s =>
      rw [hshape] at hfits
      have hintern : internNames (seededIn (inOrder m).seed 1) (usedNames s.2) =
          some (s.2.keys.foldl (fun it k => (it.intern (ofLex k).1 (ofLex k).2).1)
            (ItemInterner.seededFrom m 1)) := by
        change internNames (seededIn m.items.values 1) (usedNames s.2) = _
        rw [internNames_eq, if_pos hfits]
        unfold internAll usedNames
        rw [List.foldl_map]
        rfl
      simp only [hintern, bind, Except.bind]
      cases loadCells cal (s.2.keys.foldl (fun it k => (it.intern (ofLex k).1 (ofLex k).2).1)
        (ItemInterner.seededFrom m 1)) s.1 with
      | error e => rfl
      | ok cells => rfl

/-- A load is a function of the data exactly when it leaves nothing to the order
of its walks and its ids do not run out. -/
theorem load_function_iff (cal : Calendar) (m : Model) (bound : List BoundRows)
    (hm : ∀ k x, m.items.get? k = some x → x.id = k) :
    FunctionOfData cal m bound ↔ OrderFree cal m bound := by
  constructor
  · intro h hshape
    have hfits : StorageSql.Fits (seededIn m.items.values 1) (namesIn m bound) := by
      by_contra hnot
      obtain ⟨m', hm'⟩ := h.same
      have hrun := hm' (inOrder m) bound (valid_inOrder m) (.refl bound)
      rw [loadInputsIn_of_not_fits hshape hnot] at hrun
      cases hrun
    exact ⟨hfits, fun hclean => ⟨listsFree_of_same hm hshape hfits hclean h.same,
      cellsFree_of_same hm hshape hfits hclean h.same⟩⟩
  · intro h
    exact ⟨modelAfter_of_orderFree hm h, fun o bound' out ho _ hrun => outcome_of_run hm ho hrun,
      fun o bound' minted hminted _ ho => load_withItems hm hminted ho⟩

/-- A model of regions and their sales, without a region. -/
def noRegions : Model :=
  (Model.new.addCategory ⟨1⟩ "Region").addMeasure ⟨⟨1⟩, "Sales", .number, [⟨1⟩], .input, none, none⟩

/-- Rows of some regions, each with sales of zero. -/
def salesOf (regions : List String) : List BoundRows :=
  [⟨1, regions.map fun r => ([some r], some (.num 0))⟩]

theorem load_function_north : FunctionOfData noCalendar noRegions (salesOf ["North"]) := by
  apply (load_function_iff noCalendar noRegions (salesOf ["North"]) fun k x hx => by cases hx).mpr
  intro _
  have hnames : namesIn noRegions (salesOf ["North"]) = [(⟨1⟩, "North")] := by decide +kernel
  have hmeans : ∀ c n i, Means noRegions (salesOf ["North"]) c n i → i = ⟨1⟩ := by
    rintro c n i (⟨x, hx, -⟩ | ⟨-, hfind⟩)
    · cases hx
    · rw [hnames] at hfind
      change (Items.add .empty ⟨1⟩ "North" ⟨1⟩).find c n = some i at hfind
      rw [Items.find_add] at hfind
      split at hfind
      · exact (Option.some.inj hfind).symm
      · cases hfind
  refine ⟨by rw [hnames]; decide, fun _ => ⟨fun c x _ n i hi _ => ?_, fun e _ => .inl ?_⟩⟩
  · exact ⟨fun j hj => (hmeans c n j hj).trans (hmeans c n i hi).symm,
      fun n' i' hi' _ => (hmeans c n' i' hi').trans (hmeans c n i hi).symm⟩
  · exact fun c n i j _ hi hj => (hmeans c n i hi).trans (hmeans c n j hj).symm

/-- Two new regions are listed as the interner's map is walked. -/
theorem two_regions_by_order :
    ¬FunctionOfData noCalendar noRegions (salesOf ["North", "South"]) := by
  intro h
  obtain ⟨m', hm'⟩ := h.same
  have hrun := hm' (inOrder noRegions) _ (valid_inOrder noRegions) (.refl _)
  have hrun' := hm' ⟨noRegions.items.values, backwards⟩ _ ⟨.refl _, walk_backwards⟩ (.refl _)
  rw [← hrun] at hrun'
  revert hrun'
  decide +kernel

end Improv.PgModel
