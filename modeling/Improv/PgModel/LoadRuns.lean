import Improv.PgModel.LoadedItems
import Improv.PgModel.LoadEntries
/-!
# A load in some order

A load whose walks go in given orders, the ids of the items bounded, and what
such a load does whatever the orders are: the model's items keep their ids and
places, a new id is above them and names one item, and the cells are those of
the rows.
-/

namespace Improv.PgModel

open Improv.Lib Improv.CoreModel Improv.Engine
open Improv.StorageSql (Named intern internAll intern_eq fits_append find_internAll
  mem_of_find_internAll extends_internAll items_foldl_registerItem)

/-! ## Loading -/

/-- The names a shape collected, in their order. -/
def usedNames (d : Distinct) : List Named := d.keys.map fun k => ((ofLex k).1, (ofLex k).2)

/-- Names interned in turn; minting the last id there is panics. -/
def internNames (it : ItemInterner) (ps : List Named) : Option ItemInterner :=
  ps.foldlM (fun it p => (intern it p.1 p.2).map Prod.fst) it

/-- Bound rows as input cells of a model, by walks in some order; none where the
load panics. -/
def loadInputsIn (o : Orders) (cal : Calendar) (m : Model) (bound : List BoundRows) :
    Option (Except LoadError (Model × Loaded)) :=
  match shape m bound with
  | .error e => some (.error e)
  | .ok (shaped, distinct) =>
    match internNames (seededIn o.seed 1) (usedNames distinct) with
    | none => none
    | some it =>
      match loadCells cal it shaped with
      | .error e => some (.error e)
      | .ok (cells, nullDimRows) =>
        let registered := (o.walk it).foldl ItemInterner.registerItem m
        let newItems := (registered.items.filter fun k _ => !m.items.contains k).values
        some (.ok ({ registered with
          inputs := cells.entries.foldl (fun ins p => ins.insert p.1 p.2) m.inputs },
          ⟨newItems, cells.size, nullDimRows⟩))

/-- The model after a load: an error leaves it as it was. -/
def modelAfter (m : Model) : Option (Except LoadError (Model × Loaded)) → Option Model
  | none => none
  | some (.error _) => some m
  | some (.ok (m', _)) => some m'

/-- The names of the rows that no item of the model bears, in their order. -/
def unknownItems (m : Model) (bound : List BoundRows) : Except LoadError (List Named) :=
  (shape m bound).map fun s =>
    (usedNames s.2).filter fun p => !m.items.values.any (Items.named p.1 p.2)

theorem internNames_eq (it : ItemInterner) (ps : List Named) :
    internNames it ps = if StorageSql.Fits it ps then some (internAll it ps) else none := by
  induction ps generalizing it with
  | nil => exact (if_pos (le_max_right _ _)).symm
  | cons p ps ih =>
      have hsplit : StorageSql.Fits it (p :: ps) ↔
          StorageSql.Fits it [p] ∧ StorageSql.Fits (it.intern p.1 p.2).1 ps :=
        @fits_append it [p] ps
      unfold internNames
      rw [List.foldlM_cons, intern_eq]
      by_cases hp : StorageSql.Fits it [p]
      · rw [if_pos hp]
        change internNames (it.intern p.1 p.2).1 ps = _
        rw [ih]
        by_cases hps : StorageSql.Fits (it.intern p.1 p.2).1 ps
        · rw [if_pos hps, if_pos (hsplit.mpr ⟨hp, hps⟩)]
          rfl
        · rw [if_neg hps, if_neg fun hall => hps (hsplit.mp hall).2]
      · rw [if_neg hp, if_neg fun hall => hp (hsplit.mp hall).1]
        rfl

/-! ## The names of the rows -/

/-- The names some rows use, none where they are out of shape. -/
def namesIn (m : Model) (bound : List BoundRows) : List Named :=
  match shape m bound with
  | .ok (_, d) => usedNames d
  | .error _ => []

section Names

variable {m : Model} {bound bound' : List BoundRows}

theorem mem_namesIn (h : InShape m bound) {c : CategoryId} {n : String} :
    (c, n) ∈ namesIn m bound ↔ Uses m bound c n := by
  obtain ⟨⟨shaped, d⟩, hd⟩ := shape_isOk_iff.mpr h
  have hkeys := mem_shape_keys hd (toLex (c, n))
  unfold namesIn usedNames
  rw [hd]
  simp only [List.mem_map]
  constructor
  · rintro ⟨k, hk, heq⟩
    have hkey : k = toLex (c, n) := by
      rw [← heq]
      rfl
    rw [hkey] at hk
    rcases hkeys.mp hk with hempty | huse
    · cases hempty
    · exact huse
  · intro huse
    exact ⟨toLex (c, n), hkeys.mpr (.inr huse), rfl⟩

/-- The names used are collected alike for every order of the data. -/
theorem namesIn_congr (h : InShape m bound) (h' : InShape m bound')
    (huses : ∀ c n, Uses m bound c n ↔ Uses m bound' c n) :
    namesIn m bound = namesIn m bound' := by
  obtain ⟨⟨shaped, d⟩, hd⟩ := shape_isOk_iff.mpr h
  obtain ⟨⟨shaped', d'⟩, hd'⟩ := shape_isOk_iff.mpr h'
  have hsame : d = d' := by
    ext1 k
    have hkey : k ∈ d.keys ↔ k ∈ d'.keys := by
      rw [mem_shape_keys hd, mem_shape_keys hd', huses]
    rw [SortedMap.mem_keys_iff, SortedMap.mem_keys_iff, SortedMap.contains,
      SortedMap.contains] at hkey
    cases hget : d.get? k with
    | none =>
        cases hget' : d'.get? k with
        | none => rfl
        | some u =>
            rw [hget, hget'] at hkey
            exact absurd (hkey.mpr rfl) (by simp)
    | some u =>
        cases hget' : d'.get? k with
        | none =>
            rw [hget, hget'] at hkey
            exact absurd (hkey.mp rfl) (by simp)
        | some u' => rfl
  unfold namesIn
  rw [hd, hd', hsame]

end Names

/-! ## What a load does -/

/-- A cell after a load whose names are found as some items: a row's, or one that
was there and no row's. -/
def Shown (cal : Calendar) (m : Model) (bound : List BoundRows) (items : Items) (k : Cell)
    (v : Value) : Prop :=
  (k, v) ∈ (entries cal m bound).map (cellAt items) ∨
    k ∉ ((entries cal m bound).map (cellAt items)).map Prod.fst ∧ m.inputs.get? k = some v

/-- What a load that is not refused does to the model. -/
structure Placed (cal : Calendar) (m : Model) (bound : List BoundRows) (m' : Model)
    (l : Loaded) : Prop where
  kept : ∀ k x, m.items.get? k = some x → m'.items.get? k = some x
  places : ∀ c x, m.categories.get? c = some x →
    ∃ new, m'.categories.get? c = some { x with items := x.items ++ new }
  minted : ∀ k x, m'.items.get? k = some x → m.items.get? k = none →
    x.id = k ∧ ItemInterner.maxId m < k.id ∧ Uses m bound x.category x.name ∧
      ∀ j, Bears m' x.category x.name j → j = k
  cells : ∃ items : Items, (∀ c n i, items.find c n = some i → Bears m' c n i) ∧
    (∀ c n, Uses m bound c n → ∃ i, items.find c n = some i) ∧
    (((entries cal m bound).map (cellAt items)).map Prod.fst).Nodup ∧
    l.cells = (entries cal m bound).length ∧
    ∀ k v, m'.inputs.get? k = some v ↔ Shown cal m bound items k v

/-- What a load comes to: an error exactly for rows out of shape, with a value no
cell can hold, or with two values at one coordinate. -/
def Outcome (cal : Calendar) (m : Model) (bound : List BoundRows) :
    Except LoadError (Model × Loaded) → Prop
  | .error _ => ¬(InShape m bound ∧ Clean cal m bound)
  | .ok (m', l) => InShape m bound ∧ Clean cal m bound ∧ Placed cal m bound m' l

section Runs

variable {cal : Calendar} {m : Model} {bound : List BoundRows} {o : Orders}

/-- The interner of a load. -/
def interned (o : Orders) (m : Model) (bound : List BoundRows) : ItemInterner :=
  internAll (seededIn o.seed 1) (namesIn m bound)

theorem minting_interned (hm : ∀ k x, m.items.get? k = some x → x.id = k) (ho : o.Valid m)
    (bound : List BoundRows) : Minting m (interned o m bound) :=
  (Minting.seeded hm ho.seed).internAll _

/-- A load of rows out of shape. -/
theorem loadInputsIn_of_not_inShape (h : ¬InShape m bound) :
    ∃ e, loadInputsIn o cal m bound = some (.error e) := by
  unfold loadInputsIn
  cases hshape : shape m bound with
  | error e => exact ⟨e, rfl⟩
  | ok s => exact absurd (shape_isOk_iff.mp ⟨s, hshape⟩) h

theorem loadInputsIn_of_not_fits (h : InShape m bound)
    (hfits : ¬StorageSql.Fits (seededIn o.seed 1) (namesIn m bound)) :
    loadInputsIn o cal m bound = none := by
  obtain ⟨⟨shaped, d⟩, hd⟩ := shape_isOk_iff.mpr h
  unfold namesIn at hfits
  rw [hd] at hfits
  unfold loadInputsIn
  rw [hd]
  simp only [internNames_eq, if_neg hfits]

/-- A load of rows in shape whose names the ids suffice for. -/
theorem loadInputsIn_of_fits (hm : ∀ k x, m.items.get? k = some x → x.id = k) (ho : o.Valid m)
    (h : InShape m bound) (hfits : StorageSql.Fits (seededIn o.seed 1) (namesIn m bound)) :
    (¬Clean cal m bound ∧ ∃ e, loadInputsIn o cal m bound = some (.error e)) ∨
    Clean cal m bound ∧ ∃ inputs l, loadInputsIn o cal m bound = some (.ok
        ({ (o.walk (interned o m bound)).foldl ItemInterner.registerItem m with
          inputs := inputs }, l)) ∧
      l.newItems = (((o.walk (interned o m bound)).foldl ItemInterner.registerItem
        m).items.filter fun k _ => !m.items.contains k).values ∧
      l.cells = (entries cal m bound).length ∧
      (((entries cal m bound).map (cellAt (interned o m bound).map)).map Prod.fst).Nodup ∧
      ∀ k v, inputs.get? k = some v ↔ Shown cal m bound (interned o m bound).map k v := by
  obtain ⟨⟨shaped, d⟩, hd⟩ := shape_isOk_iff.mpr h
  have hminting := minting_interned hm ho bound
  have hknown : ∀ c n, Uses m bound c n → ∃ i, (interned o m bound).map.find c n = some i :=
    fun c n huse => find_internAll ((mem_namesIn h).mpr huse)
  have hnames : usedNames d = namesIn m bound := by
    unfold namesIn
    rw [hd]
  have hspec := @loadCells_spec cal _ _ _ _ _ hd hknown fun c n n' i hn hn' =>
    (hminting.injective c n c n' i hn hn').2
  have hintern : internNames (seededIn o.seed 1) (usedNames d) = some (interned o m bound) := by
    rw [hnames, internNames_eq, if_pos hfits]
    rfl
  rcases hspec with ⟨hclean, cells, nulls, hload, hsize, hnodup, hcells⟩ | ⟨hclean, e, hload⟩
  · refine .inr ⟨hclean, cells.entries.foldl (fun ins p => ins.insert p.1 p.2) m.inputs,
      ⟨(((o.walk (interned o m bound)).foldl ItemInterner.registerItem m).items.filter
        fun k _ => !m.items.contains k).values, cells.size, nulls⟩, ?_, rfl, hsize,
      hnodup, fun k v => ?_⟩
    · unfold loadInputsIn
      simp only [hd, hintern, hload]
    have hkeys : k ∈ cells.entries.map (·.1) ↔
        k ∈ ((entries cal m bound).map (cellAt (interned o m bound).map)).map Prod.fst := by
      constructor
      · intro hk
        obtain ⟨⟨k', v'⟩, hmem, rfl⟩ := List.mem_map.mp hk
        exact List.mem_map_of_mem ((hcells k' v').mp (SortedMap.get?_eq_some_iff.mpr hmem))
      · intro hk
        obtain ⟨⟨k', v'⟩, hmem, rfl⟩ := List.mem_map.mp hk
        exact List.mem_map_of_mem (SortedMap.get?_eq_some_iff.mp ((hcells k' v').mpr hmem))
    unfold Shown
    rw [SortedMap.get?_foldl_insert cells.sorted, ← SortedMap.get?_eq_some_iff, hcells, hkeys]
  · refine .inl ⟨hclean, e, ?_⟩
    unfold loadInputsIn
    simp only [hd, hintern, hload]

/-- Where an interned name is found after a load: at an item that bears it. -/
theorem bears_foldl (hm : ∀ k x, m.items.get? k = some x → x.id = k) {it : ItemInterner}
    (hit : Minting m it) {ps : List (CategoryId × String × ItemId)} (hw : Walk it ps)
    {m' : Model} (hitems : m'.items = (ps.foldl ItemInterner.registerItem m).items)
    {c : CategoryId} {n : String} {i : ItemId} (hi : it.map.find c n = some i) :
    Bears m' c n i := by
  rcases hit.sound c n i hi with ⟨x, hx, hcat, hname⟩ | ⟨hlt, -⟩
  · refine ⟨x, ?_, hcat, hname⟩
    rw [hitems]
    exact items_foldl_registerItem _ hx
  · refine ⟨⟨i, c, n⟩, ?_, rfl, rfl⟩
    rw [hitems, get?_items_walk hit hw]
    refine .inr ⟨?_, rfl, hi⟩
    cases hx : m.items.get? i with
    | none => rfl
    | some x =>
        have hle := ItemInterner.le_maxId hx
        rw [hm i x hx] at hle
        omega

/-- A load that is not refused, whatever its orders. -/
theorem placed_of_run (hm : ∀ k x, m.items.get? k = some x → x.id = k) (ho : o.Valid m)
    (h : InShape m bound) {inputs : SortedMap Cell Value} {l : Loaded}
    (hcount : l.cells = (entries cal m bound).length)
    (hnodup : (((entries cal m bound).map (cellAt (interned o m bound).map)).map
      Prod.fst).Nodup)
    (hinputs : ∀ k v, inputs.get? k = some v ↔
      Shown cal m bound (interned o m bound).map k v) :
    Placed cal m bound
      { (o.walk (interned o m bound)).foldl ItemInterner.registerItem m with inputs := inputs }
      l := by
  have hit := minting_interned hm ho bound
  have hw := ho.walk (interned o m bound)
  refine ⟨fun k x hx => items_foldl_registerItem _ hx,
    fun c x hx => ⟨_, get?_categories_foldl (hit.nodup hw c) hx⟩, fun k x hx hnone => ?_,
    (interned o m bound).map, fun c n i hi => bears_foldl hm hit hw rfl hi,
    fun c n huse => find_internAll ((mem_namesIn h).mpr huse), hnodup, hcount, hinputs⟩
  rcases (get?_items_walk hit hw).mp hx with hold | ⟨-, hid, hfind⟩
  · rw [hnone] at hold
    cases hold
  · obtain ⟨hlt, hnot⟩ : ItemInterner.maxId m < k.id ∧ ∀ j, ¬Bears m x.category x.name j := by
      apply (hit.sound _ _ _ hfind).resolve_left
      rintro ⟨y, hy, -⟩
      rw [hnone] at hy
      cases hy
    refine ⟨hid, hlt, ?_, ?_⟩
    · rcases mem_of_find_internAll hfind with hseed | hmem
      · exact absurd (bears_of_find hm ho.seed hseed) (hnot k)
      · exact (mem_namesIn h).mp hmem
    · rintro j ⟨y, hy, hcat, hname⟩
      rcases (get?_items_walk hit hw).mp hy with hold | ⟨-, -, hfind'⟩
      · exact absurd ⟨y, hold, hcat, hname⟩ (hnot j)
      · rw [hcat, hname, hfind, Option.some.injEq] at hfind'
        exact hfind'.symm

/-- What any load comes to that does not panic. -/
theorem outcome_of_run (hm : ∀ k x, m.items.get? k = some x → x.id = k) (ho : o.Valid m)
    {out : Except LoadError (Model × Loaded)} (h : loadInputsIn o cal m bound = some out) :
    Outcome cal m bound out := by
  by_cases hshape : InShape m bound
  · by_cases hfits : StorageSql.Fits (seededIn o.seed 1) (namesIn m bound)
    · rcases @loadInputsIn_of_fits cal _ _ _ hm ho hshape hfits with
        ⟨hclean, e, he⟩ | ⟨hclean, inputs, l, hok, -, hcount, hnodup, hinputs⟩
      · rw [h, Option.some.injEq] at he
        subst he
        exact fun hboth => hclean hboth.2
      · rw [h, Option.some.injEq] at hok
        subst hok
        exact ⟨hshape, hclean, placed_of_run hm ho hshape hcount hnodup hinputs⟩
    · rw [loadInputsIn_of_not_fits hshape hfits] at h
      cases h
  · obtain ⟨e, he⟩ := @loadInputsIn_of_not_inShape cal m bound o hshape
    rw [h, Option.some.injEq] at he
    subst he
    exact fun hboth => hshape hboth.1

end Runs

/-! ## Items minted first -/

section First

variable {cal : Calendar} {m : Model} {bound : List BoundRows} {o : Orders}

/-- A model with some items added. -/
def withItems (m : Model) (minted : List (ItemId × Named)) : Model :=
  minted.foldl (fun m p => m.addItem p.1 p.2.1 p.2.2) m

/-- The unknown names of some rows as items, of different ids above those of the
model. -/
structure MintedFirst (m : Model) (bound : List BoundRows) (minted : List (ItemId × Named)) :
    Prop where
  names : ∃ names, unknownItems m bound = .ok names ∧ (minted.map Prod.snd).Perm names
  ids : (minted.map Prod.fst).Nodup
  above : ∀ p ∈ minted, ItemInterner.maxId m < p.1.id

theorem withItems_frame (m : Model) (minted : List (ItemId × Named)) :
    (withItems m minted).measures = m.measures ∧ (withItems m minted).inputs = m.inputs := by
  unfold withItems
  induction minted generalizing m with
  | nil => exact ⟨rfl, rfl⟩
  | cons p minted ih => exact ih (m.addItem p.1 p.2.1 p.2.2)

theorem get?_items_withItems (minted : List (ItemId × Named)) (hids : (minted.map Prod.fst).Nodup)
    (m : Model) (k : ItemId) (x : Item) :
    (withItems m minted).items.get? k = some x ↔
      (∃ p ∈ minted, k = p.1 ∧ x = ⟨p.1, p.2.1, p.2.2⟩) ∨
        (∀ p ∈ minted, k ≠ p.1) ∧ m.items.get? k = some x := by
  unfold withItems
  induction minted generalizing m with
  | nil => simp
  | cons p minted ih =>
      rw [List.map_cons, List.nodup_cons] at hids
      rw [List.foldl_cons, ih hids.2]
      have hitems : (m.addItem p.1 p.2.1 p.2.2).items =
          m.items.insert p.1 ⟨p.1, p.2.1, p.2.2⟩ := rfl
      rw [hitems, SortedMap.get?_insert]
      by_cases hk : k = p.1
      · have hnot : ∀ q ∈ minted, k ≠ q.1 := fun q hq heq =>
          hids.1 (hk ▸ heq ▸ List.mem_map_of_mem hq)
        rw [if_pos hk]
        constructor
        · rintro (⟨q, hq, heq, -⟩ | ⟨-, hx⟩)
          · exact absurd heq (hnot q hq)
          · exact .inl ⟨p, List.mem_cons_self, hk, (Option.some.inj hx).symm⟩
        · rintro (⟨q, hq, heq, hx⟩ | ⟨hall, -⟩)
          · rcases List.mem_cons.mp hq with rfl | hq
            · exact .inr ⟨hnot, by rw [hx]⟩
            · exact absurd heq (hnot q hq)
          · exact absurd hk (hall p List.mem_cons_self)
      · rw [if_neg hk]
        simp [hk]

theorem keyed_withItems (hm : ∀ k x, m.items.get? k = some x → x.id = k)
    {minted : List (ItemId × Named)} (h : MintedFirst m bound minted) :
    ∀ k x, (withItems m minted).items.get? k = some x → x.id = k := by
  intro k x hx
  rcases (get?_items_withItems minted h.ids m k x).mp hx with ⟨p, -, rfl, rfl⟩ | ⟨-, hold⟩
  · rfl
  · exact hm k x hold

/-- A name that a row uses is one of an item once the unknown ones are minted. -/
theorem bears_withItems (hm : ∀ k x, m.items.get? k = some x → x.id = k)
    {minted : List (ItemId × Named)} (h : MintedFirst m bound minted) {c : CategoryId}
    {n : String} (huse : Uses m bound c n) : ∃ i, Bears (withItems m minted) c n i := by
  obtain ⟨names, hnames, hperm⟩ := h.names
  by_cases hany : m.items.values.any (Items.named c n) = true
  · obtain ⟨x, hx, hnamed⟩ := List.any_eq_true.mp hany
    obtain ⟨k, hk⟩ := SortedMap.mem_values_iff.mp hx
    unfold Items.named at hnamed
    simp only [Bool.and_eq_true, decide_eq_true_eq] at hnamed
    refine ⟨k, x, (get?_items_withItems minted h.ids m k x).mpr (.inr ⟨?_, hk⟩), hnamed⟩
    rintro p hp rfl
    have hle := ItemInterner.le_maxId hk
    have habove := h.above p hp
    rw [hm _ x hk] at hle
    omega
  · obtain ⟨⟨shaped, d⟩, hd⟩ : ∃ s, shape m bound = .ok s := by
      unfold unknownItems at hnames
      cases hshape : shape m bound with
      | error e =>
          rw [hshape] at hnames
          cases hnames
      | ok s => exact ⟨s, rfl⟩
    have hmem : (c, n) ∈ usedNames d := by
      have hin := (mem_namesIn (shape_isOk_iff.mp ⟨_, hd⟩)).mpr huse
      unfold namesIn at hin
      rw [hd] at hin
      exact hin
    unfold unknownItems at hnames
    rw [hd] at hnames
    cases hnames
    have hin : (c, n) ∈ minted.map Prod.snd := by
      rw [hperm.mem_iff]
      exact List.mem_filter.mpr ⟨hmem, by simpa using hany⟩
    obtain ⟨p, hp, hpn⟩ := List.mem_map.mp hin
    refine ⟨p.1, ⟨p.1, p.2.1, p.2.2⟩, ?_, by rw [hpn], by rw [hpn]⟩
    exact (get?_items_withItems minted h.ids m _ _).mpr (.inl ⟨p, hp, rfl, rfl⟩)

theorem internAll_of_known {it : ItemInterner} {ps : List Named}
    (h : ∀ p ∈ ps, ∃ i, it.map.find p.1 p.2 = some i) : internAll it ps = it := by
  induction ps with
  | nil => rfl
  | cons p ps ih =>
      obtain ⟨i, hi⟩ := h p List.mem_cons_self
      change internAll (it.intern p.1 p.2).1 ps = it
      rw [ItemInterner.intern_of_find hi]
      exact ih fun q hq => h q (List.mem_cons_of_mem p hq)

/-- Minting the unknown names first leaves none to mint: the load does not run
out of ids, and the items stay as they are. -/
theorem load_withItems (hm : ∀ k x, m.items.get? k = some x → x.id = k)
    {minted : List (ItemId × Named)} (h : MintedFirst m bound minted)
    (ho : o.Valid (withItems m minted)) :
    ∃ out, loadInputsIn o cal (withItems m minted) bound = some out ∧
      Outcome cal (withItems m minted) bound out ∧
      ∀ m' l, out = .ok (m', l) → l.newItems = [] ∧ m'.items = (withItems m minted).items := by
  have hmeasures := (withItems_frame m minted).1
  have hkeyed := keyed_withItems hm h
  have hshape : InShape (withItems m minted) bound := by
    obtain ⟨names, hnames, -⟩ := h.names
    unfold InShape
    rw [hmeasures]
    apply shape_isOk_iff.mp
    unfold unknownItems at hnames
    cases hshape : shape m bound with
    | error e =>
        rw [hshape] at hnames
        cases hnames
    | ok s => exact ⟨s, rfl⟩
  have hknown : ∀ p ∈ namesIn (withItems m minted) bound,
      ∃ i, (seededIn o.seed 1).map.find p.1 p.2 = some i := by
    rintro ⟨c, n⟩ hp
    have huse := (mem_namesIn hshape).mp hp
    unfold Uses at huse
    rw [hmeasures] at huse
    obtain ⟨i, hi⟩ := bears_withItems hm h huse
    exact exists_find ho.seed hi 1
  have hsame := internAll_of_known hknown
  have hfits : StorageSql.Fits (seededIn o.seed 1) (namesIn (withItems m minted) bound) := by
    unfold StorageSql.Fits
    rw [hsame]
    exact le_max_right _ _
  have hitems : ((o.walk (interned o (withItems m minted) bound)).foldl
      ItemInterner.registerItem (withItems m minted)).items = (withItems m minted).items := by
    ext1 k
    apply Option.ext
    intro x
    rw [get?_items_walk (minting_interned hkeyed ho bound) (ho.walk _)]
    constructor
    · rintro (hold | ⟨hnone, -, hfind⟩)
      · exact hold
      · unfold interned at hfind
        rw [hsame] at hfind
        obtain ⟨y, hy, -⟩ := bears_of_find hkeyed ho.seed hfind
        rw [hnone] at hy
        cases hy
    · exact .inl
  rcases @loadInputsIn_of_fits cal _ _ _ hkeyed ho hshape hfits with
    ⟨hclean, e, he⟩ | ⟨hclean, inputs, l, hok, hnew, hcount, hnodup, hinputs⟩
  · exact ⟨_, he, outcome_of_run hkeyed ho he, fun _ _ heq => by cases heq⟩
  · refine ⟨_, hok, outcome_of_run hkeyed ho hok, fun m' l' heq => ?_⟩
    cases heq
    refine ⟨?_, hitems⟩
    rw [hnew, hitems, List.eq_nil_iff_forall_not_mem]
    intro x hx
    obtain ⟨k, hk⟩ := SortedMap.mem_values_iff.mp hx
    rw [SortedMap.get?_filter, Option.filter_eq_some_iff] at hk
    simp [SortedMap.contains, hk.1] at hk

end First

end Improv.PgModel
