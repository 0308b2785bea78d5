import Improv.Lib.ExceptLemmas
import Improv.StoragePg.Guards
/-!
# The cells of a save

What a save writes of a binding: the cells that differ from the snapshot, each
once, at different addresses where the names of items are unique.  And what the
snapshot says of the table it was read from.
-/

namespace Improv.StoragePg

open Improv.Lib Improv.CoreModel

variable {O : Type} {model : Model} {b : Binding} {s : Snapshot} {only : Option (List Cell)}

/-! ## Written cells -/

theorem of_mem_diff {c : Coordinate × Option Value × Option Value}
    (h : c ∈ diff model b (some s) only) :
    c.2.1 = model.inputs.get? ⟨b.measure, c.1⟩ ∧ c.2.2 = s.bound.get? ⟨b.measure, c.1⟩ ∧
      (c.2.2 = none → c.2.1.isSome = true) := by
  unfold diff at h
  cases only with
  | some keys =>
      obtain ⟨k, hk, rfl⟩ := List.mem_map.mp h
      have hkeep := (List.mem_filter.mp hk).2
      simp only [Option.isNone_some, Bool.false_or, Option.bind_some, Bool.and_eq_true,
        decide_eq_true_iff] at hkeep ⊢
      have hcell : (⟨b.measure, k.coord⟩ : Cell) = k := by rw [← hkeep.1]
      simp only [hcell, true_and]
      intro hold
      have hdiff := hkeep.2
      rw [hold] at hdiff
      cases hnew : model.inputs.get? k with
      | none =>
          rw [hnew] at hdiff
          cases hdiff
      | some v => rfl
  | none =>
      rcases List.mem_append.mp h with h | h
      · obtain ⟨p, hp, rfl⟩ := List.mem_map.mp h
        have ⟨hmem, hkeep⟩ := List.mem_filter.mp hp
        rw [Bool.and_eq_true, decide_eq_true_iff] at hkeep
        have hcell : (⟨b.measure, p.1.coord⟩ : Cell) = p.1 := by rw [← hkeep.1]
        simp only [hcell, Option.bind_some]
        exact ⟨(SortedMap.get?_eq_some_iff.mpr hmem).symm, trivial, fun _ => rfl⟩
      · obtain ⟨p, hp, rfl⟩ := List.mem_map.mp h
        have ⟨hmem, hkeep⟩ := List.mem_filter.mp hp
        rw [Bool.and_eq_true, decide_eq_true_iff, Bool.not_eq_true'] at hkeep
        have hcell : (⟨b.measure, p.1.coord⟩ : Cell) = p.1 := by rw [← hkeep.1]
        simp only [hcell]
        refine ⟨?_, (SortedMap.get?_eq_some_iff.mpr hmem).symm, fun hold => by cases hold⟩
        rw [SortedMap.contains, Option.isSome_eq_false_iff, Option.isNone_iff_eq_none] at hkeep
        exact hkeep.2.symm

/-- Each cell is written once. -/
theorem nodup_diff (honly : ∀ keys, only = some keys → keys.Nodup) :
    ((diff model b (some s) only).map (·.1)).Nodup := by
  have hcoord : ∀ l : List Cell, l.Nodup → (∀ k ∈ l, k.measure = b.measure) →
      (l.map Cell.coord).Nodup := by
    intro l hl hk
    refine List.Nodup.map_on (fun x hx y hy hxy => ?_) hl
    have hmeasure := (hk x hx).trans (hk y hy).symm
    cases x
    cases y
    simp only at hxy hmeasure
    rw [hmeasure, hxy]
  unfold diff
  cases only with
  | some keys =>
      simp only [List.map_map]
      refine hcoord _ ((honly keys rfl).filter _) fun k hk => ?_
      have hkeep := (List.mem_filter.mp hk).2
      rw [Bool.and_eq_true, decide_eq_true_iff] at hkeep
      exact hkeep.1
  | none =>
      simp only [List.map_append, List.map_map]
      have hsplit := hcoord
        ((model.inputs.entries.filter fun p => p.1.measure = b.measure &&
          ((some s).isNone || !sameOpt ((some s).bind fun s => s.bound.get? p.1)
            (some p.2))).map (·.1) ++
          (s.bound.entries.filter fun p => p.1.measure = b.measure &&
            !model.inputs.contains p.1).map (·.1))
      rw [List.map_append, List.map_map, List.map_map] at hsplit
      refine hsplit (List.nodup_append.mpr ⟨?_, ?_, ?_⟩) fun k hk => ?_
      · exact model.inputs.nodup_keys.sublist (List.filter_sublist.map _)
      · exact s.bound.nodup_keys.sublist (List.filter_sublist.map _)
      · intro k hk k' hk' heq
        obtain ⟨p, hp, rfl⟩ := List.mem_map.mp hk
        obtain ⟨p', hp', rfl⟩ := List.mem_map.mp hk'
        have hin := SortedMap.get?_eq_some_iff.mpr (List.mem_filter.mp hp).1
        have hout := (List.mem_filter.mp hp').2
        rw [Bool.and_eq_true, Bool.not_eq_true', ← heq, SortedMap.contains_of_get? hin] at hout
        cases hout.2
      · rcases List.mem_append.mp hk with hk | hk
        · obtain ⟨p, hp, rfl⟩ := List.mem_map.mp hk
          have hkeep := (List.mem_filter.mp hp).2
          rw [Bool.and_eq_true, decide_eq_true_iff] at hkeep
          exact hkeep.1
        · obtain ⟨p, hp, rfl⟩ := List.mem_map.mp hk
          have hkeep := (List.mem_filter.mp hp).2
          rw [Bool.and_eq_true, decide_eq_true_iff] at hkeep
          exact hkeep.1

/-- A written cell and what it is made from. -/
structure Written.Of (model : Model) (b : Binding) (s : Snapshot)
    (c : Coordinate × Option Value × Option Value) (w : Written) : Prop where
  coord : w.coord = c.1
  new : w.new = c.2.1
  old : w.old = c.2.2
  names : address b (itemName model (some s)) w.coord = .ok w.names
  n : json w.new = .ok w.n
  o : json w.old = .ok w.o

theorem of_written {cells : List Written} (h : written model b (some s) only = .ok cells) :
    cells = [] ∨ List.Forall₂ (Written.Of model b s) (diff model b (some s) only) cells := by
  unfold written at h
  cases hm : model.measures.get? b.measure with
  | none =>
      rw [hm] at h
      exact .inl (Except.ok.inj h).symm
  | some measure =>
      simp only [hm, Option.isNone_some, Bool.and_false, Bool.false_eq_true, if_false] at h
      split at h
      · exact .inl (Except.ok.inj h).symm
      · split at h
        · cases h
        · right
          refine (mapM_eq_ok_iff.mp h).imp fun c w hw => ?_
          simp only [bind_eq_ok_iff] at hw
          obtain ⟨names, hnames, n, hn, o, ho, hw⟩ := hw
          cases hw
          exact ⟨rfl, rfl, rfl, hnames, hn, ho⟩

theorem exists_diff_of_written {cells : List Written}
    (h : written model b (some s) only = .ok cells) {w : Written} (hw : w ∈ cells) :
    ∃ c ∈ diff model b (some s) only, Written.Of model b s c w := by
  rcases of_written h with rfl | hall
  · cases hw
  · obtain ⟨i, hi, rfl⟩ := List.mem_iff_getElem.mp hw
    have hlen := hall.length_eq
    exact ⟨_, List.getElem_mem (by omega), (List.forall₂_iff_get.mp hall).2 i (by omega) hi⟩

theorem nodup_coords {cells : List Written} (h : written model b (some s) only = .ok cells)
    (honly : ∀ keys, only = some keys → keys.Nodup) : (cells.map Written.coord).Nodup := by
  rcases of_written h with rfl | hall
  · exact List.nodup_nil
  · have heq : cells.map Written.coord = (diff model b (some s) only).map (·.1) := by
      have hcoords : List.Forall₂ (· = ·) ((diff model b (some s) only).map (·.1))
          (cells.map Written.coord) := by
        rw [List.forall₂_map_left_iff, List.forall₂_map_right_iff]
        exact hall.imp fun c w hw => hw.coord.symm
      rw [List.forall₂_eq_eq_eq] at hcoords
      exact hcoords.symm
    rw [heq]
    exact nodup_diff honly

/-! ## Addresses -/

theorem address_eq_ok_iff {name : ItemId → Option String} {coord : Coordinate}
    {names : List String} :
    address b name coord = .ok names ↔
      List.Forall₂ (fun d n => (coord.get? d.1).bind name = some n) b.dims names := by
  unfold address
  rw [mapM_eq_ok_iff]
  refine iff_of_eq (congrArg (fun R => List.Forall₂ R b.dims names) ?_)
  funext d n
  cases (coord.get? d.1).bind name with
  | none => simp
  | some n' => simp

/-- The bound cell is the model's or the snapshot's. -/
def IsCell (model : Model) (s : Snapshot) (b : Binding) (k : Cell) : Prop :=
  k.measure = b.measure ∧ (model.inputs.contains k = true ∨ s.bound.contains k = true)

/-- A binding's cells are at items of its dimension columns' categories, and
items of one category have different names. -/
structure Addressable (model : Model) (s : Snapshot) (b : Binding) : Prop where
  coords : ∀ k, IsCell model s b k → ∀ c ∈ k.coord.keys, c ∈ b.dims.map (·.1)
  names : ∀ k k', IsCell model s b k → IsCell model s b k' → ∀ c i j, k.coord.get? c = some i →
    k'.coord.get? c = some j → itemName model (some s) i = itemName model (some s) j → i = j

theorem Written.Of.isCell {c : Coordinate × Option Value × Option Value} {w : Written}
    (hof : Written.Of model b s c w) (h : c ∈ diff model b (some s) only) :
    IsCell model s b ⟨b.measure, w.coord⟩ := by
  have ⟨hnew, hold, hsome⟩ := of_mem_diff h
  rw [hof.coord]
  refine ⟨rfl, ?_⟩
  cases ho : c.2.2 with
  | none =>
      left
      rw [SortedMap.contains, ← hnew]
      exact hsome ho
  | some v =>
      right
      rw [SortedMap.contains, ← hold, ho]
      rfl

/-- Cells at the same names are the same cell. -/
theorem Addressable.coord_eq (h : Addressable model s b) {k k' : Cell} (hk : IsCell model s b k)
    (hk' : IsCell model s b k') {names : List String}
    (hn : address b (itemName model (some s)) k.coord = .ok names)
    (hn' : address b (itemName model (some s)) k'.coord = .ok names) : k.coord = k'.coord := by
  rw [address_eq_ok_iff] at hn hn'
  apply SortedMap.ext
  intro c
  by_cases hc : c ∈ b.dims.map (·.1)
  · obtain ⟨d, hd, rfl⟩ := List.mem_map.mp hc
    obtain ⟨p, hp, rfl⟩ := List.mem_iff_getElem.mp hd
    have hlen := hn.length_eq
    have h₁ := (List.forall₂_iff_get.mp hn).2 p hp (by omega)
    have h₂ := (List.forall₂_iff_get.mp hn').2 p hp (by omega)
    simp only [List.get_eq_getElem, Option.bind_eq_some_iff] at h₁ h₂
    obtain ⟨i, hi, hin⟩ := h₁
    obtain ⟨j, hj, hjn⟩ := h₂
    rw [hi, hj, h.names k k' hk hk' _ i j hi hj (hin.trans hjn.symm)]
  · have h₁ : c ∉ k.coord.keys := fun hin => hc (h.coords k hk c hin)
    have h₂ : c ∉ k'.coord.keys := fun hin => hc (h.coords k' hk' c hin)
    rw [SortedMap.get?_eq_none_iff.mpr h₁, SortedMap.get?_eq_none_iff.mpr h₂]

/-- Written cells have different addresses. -/
theorem Addressable.nodup_names (h : Addressable model s b) {cells : List Written}
    (hcells : written model b (some s) only = .ok cells)
    (honly : ∀ keys, only = some keys → keys.Nodup) : (cells.map Written.names).Nodup := by
  have hnodup := nodup_coords hcells honly
  have hcells' : cells.Nodup := hnodup.of_map Written.coord
  refine List.Nodup.map_on (fun w hw w' hw' heq => ?_) hcells'
  obtain ⟨c, hc, hof⟩ := exists_diff_of_written hcells hw
  obtain ⟨c', hc', hof'⟩ := exists_diff_of_written hcells hw'
  have hcoord := h.coord_eq (hof.isCell hc) (hof'.isCell hc') hof.names (heq ▸ hof'.names)
  exact List.inj_on_of_nodup_map hnodup hw hw' hcoord

/-- Written cells are proper where the snapshot's values were read from JSON. -/
theorem proper_of_written
    (hbound : ∀ coord v, s.bound.get? ⟨b.measure, coord⟩ = some v → kept v = true)
    {cells : List Written} (hcells : written model b (some s) only = .ok cells) :
    ∀ w ∈ cells, w.Proper := by
  intro w hw
  obtain ⟨c, hc, hof⟩ := exists_diff_of_written hcells hw
  have ⟨_, hold, hsome⟩ := of_mem_diff hc
  refine ⟨hof.n, hof.o, fun hnone => ?_, fun v hv => ?_⟩
  · rw [hof.new]
    exact hsome (hof.old ▸ hnone)
  · rw [hof.old, hold] at hv
    exact hbound _ v hv

/-! ## Loaded cells -/

/-- The snapshot's cells of a binding are read from its table, whose names'
items keep these names in the snapshot. -/
structure LoadedFrom (itemOf : CategoryId → String → Option ItemId) (b : Binding)
    (rows : List (FactRow O)) (s : Snapshot) : Prop where
  cells : ∃ cells, loadBound itemOf b rows = .ok cells ∧
    ∀ coord, s.bound.get? ⟨b.measure, coord⟩ = cells.get? ⟨b.measure, coord⟩
  names : ∀ c n i, itemOf c n = some i → s.names.get? i = some n
  width : ∀ r ∈ rows, r.dims.length = b.dims.length

/-- What a load reads: of each row one cell or none, no cell twice. -/
structure ReadsRows (itemOf : CategoryId → String → Option ItemId) (b : Binding)
    (rows : List (FactRow O)) (reads : List (Option (Cell × Value))) : Prop where
  each : List.Forall₂ (fun r read => readRow itemOf b r = .ok read) rows reads
  nodup : ((reads.filterMap id).map (·.1)).Nodup

theorem of_loadRows {itemOf : CategoryId → String → Option ItemId} {rows : List (FactRow O)} :
    ∀ {inputs cells : SortedMap Cell Value},
      rows.foldlM (fun inputs r => do
        match ← readRow itemOf b r with
        | none => return inputs
        | some (cell, v) =>
            if inputs.contains cell then throw (StoreError.twoRows b.measure)
            return inputs.insert cell v) inputs = .ok cells →
      ∃ reads, ReadsRows itemOf b rows reads ∧
        (∀ p ∈ reads.filterMap id, inputs.contains p.1 = false) ∧
        ∀ k v, cells.get? k = some v ↔ (k, v) ∈ reads.filterMap id ∨ inputs.get? k = some v := by
  induction rows with
  | nil =>
      intro inputs cells h
      cases h
      refine ⟨[], ⟨.nil, List.nodup_nil⟩, fun p hp => ?_, fun k v => ?_⟩
      · cases hp
      · rw [List.filterMap_nil]
        exact ⟨.inr, fun h => h.resolve_left List.not_mem_nil⟩
  | cons r rows ih =>
      intro inputs cells h
      rw [List.foldlM_cons, bind_eq_ok_iff] at h
      obtain ⟨next, hnext, hrest⟩ := h
      rw [bind_eq_ok_iff] at hnext
      obtain ⟨read, hread, hnext⟩ := hnext
      obtain ⟨reads, hreads, hfree, hget⟩ := ih hrest
      cases read with
      | none =>
          cases hnext
          exact ⟨none :: reads, ⟨.cons hread hreads.each, hreads.nodup⟩, hfree, hget⟩
      | some p =>
          obtain ⟨cell, v⟩ := p
          by_cases hdup : inputs.contains cell = true
          · simp only [hdup, if_true] at hnext
            cases hnext
          · have hinsert : inputs.insert cell v = next := by
              simp only [hdup] at hnext
              exact Except.ok.inj hnext
            rw [← hinsert] at hfree hget
            have hfree' : ∀ p ∈ reads.filterMap id, p.1 ≠ cell ∧ inputs.contains p.1 = false := by
              intro p hp
              have hnot := hfree p hp
              rw [← Bool.not_eq_true, SortedMap.contains_insert, not_or] at hnot
              exact ⟨hnot.1, by simpa using hnot.2⟩
            have hcons : (some (cell, v) :: reads).filterMap id =
                (cell, v) :: reads.filterMap id := rfl
            refine ⟨some (cell, v) :: reads, ⟨.cons hread hreads.each, ?_⟩, ?_, fun k u => ?_⟩
            · rw [hcons, List.map_cons, List.nodup_cons]
              refine ⟨fun hmem => ?_, hreads.nodup⟩
              obtain ⟨p, hp, heq⟩ := List.mem_map.mp hmem
              exact (hfree' p hp).1 heq
            · intro p hp
              rw [hcons] at hp
              rcases List.mem_cons.mp hp with rfl | hp
              · simpa using hdup
              · exact (hfree' p hp).2
            · rw [hget, hcons, List.mem_cons, SortedMap.get?_insert]
              by_cases hk : k = cell
              · subst hk
                rw [if_pos rfl]
                have hnot : inputs.get? k ≠ some u :=
                  fun hin => hdup (SortedMap.contains_of_get? hin)
                have hnone : (k, u) ∉ reads.filterMap id := fun hin => (hfree' _ hin).1 rfl
                simp only [hnone, hnot, false_or, or_false, Prod.mk.injEq, true_and,
                  Option.some.injEq]
                exact eq_comm
              · rw [if_neg hk]
                simp [hk]

theorem countP_le_of_forall₂ {α β : Type} {p : α → Bool} {q : β → Bool} {as : List α}
    {bs : List β} (h : List.Forall₂ (fun a b => p a = true → q b = true) as bs) :
    as.countP p ≤ bs.countP q := by
  induction h with
  | nil => exact Nat.le_refl _
  | @cons a b as bs hab _ ih =>
      rw [List.countP_cons, List.countP_cons]
      by_cases hp : p a = true
      · rw [if_pos hp, if_pos (hab hp)]
        omega
      · rw [if_neg hp]
        omega

theorem eq_map_some_of_mapM {α : Type} {xs : List (Option α)} :
    ∀ {ys : List α}, xs.mapM id = some ys → xs = ys.map some := by
  induction xs with
  | nil =>
      intro ys h
      cases h
      rfl
  | cons x xs ih =>
      intro ys h
      rw [List.mapM_cons] at h
      simp only [Option.bind_eq_bind, Option.bind_eq_some_iff] at h
      obtain ⟨y, hy, zs, hzs, h⟩ := h
      cases h
      rw [List.map_cons, ← ih hzs]
      exact congrArg (· :: xs) hy

/-- A read row: its value, and the items of its names. -/
theorem of_readRow {itemOf : CategoryId → String → Option ItemId} {r : FactRow O} {k : Cell}
    {v : Value} (h : readRow itemOf b r = .ok (some (k, v))) :
    ∃ names items, r.value = some v ∧ kept v = true ∧ r.dims = names.map some ∧
      List.Forall₂ (fun p q => itemOf p.1.1 p.2 = some q.2 ∧ q.1 = p.1.1) (b.dims.zip names) items ∧
      k = ⟨b.measure, Coordinate.fromPairs items⟩ := by
  unfold readRow at h
  cases hv : r.value with
  | none =>
      rw [hv] at h
      cases h
  | some u =>
      cases hdims : r.dims.mapM id with
      | none =>
          rw [hv, hdims] at h
          cases h
      | some names =>
          simp only [hv, hdims, bind_eq_ok_iff] at h
          obtain ⟨w, hw, items, hitems, h⟩ := h
          cases h
          obtain ⟨rfl, hkept, _⟩ := jsonToValue_ok hw
          refine ⟨names, items, rfl, hkept, ?_, ?_, rfl⟩
          · exact eq_map_some_of_mapM hdims
          · refine (mapM_eq_ok_iff.mp hitems).imp fun p q hq => ?_
            cases hitem : itemOf p.1.1 p.2 with
            | none =>
                rw [hitem] at hq
                cases hq
            | some i =>
                rw [hitem] at hq
                cases hq
                exact ⟨rfl, rfl⟩

theorem mapM_map_some {α : Type} (xs : List α) : (xs.map some).mapM id = some xs := by
  induction xs with
  | nil => rfl
  | cons x xs ih =>
      rw [List.map_cons, List.mapM_cons, ih]
      rfl

theorem ne_none_of_readRow {itemOf : CategoryId → String → Option ItemId} {r : FactRow O}
    {v : Value} {names : List String} (hv : r.value = some v) (hdims : r.dims = names.map some) :
    readRow itemOf b r ≠ .ok none := by
  have hmapM : r.dims.mapM id = some names := by
    rw [hdims]
    exact mapM_map_some names
  unfold readRow
  simp only [hv, hmapM, Ne, bind_eq_ok_iff]
  rintro ⟨_, _, _, _, h⟩
  cases h

variable {itemOf : CategoryId → String → Option ItemId} {rows : List (FactRow O)}

/-- The names of a read cell's items are its row's. -/
theorem LoadedFrom.address_of_items (h : LoadedFrom itemOf b rows s) {names : List String}
    {items : List (CategoryId × ItemId)} (hlen : names.length = b.dims.length)
    (hitems : List.Forall₂ (fun p q => itemOf p.1.1 p.2 = some q.2 ∧ q.1 = p.1.1)
      (b.dims.zip names) items) :
    address b (fun i => s.names.get? i) (Coordinate.fromPairs items) = .ok names := by
  have hkeys : items.map (·.1) = b.dims.map (·.1) := by
    have hpairs : List.Forall₂ (· = ·) (items.map (·.1)) ((b.dims.zip names).map (·.1.1)) := by
      rw [List.forall₂_map_left_iff, List.forall₂_map_right_iff]
      exact hitems.flip.imp fun p q hq => hq.2
    rw [List.forall₂_eq_eq_eq] at hpairs
    have hfst : (b.dims.zip names).map (fun p => p.1.1) = b.dims.map (·.1) := by
      have hzip : (b.dims.zip names).map Prod.fst = b.dims := List.map_fst_zip (by omega)
      calc (b.dims.zip names).map (fun p => p.1.1)
          = ((b.dims.zip names).map Prod.fst).map (·.1) := by rw [List.map_map]; rfl
        _ = b.dims.map (·.1) := by rw [hzip]
    exact hpairs.trans hfst
  have hget : ∀ q ∈ items, (Coordinate.fromPairs items).get? q.1 = some q.2 := by
    intro q hq
    exact (SortedMap.get?_ofList_of_nodup (hkeys ▸ b.nodup)).mpr hq
  rw [address_eq_ok_iff, List.forall₂_iff_get]
  refine ⟨hlen.symm, fun p hp hp' => ?_⟩
  have hzip : p < (b.dims.zip names).length := by
    rw [List.length_zip]
    omega
  have hp'' : p < items.length := by
    rw [← hitems.length_eq]
    exact hzip
  have hpair := (List.forall₂_iff_get.mp hitems).2 p hzip hp''
  simp only [List.get_eq_getElem, List.getElem_zip] at hpair ⊢
  rw [← hpair.2, hget _ (List.getElem_mem hp''), Option.bind_some]
  exact h.names _ _ _ hpair.1

/-- A loaded cell is read from a row. -/
theorem LoadedFrom.exists_read (h : LoadedFrom itemOf b rows s) {coord : Coordinate} {v : Value}
    (hv : s.bound.get? ⟨b.measure, coord⟩ = some v) :
    ∃ reads, ReadsRows itemOf b rows reads ∧
      ∃ r ∈ rows, readRow itemOf b r = .ok (some (⟨b.measure, coord⟩, v)) := by
  obtain ⟨cells, hload, hbound⟩ := h.cells
  obtain ⟨reads, hreads, _, hget⟩ := of_loadRows hload
  rw [hbound, hget] at hv
  have hmem : ((⟨b.measure, coord⟩ : Cell), v) ∈ reads.filterMap id :=
    hv.resolve_right fun hempty => by cases hempty
  obtain ⟨read, hread, hsome⟩ := List.mem_filterMap.mp hmem
  obtain ⟨p, hp, rfl⟩ := List.mem_iff_getElem.mp hread
  have hlen := hreads.each.length_eq
  have hrow := (List.forall₂_iff_get.mp hreads.each).2 p (by omega) hp
  simp only [List.get_eq_getElem] at hrow
  rw [show reads[p] = some (⟨b.measure, coord⟩, v) from hsome] at hrow
  exact ⟨reads, hreads, _, List.getElem_mem (by omega), hrow⟩

theorem LoadedFrom.kept (h : LoadedFrom itemOf b rows s) (coord : Coordinate) (v : Value)
    (hv : s.bound.get? ⟨b.measure, coord⟩ = some v) : kept v = true := by
  obtain ⟨_, _, _, _, hrow⟩ := h.exists_read hv
  obtain ⟨_, _, _, hkept, _⟩ := of_readRow hrow
  exact hkept

/-- A loaded cell has an address under the names of the snapshot. -/
theorem LoadedFrom.exists_names (h : LoadedFrom itemOf b rows s) {coord : Coordinate} {v : Value}
    (hv : s.bound.get? ⟨b.measure, coord⟩ = some v) :
    ∃ names, address b (fun i => s.names.get? i) coord = .ok names := by
  obtain ⟨_, _, r, hr, hrow⟩ := h.exists_read hv
  obtain ⟨names, items, _, _, hdims, hitems, hcell⟩ := of_readRow hrow
  have hwidth := h.width r hr
  rw [hdims, List.length_map] at hwidth
  rw [show coord = Coordinate.fromPairs items from congrArg Cell.coord hcell]
  exact ⟨names, h.address_of_items hwidth hitems⟩

/-- A loaded cell's row is the one of its value at its names. -/
theorem LoadedFrom.countP_eq_one (h : LoadedFrom itemOf b rows s) {coord : Coordinate} {v : Value}
    (hv : s.bound.get? ⟨b.measure, coord⟩ = some v) {names : List String}
    (hnames : address b (fun i => s.names.get? i) coord = .ok names) :
    rows.countP (holdsAt names (some v)) = 1 := by
  obtain ⟨reads, hreads, r₀, hr₀, hrow⟩ := h.exists_read hv
  obtain ⟨names', items, hvalue, hkept, hdims, hitems, hcell⟩ := of_readRow hrow
  have hcoord : coord = Coordinate.fromPairs items := congrArg Cell.coord hcell
  have hwidth := h.width _ hr₀
  rw [hdims, List.length_map] at hwidth
  have heq : names' = names := by
    have haddress := h.address_of_items hwidth hitems
    rw [← hcoord, hnames] at haddress
    exact (Except.ok.inj haddress).symm
  rw [heq] at hdims hitems
  have hpos : 0 < rows.countP (holdsAt names (some v)) := by
    refine List.countP_pos_iff.mpr ⟨r₀, hr₀, ?_⟩
    unfold holdsAt
    rw [FactRow.isAt_iff.mpr hdims, hvalue]
    exact same_self hkept
  -- A row that holds the value is read as the same cell, which is read once.
  have hle : rows.countP (holdsAt names (some v)) ≤
      reads.countP fun read => read.any fun q => q.1 = ⟨b.measure, coord⟩ := by
    refine countP_le_of_forall₂ (hreads.each.imp fun r read hread hholds => ?_)
    unfold holdsAt at hholds
    rw [Bool.and_eq_true, FactRow.isAt_iff] at hholds
    cases hu : r.value with
    | none =>
        rw [hu] at hholds
        cases hholds.2
    | some u =>
        cases read with
        | none => exact absurd hread (ne_none_of_readRow hu hholds.1)
        | some q =>
            obtain ⟨names'', items', _, _, hdims', hitems', hcell'⟩ := of_readRow hread
            have hnames' : names'' = names :=
              (Option.some_injective String).list_map (hdims'.symm.trans hholds.1)
            rw [hnames'] at hitems'
            have hunique : Relator.RightUnique
                (fun (p : (CategoryId × String) × String) (q : CategoryId × ItemId) =>
                  itemOf p.1.1 p.2 = some q.2 ∧ q.1 = p.1.1) := by
              intro p q q' hq hq'
              exact Prod.ext (hq.2.trans hq'.2.symm) (Option.some.inj (hq.1.symm.trans hq'.1))
            have hsame := List.right_unique_forall₂' hunique hitems hitems'
            rw [Option.any_some, decide_eq_true_iff, hcell', ← hsame, hcoord]
  have hcount : (reads.countP fun read => read.any fun q => q.1 = ⟨b.measure, coord⟩) =
      ((reads.filterMap id).map (·.1)).count ⟨b.measure, coord⟩ := by
    rw [List.count, List.countP_map, List.countP_filterMap]
    refine List.countP_congr fun read _ => ?_
    cases read with
    | none => simp
    | some q => simp
  have hone := List.nodup_iff_count_le_one.mp hreads.nodup ⟨b.measure, coord⟩
  omega

end Improv.StoragePg
