import Improv.PgModel.Loading
/-!
# Bound rows by name

What the rows of some bindings ask of a load, told by the names they give rather
than by the items of the names: the names used, the rows that make a cell, and
when the rows load at all.  None of it depends on the order of the rows or of
the bindings.
-/

namespace Improv.PgModel

open Improv.Lib Improv.CoreModel Improv.Engine

/-! ## Entries -/

/-- A cell by name: the measure, a name for each category, and the value. -/
abbrev Entry := (MeasureId × SortedMap CategoryId String) × Value

/-- The names a row gives the categories, a later one of a category winning. -/
def namedAt (cats : List CategoryId) (names : List String) : SortedMap CategoryId String :=
  .ofList (cats.zip names)

/-- The cell a row makes by name: none for a NULL dimension or value. -/
def entryOf (cal : Calendar) (id : Nat) (x : Measure) (row : ReadRow) : Option Entry :=
  match rowNames row.1, row.2.bind (toValue cal) with
  | some names, some v => some ((⟨id⟩, namedAt x.categories names), v)
  | _, _ => none

def entriesOf (cal : Calendar) (m : Model) (b : BoundRows) : List Entry :=
  match m.measures.get? ⟨b.measureId⟩ with
  | none => []
  | some x => b.rows.filterMap (entryOf cal b.measureId x)

/-- The cells some bound rows make by name. -/
def entries (cal : Calendar) (m : Model) (bound : List BoundRows) : List Entry :=
  bound.flatMap (entriesOf cal m)

/-- The coordinate of some names, by the items they are found as. -/
def place (items : Items) (names : SortedMap CategoryId String) : Coordinate :=
  names.map fun c n => (items.find c n).getD ⟨0⟩

/-- The cell of an entry. -/
def cellAt (items : Items) (e : Entry) : Cell × Value := (⟨e.1.1, place items e.1.2⟩, e.2)

theorem map_insert {κ α β : Type} [LinearOrder κ] (m : SortedMap κ α) (f : κ → α → β) (k : κ)
    (a : α) : (m.insert k a).map f = (m.map f).insert k (f k a) := by
  ext1 j
  rw [SortedMap.get?_map, SortedMap.get?_insert, SortedMap.get?_insert, SortedMap.get?_map]
  by_cases hj : j = k
  · rw [if_pos hj, if_pos hj, hj, Option.map_some]
  · rw [if_neg hj, if_neg hj]

theorem map_ofList {κ α β : Type} [LinearOrder κ] (ps : List (κ × α)) (f : κ → α → β) :
    (SortedMap.ofList ps).map f = .ofList (ps.map fun p => (p.1, f p.1 p.2)) := by
  have hfold : ∀ m : SortedMap κ α, (ps.foldl (fun m p => m.insert p.1 p.2) m).map f =
      (ps.map fun p => (p.1, f p.1 p.2)).foldl (fun m p => m.insert p.1 p.2) (m.map f) := by
    induction ps with
    | nil => exact fun _ => rfl
    | cons p ps ih =>
        intro m
        rw [List.foldl_cons, ih, map_insert, List.map_cons, List.foldl_cons]
  exact hfold .empty

theorem get?_place (items : Items) (names : SortedMap CategoryId String) (c : CategoryId) :
    (place items names).get? c = (names.get? c).map fun n => (items.find c n).getD ⟨0⟩ :=
  SortedMap.get?_map _ _ _

/-- Names that have items are at the coordinate of their places. -/
theorem coordinate_eq_place {items : Items} {cats : List CategoryId} {names : List String}
    {k : Coordinate} (h : coordinate items cats names = some k) :
    k = place items (namedAt cats names) := by
  have hfound := coordinate_isSome_iff.mp (by rw [h]; rfl)
  have hmap : (cats.zip names).mapM (fun p => (items.find p.1 p.2).map (p.1, ·)) =
      some ((cats.zip names).map fun p => (p.1, (items.find p.1 p.2).getD ⟨0⟩)) := by
    apply mapM_eq_some_map
    intro p hp
    obtain ⟨i, hi⟩ := hfound p hp
    rw [hi]
    rfl
  unfold coordinate at h
  rw [hmap, Option.map_some, Option.some.injEq] at h
  unfold place namedAt
  rw [map_ofList, ← h]
  rfl

theorem rowCell_eq {cal : Calendar} {items : Items} {x : Measure} {row : ReadRow}
    (hfound : Found items x.categories row) (id : Nat) :
    rowCell cal items x.categories row =
      (entryOf cal id x row).map fun e => (place items e.1.2, e.2) := by
  unfold rowCell entryOf
  cases hnames : rowNames row.1 with
  | none => rfl
  | some names =>
      obtain ⟨k, hk⟩ := Option.isSome_iff_exists.mp (hfound names hnames)
      cases row.2.bind (toValue cal) with
      | none => rfl
      | some v => simp only [hk, Option.map_some, coordinate_eq_place hk]

/-! ## Shapes -/

section Shape

variable {m : Model} {bound : List BoundRows}

/-- The bindings are of measures of the model, their rows of the width of these. -/
def InShape (m : Model) (bound : List BoundRows) : Prop :=
  ∀ b ∈ bound, ∃ x, m.measures.get? ⟨b.measureId⟩ = some x ∧
    ∀ row ∈ b.rows, row.1.length = x.categories.length

/-- Some row uses a name for a category. -/
def Uses (m : Model) (bound : List BoundRows) (c : CategoryId) (n : String) : Prop :=
  ∃ b ∈ bound, ∃ x, m.measures.get? ⟨b.measureId⟩ = some x ∧
    ∃ row ∈ b.rows, (c, some n) ∈ x.categories.zip row.1

theorem shapeStep_ok {s s' : List (BoundRows × Measure) × Distinct} {b : BoundRows}
    (h : shapeStep m s b = .ok s') :
    ∃ x, m.measures.get? ⟨b.measureId⟩ = some x ∧ s'.1 = s.1 ++ [(b, x)] ∧
      ∀ k, k ∈ s'.2.keys ↔ k ∈ s.2.keys ∨
        ∃ row ∈ b.rows, ((ofLex k).1, some (ofLex k).2) ∈ x.categories.zip row.1 := by
  unfold shapeStep shapeRows at h
  cases hx : m.measures.get? ⟨b.measureId⟩ with
  | none => simp [hx, Except.map] at h
  | some x =>
      simp only [hx] at h
      split at h
      · cases h
      · cases h
        exact ⟨x, rfl, rfl, keys_distinctRows _⟩

/-- The names that a shape collects are those used. -/
theorem mem_shape_keys {shaped shaped' : List (BoundRows × Measure)} {d d' : Distinct}
    (h : bound.foldlM (shapeStep m) (shaped, d) = .ok (shaped', d')) (k : CategoryId ×ₗ String) :
    k ∈ d'.keys ↔ k ∈ d.keys ∨ Uses m bound (ofLex k).1 (ofLex k).2 := by
  induction bound generalizing shaped d with
  | nil =>
      cases h
      simp [Uses]
  | cons b bound ih =>
      rw [List.foldlM_cons, bind_eq_ok_iff] at h
      obtain ⟨⟨t, dt⟩, ht, h⟩ := h
      obtain ⟨x, hx, -, hkeys⟩ := shapeStep_ok ht
      rw [ih h, hkeys, or_assoc]
      unfold Uses
      rw [List.exists_mem_cons_iff, hx]
      simp

theorem shape_isOk_iff : (∃ s, shape m bound = .ok s) ↔ InShape m bound := by
  constructor
  · rintro ⟨⟨shaped, d⟩, h⟩ b hb
    obtain ⟨hmap, hshaped⟩ := shape_ok h fun p hp => by cases hp
    rw [List.map_nil, List.nil_append] at hmap
    rw [← hmap] at hb
    obtain ⟨p, hp, rfl⟩ := List.mem_map.mp hb
    exact ⟨p.2, (hshaped p hp).measure, (hshaped p hp).length⟩
  · intro h
    exact shape_progress h _

/-- The cells of shaped rows are those of their entries. -/
theorem filterMap_boundCell {cal : Calendar} {items : Items} {shaped : List (BoundRows × Measure)}
    {d : Distinct} (hshaped : ∀ p ∈ shaped, Shaped m p d)
    (hfound : ∀ p ∈ shaped, ∀ row ∈ p.1.rows, Found items p.2.categories row) :
    (allRows shaped).filterMap (boundCell cal items) =
      (entries cal m (shaped.map (·.1))).map (cellAt items) := by
  unfold entries allRows
  induction shaped with
  | nil => rfl
  | cons p shaped ih =>
      have hrows : (p.1.rows.map fun row => (p, row)).filterMap (boundCell cal items) =
          (entriesOf cal m p.1).map (cellAt items) := by
        unfold entriesOf
        rw [(hshaped p List.mem_cons_self).measure, List.filterMap_map]
        simp only [List.map_filterMap]
        apply List.filterMap_congr
        intro row hrow
        change (rowCell cal items p.2.categories row).map _ = _
        rw [rowCell_eq (hfound p List.mem_cons_self row hrow) p.1.measureId, Option.map_map]
        unfold entryOf
        cases rowNames row.1 with
        | none => rfl
        | some names =>
            cases row.2.bind (toValue cal) with
            | none => rfl
            | some v => rfl
      rw [List.flatMap_cons, List.filterMap_append, List.map_cons, List.flatMap_cons,
        List.map_append, hrows, ih (fun q hq => hshaped q (List.mem_cons_of_mem p hq))
          fun q hq => hfound q (List.mem_cons_of_mem p hq)]

end Shape

/-! ## Loading -/

/-- The rows of the bindings hold values a cell can hold, no two by one name. -/
def Clean (cal : Calendar) (m : Model) (bound : List BoundRows) : Prop :=
  (∀ b ∈ bound, ∀ row ∈ b.rows, Held cal row) ∧ ((entries cal m bound).map Prod.fst).Nodup

/-- Names that are found as different items are placed at different
coordinates. -/
theorem place_injective {items : Items}
    (hinj : ∀ c n n' i, items.find c n = some i → items.find c n' = some i → n = n')
    {names names' : SortedMap CategoryId String}
    (h : ∀ c n, names.get? c = some n → ∃ i, items.find c n = some i)
    (h' : ∀ c n, names'.get? c = some n → ∃ i, items.find c n = some i)
    (heq : place items names = place items names') : names = names' := by
  ext1 c
  have hc := congrArg (fun k => k.get? c) heq
  simp only [get?_place] at hc
  cases hn : names.get? c with
  | none =>
      rw [hn, Option.map_none, eq_comm, Option.map_eq_none_iff] at hc
      exact hc.symm
  | some n =>
      rw [hn, Option.map_some, eq_comm, Option.map_eq_some_iff] at hc
      obtain ⟨n', hn', hi⟩ := hc
      obtain ⟨i, hfind⟩ := h c n hn
      obtain ⟨j, hfind'⟩ := h' c n' hn'
      rw [hfind, hfind', Option.getD_some, Option.getD_some] at hi
      rw [hn', hinj c n n' i hfind (hi ▸ hfind')]

/-- The names of an entry are used. -/
theorem uses_of_mem_entries {cal : Calendar} {m : Model} {bound : List BoundRows} {e : Entry}
    (he : e ∈ entries cal m bound) {c : CategoryId} {n : String} (hn : e.1.2.get? c = some n) :
    Uses m bound c n := by
  obtain ⟨b, hb, he⟩ := List.mem_flatMap.mp he
  unfold entriesOf at he
  cases hx : m.measures.get? ⟨b.measureId⟩ with
  | none =>
      rw [hx] at he
      cases he
  | some x =>
      simp only [hx, List.mem_filterMap] at he
      obtain ⟨row, hrow, he⟩ := he
      refine ⟨b, hb, x, hx, row, hrow, ?_⟩
      unfold entryOf at he
      cases hnames : rowNames row.1 with
      | none =>
          rw [hnames] at he
          cases he
      | some names =>
          rw [hnames] at he
          cases hv : row.2.bind (toValue cal) with
          | none =>
              rw [hv] at he
              cases he
          | some v =>
              rw [hv] at he
              cases he
              have hmem : (c, n) ∈ x.categories.zip names := by
                have hfold : ∀ (ps : List (CategoryId × String)) (s : SortedMap CategoryId String),
                    (ps.foldl (fun s p => s.insert p.1 p.2) s).get? c = some n →
                      s.get? c = some n ∨ (c, n) ∈ ps := by
                  intro ps
                  induction ps with
                  | nil => exact fun s h => .inl h
                  | cons p ps ih =>
                      intro s h
                      rcases ih _ h with hold | hmem
                      · rw [SortedMap.get?_insert] at hold
                        split at hold
                        · rename_i hc
                          cases hold
                          exact .inr (List.mem_cons.mpr (.inl (Prod.ext hc rfl)))
                        · exact .inl hold
                      · exact .inr (List.mem_cons_of_mem p hmem)
                rcases hfold _ _ hn with hempty | hmem
                · cases hempty
                · exact hmem
              rw [rowNames_eq_some_iff.mp hnames, List.zip_map_right]
              exact List.mem_map.mpr ⟨(c, n), hmem, rfl⟩

section Loads

variable {cal : Calendar} {m : Model} {bound : List BoundRows} {it : ItemInterner}
  {shaped : List (BoundRows × Measure)} {d : Distinct}

/-- What the rows of a shape load to, their names interned as different items:
the cells of their entries, where they are clean. -/
theorem loadCells_spec (hshape : shape m bound = .ok (shaped, d))
    (hknown : ∀ c n, Uses m bound c n → ∃ i, it.map.find c n = some i)
    (hinj : ∀ c n n' i, it.map.find c n = some i → it.map.find c n' = some i → n = n') :
    (Clean cal m bound ∧ ∃ cells nulls, loadCells cal it shaped = .ok (cells, nulls) ∧
      cells.size = (entries cal m bound).length ∧
      (((entries cal m bound).map (cellAt it.map)).map Prod.fst).Nodup ∧
      ∀ k v, cells.get? k = some v ↔ (k, v) ∈ (entries cal m bound).map (cellAt it.map)) ∨
    (¬Clean cal m bound ∧ ∃ e, loadCells cal it shaped = .error e) := by
  obtain ⟨hmap, hshaped⟩ := shape_ok hshape fun p hp => by cases hp
  rw [List.map_nil, List.nil_append] at hmap
  have hkeys := mem_shape_keys hshape
  have hnames : ∀ c n, toLex (c, n) ∈ d.keys → ∃ i, it.map.find c n = some i := by
    intro c n hmem
    rcases (hkeys _).mp hmem with hempty | huse
    · cases hempty
    · exact hknown c n huse
  have hfound : ∀ p ∈ shaped, ∀ row ∈ p.1.rows, Found it.map p.2.categories row :=
    fun p hp row hrow => (hshaped p hp).found hnames hrow
  have hcells := @filterMap_boundCell m cal _ _ _ hshaped hfound
  rw [hmap] at hcells
  have hnodup : (((allRows shaped).filterMap (boundCell cal it.map)).map (·.1)).Nodup ↔
      ((entries cal m bound).map Prod.fst).Nodup := by
    have hfst : ((entries cal m bound).map (cellAt it.map)).map (·.1) =
        ((entries cal m bound).map Prod.fst).map fun k => ⟨k.1, place it.map k.2⟩ := by
      rw [List.map_map, List.map_map]
      rfl
    rw [hcells, hfst]
    refine ⟨List.Nodup.of_map _, fun h => (List.nodup_map_iff_inj_on h).mpr ?_⟩
    rintro ⟨μ, names⟩ hk ⟨μ', names'⟩ hk' heq
    obtain ⟨e, he, hek⟩ := List.mem_map.mp hk
    obtain ⟨e', he', hek'⟩ := List.mem_map.mp hk'
    obtain ⟨rfl, hplace⟩ := Cell.mk.inj heq
    have hnames : names = names' := place_injective hinj
      (fun c n hn => hknown c n (uses_of_mem_entries he (by rw [hek]; exact hn)))
      (fun c n hn => hknown c n (uses_of_mem_entries he' (by rw [hek']; exact hn))) hplace
    rw [hnames]
  have hheld : (∀ p ∈ shaped, ∀ row ∈ p.1.rows, Held cal row) ↔
      ∀ b ∈ bound, ∀ row ∈ b.rows, Held cal row := by
    rw [← hmap]
    simp
  cases hload : loadCells cal it shaped with
  | ok s =>
      obtain ⟨hall, hshows⟩ := loadCells_shows [] hfound hload (Shows.nil _)
      rw [List.append_nil] at hshows
      have hview : ∀ k v, s.1.get? k = some v ↔
          (k, v) ∈ (entries cal m bound).map (cellAt it.map) := by
        intro k v
        rw [hshows.view, hcells]
      have hsize : s.1.size = (entries cal m bound).length := by
        have hkeyed : s.1.entries.Nodup := s.1.nodup_keys.of_map
        have hlisted : ((entries cal m bound).map (cellAt it.map)).Nodup := by
          rw [← hcells]
          exact hshows.keys.of_map
        have hperm := (List.perm_ext_iff_of_nodup hkeyed hlisted).mpr fun p =>
          SortedMap.get?_eq_some_iff.symm.trans (hview p.1 p.2)
        rw [← List.length_map (cellAt it.map)]
        exact hperm.length_eq
      have hkeys := hshows.keys
      rw [hcells] at hkeys
      exact .inl ⟨⟨hheld.mp hall, hnodup.mp hshows.keys⟩, s.1, s.2, rfl, hsize, hkeys, hview⟩
  | error e =>
      refine .inr ⟨fun hclean => ?_, e, rfl⟩
      obtain ⟨s', hs'⟩ := loadCells_progress (s := (.empty, 0)) [] hfound
        (hheld.mpr hclean.1) (Shows.nil _) (by
          rw [List.append_nil]
          exact hnodup.mpr hclean.2)
      unfold loadCells at hload
      rw [hs'] at hload
      cases hload

end Loads

/-! ## Orders of the data -/

/-- The same bindings in another order, the rows of each in another order. -/
def Reordered (bound bound' : List BoundRows) : Prop :=
  ∃ mid, bound.Perm mid ∧
    List.Forall₂ (fun b b' => b.measureId = b'.measureId ∧ b.rows.Perm b'.rows) mid bound'

theorem Reordered.refl (bound : List BoundRows) : Reordered bound bound :=
  ⟨bound, .refl _, List.forall₂_same.mpr fun _ _ => ⟨rfl, .refl _⟩⟩

section Orders

variable {bound bound' : List BoundRows} {m : Model} {cal : Calendar}

/-- Every binding of the one has its counterpart in the other. -/
theorem Reordered.exists_right (h : Reordered bound bound') {b : BoundRows} (hb : b ∈ bound) :
    ∃ b' ∈ bound', b.measureId = b'.measureId ∧ b.rows.Perm b'.rows := by
  obtain ⟨mid, hmid, hrows⟩ := h
  exact exists_of_mem_left hrows (hmid.mem_iff.mp hb)

theorem Reordered.exists_left (h : Reordered bound bound') {b' : BoundRows} (hb : b' ∈ bound') :
    ∃ b ∈ bound, b.measureId = b'.measureId ∧ b.rows.Perm b'.rows := by
  obtain ⟨mid, hmid, hrows⟩ := h
  obtain ⟨b, hmem, hsame⟩ := exists_of_mem_left hrows.flip hb
  exact ⟨b, hmid.mem_iff.mpr hmem, hsame⟩

theorem Reordered.inShape_iff (h : Reordered bound bound') :
    InShape m bound ↔ InShape m bound' := by
  constructor
  · intro hshape b' hb'
    obtain ⟨b, hb, hid, hrows⟩ := h.exists_left hb'
    obtain ⟨x, hx, hlength⟩ := hshape b hb
    exact ⟨x, hid ▸ hx, fun row hrow => hlength row (hrows.mem_iff.mpr hrow)⟩
  · intro hshape b hb
    obtain ⟨b', hb', hid, hrows⟩ := h.exists_right hb
    obtain ⟨x, hx, hlength⟩ := hshape b' hb'
    exact ⟨x, hid ▸ hx, fun row hrow => hlength row (hrows.mem_iff.mp hrow)⟩

theorem Reordered.uses_iff (h : Reordered bound bound') {c : CategoryId} {n : String} :
    Uses m bound c n ↔ Uses m bound' c n := by
  constructor
  · rintro ⟨b, hb, x, hx, row, hrow, hmem⟩
    obtain ⟨b', hb', hid, hrows⟩ := h.exists_right hb
    exact ⟨b', hb', x, hid ▸ hx, row, hrows.mem_iff.mp hrow, hmem⟩
  · rintro ⟨b', hb', x, hx, row, hrow, hmem⟩
    obtain ⟨b, hb, hid, hrows⟩ := h.exists_left hb'
    exact ⟨b, hb, x, hid ▸ hx, row, hrows.mem_iff.mpr hrow, hmem⟩

theorem Reordered.entries_perm (h : Reordered bound bound') :
    (entries cal m bound).Perm (entries cal m bound') := by
  obtain ⟨mid, hmid, hrows⟩ := h
  refine (hmid.flatMap_right _).trans ?_
  clear hmid
  induction hrows with
  | nil => exact .nil
  | @cons b b' bs bs' hb _ ih =>
      have hone : (entriesOf cal m b).Perm (entriesOf cal m b') := by
        unfold entriesOf
        rw [hb.1]
        cases m.measures.get? ⟨b'.measureId⟩ with
        | none => exact .nil
        | some x => exact hb.2.filterMap _
      exact hone.append ih

theorem Reordered.clean_iff (h : Reordered bound bound') :
    Clean cal m bound ↔ Clean cal m bound' := by
  have hheld : (∀ b ∈ bound, ∀ row ∈ b.rows, Held cal row) ↔
      ∀ b ∈ bound', ∀ row ∈ b.rows, Held cal row := by
    constructor
    · intro hall b' hb' row hrow
      obtain ⟨b, hb, -, hrows⟩ := h.exists_left hb'
      exact hall b hb row (hrows.mem_iff.mpr hrow)
    · intro hall b hb row hrow
      obtain ⟨b', hb', -, hrows⟩ := h.exists_right hb
      exact hall b' hb' row (hrows.mem_iff.mp hrow)
  unfold Clean
  rw [hheld, (h.entries_perm.map Prod.fst).nodup_iff]

end Orders

end Improv.PgModel
