import Improv.Lib.Differences
import Improv.PgModel.Names
/-!
# What a load shows

The cells of a loaded model are the keyed view of its bound rows, and rows whose
view some cells are load to those cells.
-/

namespace Improv.PgModel

open Improv.Lib Improv.CoreModel Improv.Engine

/-- A row of a bound table, as the loader reads it. -/
abbrev ReadRow := List (Option String) × Option CellValue

/-- The coordinate of some names, none where a name has no item. -/
def coordinate (items : Items) (cats : List CategoryId) (names : List String) :
    Option Coordinate :=
  ((cats.zip names).mapM fun p => (items.find p.1 p.2).map (p.1, ·)).map .fromPairs

/-- The entry a row makes: its coordinate and value. -/
def rowCell (cal : Calendar) (items : Items) (cats : List CategoryId) (row : ReadRow) :
    Option (Coordinate × Value) :=
  match rowNames row.1, row.2.bind (toValue cal) with
  | some names, some v => (coordinate items cats names).map (·, v)
  | _, _ => none

/-- Every name of a row without a NULL dimension has an item. -/
def Found (items : Items) (cats : List CategoryId) (row : ReadRow) : Prop :=
  ∀ names, rowNames row.1 = some names → (coordinate items cats names).isSome = true

/-- The value of a row without a NULL dimension is one a cell can hold. -/
def Held (cal : Calendar) (row : ReadRow) : Prop :=
  ∀ names v, rowNames row.1 = some names → row.2 = some v → (toValue cal v).isSome = true

/-- A measure's cells are the view of some rows, each of which loads. -/
structure Fits (cal : Calendar) (items : Items) (cats : List CategoryId) (measure : MeasureId)
    (inputs : SortedMap Cell Value) (rows : List ReadRow) : Prop where
  length : ∀ row ∈ rows, row.1.length = cats.length
  found : ∀ row ∈ rows, Found items cats row
  held : ∀ row ∈ rows, Held cal row
  shows : Shows (rowCell cal items cats) (fun c => inputs.get? ⟨measure, c⟩) rows

/-! ## Coordinates -/

theorem mapM_eq_some_map {α β : Type} {f : α → Option β} {g : α → β} {as : List α}
    (h : ∀ a ∈ as, f a = some (g a)) : as.mapM f = some (as.map g) := by
  induction as with
  | nil => rfl
  | cons a as ih =>
      rw [List.mapM_cons, h a List.mem_cons_self, ih fun b hb => h b (List.mem_cons_of_mem a hb)]
      rfl

theorem forall_of_mapM {α β : Type} {f : α → Option β} {as : List α} {bs : List β}
    (h : as.mapM f = some bs) : ∀ a ∈ as, ∃ b, f a = some b := by
  induction as generalizing bs with
  | nil => simp
  | cons a as ih =>
      rw [List.mapM_cons, Option.bind_eq_bind, Option.bind_eq_some_iff] at h
      obtain ⟨b, hb, h⟩ := h
      rw [Option.bind_eq_bind, Option.bind_eq_some_iff] at h
      obtain ⟨bs', hbs, _⟩ := h
      intro a' ha'
      rcases List.mem_cons.mp ha' with rfl | ha'
      · exact ⟨b, hb⟩
      · exact ih hbs a' ha'

theorem coordinate_isSome_iff {items : Items} {cats : List CategoryId} {names : List String} :
    (coordinate items cats names).isSome = true ↔
      ∀ p ∈ cats.zip names, ∃ i, items.find p.1 p.2 = some i := by
  unfold coordinate
  rw [Option.isSome_map]
  constructor
  · intro h p hp
    obtain ⟨bs, hbs⟩ := Option.isSome_iff_exists.mp h
    obtain ⟨b, hb⟩ := forall_of_mapM hbs p hp
    obtain ⟨i, hi, _⟩ := Option.map_eq_some_iff.mp hb
    exact ⟨i, hi⟩
  · intro h
    have hmap : (cats.zip names).mapM (fun p => (items.find p.1 p.2).map (p.1, ·)) =
        some ((cats.zip names).map fun p => (p.1, (items.find p.1 p.2).getD ⟨0⟩)) := by
      apply mapM_eq_some_map
      intro p hp
      obtain ⟨i, hi⟩ := h p hp
      rw [hi]
      rfl
    rw [hmap]
    rfl

/-- Where names have items, more items change nothing. -/
theorem coordinate_extends {items items' : Items} (h : items.Extends items')
    {cats : List CategoryId} {names : List String} {c : Coordinate}
    (hc : coordinate items cats names = some c) : coordinate items' cats names = some c := by
  have hfound := coordinate_isSome_iff.mp (by rw [hc]; rfl)
  have hmap : ∀ {I : Items}, items.Extends I →
      (cats.zip names).mapM (fun p => (I.find p.1 p.2).map (p.1, ·)) =
        some ((cats.zip names).map fun p => (p.1, (items.find p.1 p.2).getD ⟨0⟩)) := by
    intro I hI
    apply mapM_eq_some_map
    intro p hp
    obtain ⟨i, hi⟩ := hfound p hp
    rw [hI _ _ i hi, hi]
    rfl
  unfold coordinate at hc ⊢
  rw [hmap h]
  rw [hmap fun _ _ _ h => h] at hc
  exact hc

theorem rowCell_extends {cal : Calendar} {items items' : Items} (h : items.Extends items')
    {cats : List CategoryId} {row : ReadRow} (hfound : Found items cats row) :
    rowCell cal items' cats row = rowCell cal items cats row := by
  unfold rowCell
  cases hnames : rowNames row.1 with
  | none => rfl
  | some names =>
      obtain ⟨c, hc⟩ := Option.isSome_iff_exists.mp (hfound names hnames)
      cases row.2.bind (toValue cal) with
      | none => rfl
      | some v => simp only [hc, coordinate_extends h hc]

theorem Found.mono {items items' : Items} (h : items.Extends items') {cats : List CategoryId}
    {row : ReadRow} (hfound : Found items cats row) : Found items' cats row := by
  intro names hnames
  obtain ⟨c, hc⟩ := Option.isSome_iff_exists.mp (hfound names hnames)
  rw [coordinate_extends h hc]
  rfl

/-- Items minted later change nothing of what a measure's cells are. -/
theorem Fits.mono {cal : Calendar} {items items' : Items} (h : items.Extends items')
    {cats : List CategoryId} {measure : MeasureId} {inputs : SortedMap Cell Value}
    {rows : List ReadRow} (hfits : Fits cal items cats measure inputs rows) :
    Fits cal items' cats measure inputs rows := by
  have hcells : rows.filterMap (rowCell cal items' cats) =
      rows.filterMap (rowCell cal items cats) :=
    List.filterMap_congr fun row hrow => rowCell_extends h (hfits.found row hrow)
  refine ⟨hfits.length, fun row hrow => (hfits.found row hrow).mono h, hfits.held, ?_, ?_⟩
  · rw [hcells]
    exact hfits.shows.keys
  · intro k a
    rw [hcells]
    exact hfits.shows.view k a

theorem Fits.perm {cal : Calendar} {items : Items} {cats : List CategoryId} {measure : MeasureId}
    {inputs : SortedMap Cell Value} {rows rows' : List ReadRow}
    (h : Fits cal items cats measure inputs rows) (hrows : rows.Perm rows') :
    Fits cal items cats measure inputs rows' where
  length := fun row hrow => h.length row (hrows.mem_iff.mpr hrow)
  found := fun row hrow => h.found row (hrows.mem_iff.mpr hrow)
  held := fun row hrow => h.held row (hrows.mem_iff.mpr hrow)
  shows := h.shows.perm hrows

/-! ## One row -/

section Rows

variable {cal : Calendar} {it : ItemInterner} {b : BoundRows} {x : Measure}
  {s s' : SortedMap Cell Value × Nat} {row : ReadRow}

theorem interned_coordinate {cats : List CategoryId} {names : List String} {c : Coordinate}
    (hc : coordinate it.map cats names = some c) :
    Coordinate.fromPairs ((cats.zip names).map fun p => (p.1, (it.intern p.1 p.2).2)) = c := by
  have hfound := coordinate_isSome_iff.mp (by rw [hc]; rfl)
  have hmap : (cats.zip names).mapM (fun p => (it.map.find p.1 p.2).map (p.1, ·)) =
      some ((cats.zip names).map fun p => (p.1, (it.intern p.1 p.2).2)) := by
    apply mapM_eq_some_map
    intro p hp
    obtain ⟨i, hi⟩ := hfound p hp
    rw [ItemInterner.intern_of_find hi, hi]
    rfl
  unfold coordinate at hc
  rw [hmap, Option.map_some, Option.some.injEq] at hc
  exact hc

/-- A row loaded: it makes no entry, or one at a free coordinate. -/
theorem loadRow_ok (hfound : Found it.map x.categories row)
    (h : loadRow cal it b x s row = .ok s') :
    Held cal row ∧
      (rowCell cal it.map x.categories row = none ∧ s'.1 = s.1 ∨
        ∃ c v, rowCell cal it.map x.categories row = some (c, v) ∧
          s.1.get? ⟨⟨b.measureId⟩, c⟩ = none ∧
          s'.1 = s.1.insert ⟨⟨b.measureId⟩, c⟩ v) := by
  unfold loadRow at h
  unfold Held rowCell
  cases hnames : rowNames row.1 with
  | none =>
      simp only [hnames] at h
      cases h
      exact ⟨fun _ _ hnone => (by cases hnone), .inl ⟨rfl, rfl⟩⟩
  | some names =>
      obtain ⟨c, hc⟩ := Option.isSome_iff_exists.mp (hfound names hnames)
      cases hv : row.2 with
      | none =>
          simp only [hnames, hv] at h
          cases h
          exact ⟨fun _ _ _ hnone => (by cases hnone), .inl ⟨rfl, rfl⟩⟩
      | some v =>
          simp only [hnames, hv] at h
          cases hval : toValue cal v with
          | none => simp [hval] at h
          | some w =>
              simp only [hval, interned_coordinate hc, ite_error_eq_ok_iff] at h
              obtain ⟨hfree, h⟩ := h
              cases h
              refine ⟨fun _ v' _ hv' => ?_, .inr ⟨c, w, ?_, ?_, rfl⟩⟩
              · cases hv'
                rw [hval]
                rfl
              · simp only [Option.bind_some, hval, hc, Option.map_some]
              · simpa [SortedMap.contains] using hfree

/-- A row that can be held loads where its coordinate is free. -/
theorem loadRow_progress (hfound : Found it.map x.categories row) (hheld : Held cal row)
    (hfree : ∀ c v, rowCell cal it.map x.categories row = some (c, v) →
      s.1.get? ⟨⟨b.measureId⟩, c⟩ = none) :
    ∃ s', loadRow cal it b x s row = .ok s' := by
  unfold loadRow
  unfold rowCell at hfree
  cases hnames : rowNames row.1 with
  | none => exact ⟨_, rfl⟩
  | some names =>
      obtain ⟨c, hc⟩ := Option.isSome_iff_exists.mp (hfound names hnames)
      cases hv : row.2 with
      | none => exact ⟨_, rfl⟩
      | some v =>
          obtain ⟨w, hw⟩ := Option.isSome_iff_exists.mp (hheld names v hnames hv)
          have hnone := hfree c w (by
            simp only [hnames, hv, Option.bind_some, hw, hc, Option.map_some])
          simp only [hw, interned_coordinate hc, SortedMap.contains, hnone, Option.isSome_none,
            Bool.false_eq_true, if_false]
          exact ⟨_, rfl⟩

/-! ## All the rows -/

/-- The entry of a binding's row among all the cells. -/
def boundCell (cal : Calendar) (items : Items) (p : (BoundRows × Measure) × ReadRow) :
    Option (Cell × Value) :=
  (rowCell cal items p.1.2.categories p.2).map fun e => (⟨⟨p.1.1.measureId⟩, e.1⟩, e.2)

/-- Every binding's rows. -/
def allRows (shaped : List (BoundRows × Measure)) : List ((BoundRows × Measure) × ReadRow) :=
  shaped.flatMap fun b => b.1.rows.map fun row => (b, row)

theorem get?_insert_eq_update {κ α : Type} [LinearOrder κ] [DecidableEq κ] (m : SortedMap κ α)
    (k : κ) (a : α) :
    (m.insert k a).get? = Function.update m.get? k (some a) := by
  funext j
  rw [SortedMap.get?_insert]
  by_cases hj : j = k
  · rw [if_pos hj, hj, Function.update_self]
  · rw [if_neg hj, Function.update_of_ne hj]

theorem loadRow_shows {p : BoundRows × Measure} {done : List ((BoundRows × Measure) × ReadRow)}
    (hfound : Found it.map p.2.categories row) (h : loadRow cal it p.1 p.2 s row = .ok s')
    (hs : Shows (boundCell cal it.map) s.1.get? done) :
    Held cal row ∧ Shows (boundCell cal it.map) s'.1.get? ((p, row) :: done) := by
  obtain ⟨hheld, hnone | ⟨c, v, hcell, hfree, hinsert⟩⟩ := loadRow_ok hfound h
  · refine ⟨hheld, (Shows.cons_none ?_).mpr ?_⟩
    · unfold boundCell
      rw [hnone.1]
      rfl
    · rw [hnone.2]
      exact hs
  · refine ⟨hheld, ?_⟩
    rw [hinsert, get?_insert_eq_update]
    apply hs.insert
    · unfold boundCell
      rw [hcell]
      rfl
    · exact hfree

/-- Rows loaded one after the other: each can be held, and the cells are their
view. -/
theorem loadRows_shows {p : BoundRows × Measure} {rows : List ReadRow}
    {done : List ((BoundRows × Measure) × ReadRow)}
    (hfound : ∀ row ∈ rows, Found it.map p.2.categories row)
    (h : rows.foldlM (loadRow cal it p.1 p.2) s = .ok s')
    (hs : Shows (boundCell cal it.map) s.1.get? done) :
    (∀ row ∈ rows, Held cal row) ∧
      Shows (boundCell cal it.map) s'.1.get? (rows.map (fun row => (p, row)) ++ done) := by
  induction rows generalizing s done with
  | nil =>
      cases h
      exact ⟨fun _ hrow => (by cases hrow), hs⟩
  | cons row rows ih =>
      rw [List.foldlM_cons, bind_eq_ok_iff] at h
      obtain ⟨t, ht, h⟩ := h
      obtain ⟨hheld, hst⟩ := loadRow_shows (hfound row List.mem_cons_self) ht hs
      obtain ⟨hrest, hshows⟩ := ih (fun r hr => hfound r (List.mem_cons_of_mem row hr)) h hst
      refine ⟨fun r hr => ?_, hshows.perm ?_⟩
      · rcases List.mem_cons.mp hr with rfl | hr
        · exact hheld
        · exact hrest r hr
      · exact List.perm_middle

theorem loadCells_shows {shaped : List (BoundRows × Measure)}
    (done : List ((BoundRows × Measure) × ReadRow))
    (hfound : ∀ p ∈ shaped, ∀ row ∈ p.1.rows, Found it.map p.2.categories row)
    (h : shaped.foldlM (fun s b => b.1.rows.foldlM (loadRow cal it b.1 b.2) s) s = .ok s')
    (hs : Shows (boundCell cal it.map) s.1.get? done) :
    (∀ p ∈ shaped, ∀ row ∈ p.1.rows, Held cal row) ∧
      Shows (boundCell cal it.map) s'.1.get? (allRows shaped ++ done) := by
  induction shaped generalizing s done with
  | nil =>
      cases h
      exact ⟨fun _ hp => (by cases hp), hs⟩
  | cons p shaped ih =>
      rw [List.foldlM_cons, bind_eq_ok_iff] at h
      obtain ⟨t, ht, h⟩ := h
      obtain ⟨hheld, hst⟩ := loadRows_shows (hfound p List.mem_cons_self) ht hs
      obtain ⟨hrest, hshows⟩ := ih _ (fun q hq => hfound q (List.mem_cons_of_mem p hq)) h hst
      refine ⟨fun q hq => ?_, hshows.perm ?_⟩
      · rcases List.mem_cons.mp hq with rfl | hq
        · exact hheld
        · exact hrest q hq
      · unfold allRows
        rw [List.flatMap_cons, ← List.append_assoc]
        exact List.perm_append_comm.append_right done

/-- Rows whose entries are at different coordinates load. -/
theorem loadCells_progress {shaped : List (BoundRows × Measure)}
    (done : List ((BoundRows × Measure) × ReadRow))
    (hfound : ∀ p ∈ shaped, ∀ row ∈ p.1.rows, Found it.map p.2.categories row)
    (hheld : ∀ p ∈ shaped, ∀ row ∈ p.1.rows, Held cal row)
    (hs : Shows (boundCell cal it.map) s.1.get? done)
    (hkeys : (((allRows shaped ++ done).filterMap (boundCell cal it.map)).map (·.1)).Nodup) :
    ∃ s', shaped.foldlM (fun s b => b.1.rows.foldlM (loadRow cal it b.1 b.2) s) s = .ok s' := by
  have hrows : ∀ (p : BoundRows × Measure) (rows : List ReadRow)
      (s : SortedMap Cell Value × Nat) (done : List ((BoundRows × Measure) × ReadRow)),
      (∀ row ∈ rows, Found it.map p.2.categories row) → (∀ row ∈ rows, Held cal row) →
      Shows (boundCell cal it.map) s.1.get? done →
      (((rows.map (fun row => (p, row)) ++ done).filterMap
        (boundCell cal it.map)).map (·.1)).Nodup →
      ∃ s', rows.foldlM (loadRow cal it p.1 p.2) s = .ok s' := by
    intro p rows
    induction rows with
    | nil =>
        intro s done _ _ _ _
        exact ⟨s, rfl⟩
    | cons row rows ih =>
        intro s done hfound hheld hs hkeys
        have hperm : (((row :: rows).map (fun row => (p, row)) ++ done)).Perm
            (rows.map (fun row => (p, row)) ++ (p, row) :: done) := List.perm_middle.symm
        have hkeys' := (((hperm.filterMap (boundCell cal it.map)).map (·.1)).nodup_iff).mp hkeys
        have hfree : ∀ c v, rowCell cal it.map p.2.categories row = some (c, v) →
            s.1.get? ⟨⟨p.1.measureId⟩, c⟩ = none := by
          intro c v hcell
          by_contra hsome
          obtain ⟨w, hw⟩ := Option.ne_none_iff_exists'.mp hsome
          have hmem := (hs.view _ _).mp hw
          have hentry : boundCell cal it.map (p, row) = some (⟨⟨p.1.measureId⟩, c⟩, v) := by
            unfold boundCell
            rw [hcell]
            rfl
          rw [List.filterMap_append, List.filterMap_cons, hentry, List.map_append,
            List.nodup_append] at hkeys'
          have hnodup := hkeys'.2.1
          rw [List.map_cons, List.nodup_cons] at hnodup
          exact hnodup.1 (List.mem_map.mpr ⟨_, hmem, rfl⟩)
        obtain ⟨t, ht⟩ := loadRow_progress (hfound row List.mem_cons_self)
          (hheld row List.mem_cons_self) hfree
        obtain ⟨_, hst⟩ := loadRow_shows (hfound row List.mem_cons_self) ht hs
        obtain ⟨s', hs'⟩ := ih t _ (fun r hr => hfound r (List.mem_cons_of_mem row hr))
          (fun r hr => hheld r (List.mem_cons_of_mem row hr)) hst hkeys'
        refine ⟨s', ?_⟩
        rw [List.foldlM_cons, ht]
        exact hs'
  induction shaped generalizing s done with
  | nil => exact ⟨s, rfl⟩
  | cons p shaped ih =>
      have hperm : (allRows (p :: shaped) ++ done).Perm
          (allRows shaped ++ (p.1.rows.map (fun row => (p, row)) ++ done)) := by
        unfold allRows
        rw [List.flatMap_cons, ← List.append_assoc]
        exact List.perm_append_comm.append_right done
      have hkeys' := (((hperm.filterMap (boundCell cal it.map)).map (·.1)).nodup_iff).mp hkeys
      have htail := hkeys'
      rw [List.filterMap_append, List.map_append, List.nodup_append] at htail
      obtain ⟨t, ht⟩ := hrows p p.1.rows s done (hfound p List.mem_cons_self)
        (hheld p List.mem_cons_self) hs htail.2.1
      obtain ⟨_, hst⟩ := loadRows_shows (hfound p List.mem_cons_self) ht hs
      obtain ⟨s', hs'⟩ := ih _ (fun q hq => hfound q (List.mem_cons_of_mem p hq))
        (fun q hq => hheld q (List.mem_cons_of_mem p hq)) hst hkeys'
      refine ⟨s', ?_⟩
      rw [List.foldlM_cons, ht]
      exact hs'

end Rows

/-! ## The shape of the bindings -/

section Shape

variable {m : Model} {bound : List BoundRows}

theorem rowNames_eq_some_iff {dims : List (Option String)} {names : List String} :
    rowNames dims = some names ↔ dims = names.map some := by
  unfold rowNames
  induction dims generalizing names with
  | nil =>
      rw [List.mapM_nil]
      constructor
      · intro h
        cases h
        rfl
      · intro h
        rw [List.map_eq_nil_iff.mp h.symm]
        rfl
  | cons d dims ih =>
      rw [List.mapM_cons, Option.bind_eq_bind, Option.bind_eq_some_iff]
      constructor
      · rintro ⟨n, hn, h⟩
        rw [Option.bind_eq_bind, Option.bind_eq_some_iff] at h
        obtain ⟨ns, hns, h⟩ := h
        cases h
        rw [ih.mp hns, List.map_cons, ← hn]
        rfl
      · intro h
        cases names with
        | nil => cases h
        | cons n ns =>
            rw [List.map_cons, List.cons.injEq] at h
            refine ⟨n, h.1, ?_⟩
            rw [Option.bind_eq_bind, ih.mpr h.2]
            rfl

theorem keys_distinctRow (cats : List CategoryId) (dims : List (Option String)) (d : Distinct)
    (k : CategoryId ×ₗ String) :
    k ∈ (distinctRow cats dims d).keys ↔
      k ∈ d.keys ∨ ((ofLex k).1, some (ofLex k).2) ∈ cats.zip dims := by
  unfold distinctRow
  induction cats.zip dims generalizing d with
  | nil => simp
  | cons p ps ih =>
      obtain ⟨c, dim⟩ := p
      rw [List.foldl_cons, ih, List.mem_cons]
      cases dim with
      | none => simp
      | some n =>
          rw [SortedMap.mem_keys_insert, Prod.mk.injEq, Option.some.injEq]
          constructor
          · rintro ((rfl | hd) | hps)
            · exact .inr (.inl ⟨rfl, rfl⟩)
            · exact .inl hd
            · exact .inr (.inr hps)
          · rintro (hd | ⟨hc, hn⟩ | hps)
            · exact .inl (.inr hd)
            · refine .inl (.inl ?_)
              rw [← hc, ← hn]
              rfl
            · exact .inr hps

theorem keys_distinctRows {cats : List CategoryId} {rows : List ReadRow} (d : Distinct)
    (k : CategoryId ×ₗ String) :
    k ∈ (rows.foldl (fun d row => distinctRow cats row.1 d) d).keys ↔
      k ∈ d.keys ∨ ∃ row ∈ rows, ((ofLex k).1, some (ofLex k).2) ∈ cats.zip row.1 := by
  induction rows generalizing d with
  | nil => simp
  | cons row rows ih =>
      rw [List.foldl_cons, ih, keys_distinctRow, List.exists_mem_cons_iff, or_assoc]

/-- Bindings in shape: each with its measure, rows of its length, and names that
are among the distinct ones. -/
structure Shaped (m : Model) (p : BoundRows × Measure) (d : Distinct) : Prop where
  measure : m.measures.get? ⟨p.1.measureId⟩ = some p.2
  length : ∀ row ∈ p.1.rows, row.1.length = p.2.categories.length
  names : ∀ row ∈ p.1.rows, ∀ c n, (c, some n) ∈ p.2.categories.zip row.1 →
    toLex (c, n) ∈ d.keys

theorem shapeRows_ok {d d' : Distinct} {b : BoundRows} {x : Measure}
    (h : shapeRows m d b = .ok (x, d')) :
    Shaped m (b, x) d' ∧ ∀ k ∈ d.keys, k ∈ d'.keys := by
  unfold shapeRows at h
  cases hx : m.measures.get? ⟨b.measureId⟩ with
  | none => simp [hx] at h
  | some y =>
      simp only [hx] at h
      cases hfind : b.rows.find? fun row => row.1.length ≠ y.categories.length with
      | some row =>
          rw [hfind] at h
          cases h
      | none =>
          rw [hfind] at h
          simp only [Except.ok.injEq, Prod.mk.injEq] at h
          obtain ⟨rfl, rfl⟩ := h
          rw [List.find?_eq_none] at hfind
          refine ⟨⟨hx, fun row hrow => by simpa using hfind row hrow, ?_⟩, ?_⟩
          · intro row hrow c n hmem
            rw [keys_distinctRows]
            exact .inr ⟨row, hrow, hmem⟩
          · intro k hk
            rw [keys_distinctRows]
            exact .inl hk

theorem shapeRows_progress (d : Distinct) {b : BoundRows} {x : Measure}
    (hx : m.measures.get? ⟨b.measureId⟩ = some x)
    (hlength : ∀ row ∈ b.rows, row.1.length = x.categories.length) :
    ∃ d', shapeRows m d b = .ok (x, d') := by
  unfold shapeRows
  have hfind : (b.rows.find? fun row => row.1.length ≠ x.categories.length) = none := by
    rw [List.find?_eq_none]
    intro row hrow
    simpa using hlength row hrow
  rw [hx]
  simp only [hfind]
  exact ⟨_, rfl⟩

theorem Shaped.mono {p : BoundRows × Measure} {d d' : Distinct} (h : Shaped m p d)
    (hd : ∀ k ∈ d.keys, k ∈ d'.keys) : Shaped m p d' :=
  ⟨h.measure, h.length, fun row hrow c n hmem => hd _ (h.names row hrow c n hmem)⟩

theorem shape_ok {shaped shaped' : List (BoundRows × Measure)} {d d' : Distinct}
    (h : bound.foldlM (shapeStep m) (shaped, d) = .ok (shaped', d'))
    (hshaped : ∀ p ∈ shaped, Shaped m p d) :
    shaped'.map (·.1) = shaped.map (·.1) ++ bound ∧ ∀ p ∈ shaped', Shaped m p d' := by
  induction bound generalizing shaped d with
  | nil =>
      cases h
      exact ⟨(List.append_nil _).symm, hshaped⟩
  | cons b bound ih =>
      rw [List.foldlM_cons, bind_eq_ok_iff] at h
      obtain ⟨t, ht, h⟩ := h
      unfold shapeStep at ht
      cases hrows : shapeRows m d b with
      | error e => simp [hrows, Except.map] at ht
      | ok x =>
          rw [hrows] at ht
          cases ht
          obtain ⟨hx, hd⟩ := shapeRows_ok hrows
          obtain ⟨hmap, hall⟩ := ih h fun p hp => by
            rcases List.mem_append.mp hp with hp | hp
            · exact (hshaped p hp).mono hd
            · rw [List.mem_singleton.mp hp]
              exact hx
          refine ⟨?_, hall⟩
          rw [hmap, List.map_append, List.append_assoc]
          rfl

theorem shape_progress
    (hbound : ∀ b ∈ bound, ∃ x, m.measures.get? ⟨b.measureId⟩ = some x ∧
      ∀ row ∈ b.rows, row.1.length = x.categories.length)
    (s : List (BoundRows × Measure) × Distinct) : ∃ s', bound.foldlM (shapeStep m) s = .ok s' := by
  induction bound generalizing s with
  | nil => exact ⟨s, rfl⟩
  | cons b bound ih =>
      obtain ⟨x, hx, hlength⟩ := hbound b List.mem_cons_self
      obtain ⟨d', hd'⟩ := shapeRows_progress s.2 hx hlength
      obtain ⟨s', hs'⟩ := ih (fun c hc => hbound c (List.mem_cons_of_mem b hc))
        (s.1 ++ [(b, x)], d')
      refine ⟨s', ?_⟩
      rw [List.foldlM_cons]
      unfold shapeStep at hs' ⊢
      rw [hd']
      exact hs'

/-- A row in shape whose names are interned has them all found. -/
theorem Shaped.found {p : BoundRows × Measure} {d : Distinct} (h : Shaped m p d) {items : Items}
    (hitems : ∀ c n, toLex (c, n) ∈ d.keys → ∃ i, items.find c n = some i) {row : ReadRow}
    (hrow : row ∈ p.1.rows) : Found items p.2.categories row := by
  intro names hnames
  rw [rowNames_eq_some_iff] at hnames
  rw [coordinate_isSome_iff]
  rintro ⟨c, n⟩ hmem
  apply hitems
  apply h.names row hrow
  rw [hnames, List.zip_map_right]
  exact List.mem_map.mpr ⟨(c, n), hmem, rfl⟩

end Shape

/-! ## A load and its rows -/

section Loads

variable {cal : Calendar} {m m' : Model} {bound : List BoundRows} {l : Loaded} {items : Items}
  {shaped : List (BoundRows × Measure)}

/-- Measures bound once each. -/
def BoundOnce (bound : List BoundRows) : Prop := (bound.map BoundRows.measureId).Nodup

theorem mem_allRows_iff {p : BoundRows × Measure} {row : ReadRow} :
    (p, row) ∈ allRows shaped ↔ p ∈ shaped ∧ row ∈ p.1.rows := by
  unfold allRows
  simp only [List.mem_flatMap, List.mem_map, Prod.mk.injEq]
  constructor
  · rintro ⟨q, hq, r, hr, rfl, rfl⟩
    exact ⟨hq, hr⟩
  · rintro ⟨hp, hrow⟩
    exact ⟨p, hp, row, hrow, rfl, rfl⟩

/-- Measures bound once are told apart by their bindings' rows. -/
theorem eq_of_measureId (hbound : BoundOnce (shaped.map (·.1))) {p q : BoundRows × Measure}
    (hp : p ∈ shaped) (hq : q ∈ shaped) (h : q.1.measureId = p.1.measureId) : q = p := by
  unfold BoundOnce at hbound
  rw [List.map_map] at hbound
  exact List.inj_on_of_nodup_map hbound hq hp h

/-- The entry of a row of a measure bound once. -/
theorem mem_boundCells_iff (hbound : BoundOnce (shaped.map (·.1))) {p : BoundRows × Measure}
    (hp : p ∈ shaped) {c : Coordinate} {v : Value} :
    ((⟨⟨p.1.measureId⟩, c⟩, v) : Cell × Value) ∈ (allRows shaped).filterMap (boundCell cal items) ↔
      (c, v) ∈ p.1.rows.filterMap (rowCell cal items p.2.categories) := by
  simp only [List.mem_filterMap]
  constructor
  · rintro ⟨⟨q, row⟩, hmem, hcell⟩
    obtain ⟨hq, hrow⟩ := mem_allRows_iff.mp hmem
    obtain ⟨⟨c', v'⟩, hentry, heq⟩ := Option.map_eq_some_iff.mp hcell
    simp only [Prod.mk.injEq, Cell.mk.injEq, MeasureId.mk.injEq] at heq
    obtain ⟨⟨hid, rfl⟩, rfl⟩ := heq
    have hqp := eq_of_measureId hbound hp hq hid
    subst hqp
    exact ⟨row, hrow, hentry⟩
  · rintro ⟨row, hrow, hentry⟩
    refine ⟨(p, row), mem_allRows_iff.mpr ⟨hp, hrow⟩, ?_⟩
    unfold boundCell
    rw [hentry]
    rfl

theorem boundCells_cons (p : BoundRows × Measure) :
    (allRows (p :: shaped)).filterMap (boundCell cal items) =
      (p.1.rows.filterMap (rowCell cal items p.2.categories)).map
        (fun e => ((⟨⟨p.1.measureId⟩, e.1⟩, e.2) : Cell × Value)) ++
      (allRows shaped).filterMap (boundCell cal items) := by
  unfold allRows
  rw [List.flatMap_cons, List.filterMap_append, List.filterMap_map, List.map_filterMap]
  rfl

/-- Entries at different coordinates of each measure are at different cells. -/
theorem nodup_boundCells_iff (hbound : BoundOnce (shaped.map (·.1))) :
    (((allRows shaped).filterMap (boundCell cal items)).map (·.1)).Nodup ↔
      ∀ p ∈ shaped, ((p.1.rows.filterMap (rowCell cal items p.2.categories)).map (·.1)).Nodup := by
  induction shaped with
  | nil => simp [allRows]
  | cons p shaped ih =>
      have hp : p.1.measureId ∉ (shaped.map (·.1)).map BoundRows.measureId := by
        unfold BoundOnce at hbound
        rw [List.map_cons, List.map_cons, List.nodup_cons] at hbound
        exact hbound.1
      have htail : BoundOnce (shaped.map (·.1)) := by
        unfold BoundOnce at hbound ⊢
        rw [List.map_cons, List.map_cons, List.nodup_cons] at hbound
        exact hbound.2
      have hfirst : (((p.1.rows.filterMap (rowCell cal items p.2.categories)).map
            fun e => ((⟨⟨p.1.measureId⟩, e.1⟩, e.2) : Cell × Value)).map (·.1)) =
          ((p.1.rows.filterMap (rowCell cal items p.2.categories)).map (·.1)).map
            fun c => (⟨⟨p.1.measureId⟩, c⟩ : Cell) := by
        rw [List.map_map, List.map_map]
        rfl
      rw [boundCells_cons, List.map_append, List.nodup_append, hfirst, ih htail,
        List.nodup_map_iff fun c c' h => (Cell.mk.injEq .. ▸ h : _ ∧ _).2, List.forall_mem_cons]
      constructor
      · rintro ⟨hhead, hrest, _⟩
        exact ⟨hhead, hrest⟩
      · rintro ⟨hhead, hrest⟩
        refine ⟨hhead, hrest, ?_⟩
        intro k hk k' hk' heq
        obtain ⟨c, _, rfl⟩ := List.mem_map.mp hk
        obtain ⟨⟨k', v⟩, hmem, rfl⟩ := List.mem_map.mp hk'
        obtain ⟨⟨q, row⟩, hq, hcell⟩ := List.mem_filterMap.mp hmem
        obtain ⟨_, _, hentry⟩ := Option.map_eq_some_iff.mp hcell
        have hid : q.1.measureId = p.1.measureId := by
          rw [Prod.mk.injEq] at hentry
          have hcellEq := hentry.1.trans heq.symm
          simp only [Cell.mk.injEq, MeasureId.mk.injEq] at hcellEq
          exact hcellEq.1
        apply hp
        rw [← hid, List.map_map]
        exact List.mem_map.mpr ⟨q, (mem_allRows_iff.mp hq).1, rfl⟩

/-- The entries of bound rows are at bound measures' cells. -/
theorem get?_foldl_insert_unbound {cells inputs : SortedMap Cell Value}
    (hshows : Shows (boundCell cal items) cells.get? (allRows shaped)) {k : Cell}
    (hk : k.measure.id ∉ (shaped.map (·.1)).map BoundRows.measureId) :
    (cells.entries.foldl (fun ins p => ins.insert p.1 p.2) inputs).get? k = inputs.get? k := by
  have hnone : cells.get? k = none := by
    by_contra hsome
    obtain ⟨w, hw⟩ := Option.ne_none_iff_exists'.mp hsome
    obtain ⟨⟨q, row⟩, hq, hcell⟩ := hshows.exists_row hw
    obtain ⟨_, _, heq⟩ := Option.map_eq_some_iff.mp hcell
    rw [Prod.mk.injEq] at heq
    apply hk
    rw [← heq.1, List.map_map]
    exact List.mem_map.mpr ⟨q, (mem_allRows_iff.mp hq).1, rfl⟩
  apply Option.ext
  intro v
  rw [SortedMap.get?_foldl_insert cells.sorted, ← SortedMap.get?_eq_some_iff, hnone]
  have hkeys : k ∉ cells.entries.map (·.1) := by
    change k ∉ cells.keys
    rw [SortedMap.mem_keys_iff, SortedMap.contains, hnone]
    simp
  simp only [reduceCtorEq, false_or, hkeys, not_false_eq_true, true_and]

/-- What a successful load did. -/
theorem loadInputs_cases (h : loadInputs cal m bound = .ok (m', l)) :
    ∃ shaped d, bound.foldlM (shapeStep m) ([], .empty) = .ok (shaped, d) ∧
      ∃ cells nulls,
        loadCells cal (d.keys.foldl (fun it k => (it.intern (ofLex k).1 (ofLex k).2).1)
          (ItemInterner.seededFrom m 1)) shaped = .ok (cells, nulls) ∧
        m' = { (d.keys.foldl (fun it k => (it.intern (ofLex k).1 (ofLex k).2).1)
            (ItemInterner.seededFrom m 1)).register m with
          inputs := cells.entries.foldl (fun ins p => ins.insert p.1 p.2) m.inputs } := by
  unfold loadInputs at h
  rw [bind_eq_ok_iff] at h
  obtain ⟨⟨shaped, d⟩, hshape, h⟩ := h
  rw [bind_eq_ok_iff] at h
  obtain ⟨⟨cells, nulls⟩, hcells, h⟩ := h
  cases h
  exact ⟨shaped, d, hshape, cells, nulls, hcells, rfl⟩

/-- A load shows its rows: each measure's cells are the view of its own, and the
other cells are as they were. -/
theorem loadInputs_fits (hm : ∀ k x, m.items.get? k = some x → x.id = k)
    (hbound : BoundOnce bound)
    (hfree : ∀ b ∈ bound, ∀ c, m.inputs.get? ⟨⟨b.measureId⟩, c⟩ = none)
    (h : loadInputs cal m bound = .ok (m', l)) :
    (∀ b ∈ bound, ∃ x, m.measures.get? ⟨b.measureId⟩ = some x ∧
      Fits cal (.ofModel m') x.categories ⟨b.measureId⟩ m'.inputs b.rows) ∧
      m'.measures = m.measures ∧ (∀ k x, m'.items.get? k = some x → x.id = k) ∧
      ∀ k : Cell, k.measure.id ∉ bound.map BoundRows.measureId →
        m'.inputs.get? k = m.inputs.get? k := by
  obtain ⟨shaped, d, hshape, cells, nulls, hcells, rfl⟩ := loadInputs_cases h
  obtain ⟨hmap, hshaped⟩ := shape_ok hshape fun p hp => by cases hp
  rw [List.map_nil, List.nil_append] at hmap
  generalize hit : d.keys.foldl (fun it k => (it.intern (ofLex k).1 (ofLex k).2).1)
    (ItemInterner.seededFrom m 1) = it at *
  have hminted : ItemInterner.Minted m it := by
    rw [← hit]
    exact ItemInterner.minted_foldl (.seeded hm 1) _
  have hnames : ∀ c n, toLex (c, n) ∈ d.keys → ∃ i, it.map.find c n = some i := by
    intro c n hmem
    rw [← hit]
    exact ItemInterner.find_foldl hmem _
  have hfound : ∀ p ∈ shaped, ∀ row ∈ p.1.rows, Found it.map p.2.categories row :=
    fun p hp row hrow => (hshaped p hp).found hnames hrow
  obtain ⟨hheld, hshows⟩ := loadCells_shows [] hfound hcells
    (Shows.nil _)
  rw [List.append_nil] at hshows
  subst hmap
  have hnamed : it.map.Extends (.ofModel { it.register m with
      inputs := cells.entries.foldl (fun ins p => ins.insert p.1 p.2) m.inputs }) := by
    intro c n i hi
    have hsame : Items.ofModel { it.register m with
        inputs := cells.entries.foldl (fun ins p => ins.insert p.1 p.2) m.inputs } =
        .ofModel (it.register m) := ItemInterner.ofModel_congr rfl
    rw [hsame, ItemInterner.find_register hm hminted]
    exact hi
  refine ⟨?_, (ItemInterner.register_frame it m).1, ItemInterner.keyed_register hm it, ?_⟩
  case refine_2 =>
    intro k hk
    exact get?_foldl_insert_unbound hshows hk
  intro b hb
  obtain ⟨p, hp, rfl⟩ := List.mem_map.mp hb
  refine ⟨p.2, (hshaped p hp).measure, Fits.mono hnamed ?_⟩
  refine ⟨(hshaped p hp).length, hfound p hp, hheld p hp, ?_, ?_⟩
  · exact (nodup_boundCells_iff hbound).mp hshows.keys p hp
  · intro c v
    change (cells.entries.foldl (fun ins p => ins.insert p.1 p.2) m.inputs).get? _ = _ ↔ _
    rw [SortedMap.get?_foldl_insert cells.sorted, hfree _ hb, ← SortedMap.get?_eq_some_iff,
      hshows.view, mem_boundCells_iff hbound hp]
    constructor
    · rintro (hmem | ⟨_, hnone⟩)
      · exact hmem
      · cases hnone
    · exact .inl

/-- A model without the cells of some bindings. -/
def withoutBound (m : Model) (bound : List BoundRows) : Model :=
  { m with inputs := m.inputs.filter fun k _ => k.measure.id ∉ bound.map BoundRows.measureId }

theorem get?_withoutBound (m : Model) (bound : List BoundRows) (k : Cell) :
    (withoutBound m bound).inputs.get? k =
      if k.measure.id ∈ bound.map BoundRows.measureId then none else m.inputs.get? k := by
  unfold withoutBound
  rw [SortedMap.get?_filter]
  by_cases hk : k.measure.id ∈ bound.map BoundRows.measureId
  · rw [if_pos hk]
    cases m.inputs.get? k with
    | none => rfl
    | some v => simp only [Option.filter, hk, not_true_eq_false, decide_false, if_false,
        Bool.false_eq_true]
  · rw [if_neg hk]
    cases m.inputs.get? k with
    | none => rfl
    | some v => simp only [Option.filter, hk, not_false_eq_true, decide_true, if_true]

/-- Rows whose view a model's cells are load to those cells. -/
theorem fits_loadInputs (hm : ∀ k x, m.items.get? k = some x → x.id = k)
    (hbound : BoundOnce bound)
    (hfits : ∀ b ∈ bound, ∃ x, m.measures.get? ⟨b.measureId⟩ = some x ∧
      Fits cal (.ofModel m) x.categories ⟨b.measureId⟩ m.inputs b.rows) :
    ∃ m'' l, loadInputs cal (withoutBound m bound) bound = .ok (m'', l) ∧
      m''.inputs = m.inputs := by
  have hsame : Items.ofModel (withoutBound m bound) = .ofModel m :=
    ItemInterner.ofModel_congr rfl
  obtain ⟨⟨shaped, d⟩, hshape⟩ := shape_progress (m := withoutBound m bound)
    (fun b (hb : b ∈ bound) => by
      obtain ⟨x, hx, hfit⟩ := hfits b hb
      exact ⟨x, hx, hfit.length⟩) ([], .empty)
  obtain ⟨hmap, hshaped⟩ := shape_ok hshape fun p hp => by cases hp
  rw [List.map_nil, List.nil_append] at hmap
  have hfit : ∀ p ∈ shaped,
      Fits cal (.ofModel m) p.2.categories ⟨p.1.measureId⟩ m.inputs p.1.rows := by
    intro p hp
    obtain ⟨x, hx, hfit⟩ := hfits p.1 (hmap ▸ List.mem_map_of_mem hp)
    have hxp : x = p.2 := by
      have hp2 := (hshaped p hp).measure
      rw [show (withoutBound m bound).measures = m.measures from rfl, hx,
        Option.some.injEq] at hp2
      exact hp2
    rw [← hxp]
    exact hfit
  generalize hit : d.keys.foldl (fun it k => (it.intern (ofLex k).1 (ofLex k).2).1)
    (ItemInterner.seededFrom (withoutBound m bound) 1) = it
  have hminted : ItemInterner.Minted (withoutBound m bound) it := by
    rw [← hit]
    exact ItemInterner.minted_foldl (.seeded (m := withoutBound m bound) hm 1) _
  have hknown : (Items.ofModel m).Extends it.map := hsame ▸ hminted.known
  have hfit' : ∀ p ∈ shaped,
      Fits cal it.map p.2.categories ⟨p.1.measureId⟩ m.inputs p.1.rows :=
    fun p hp => (hfit p hp).mono hknown
  have hbound' : BoundOnce (shaped.map (·.1)) := hmap ▸ hbound
  obtain ⟨⟨cells, nulls⟩, hcells⟩ := loadCells_progress (s := (.empty, 0)) []
    (fun p hp => (hfit' p hp).found) (fun p hp => (hfit' p hp).held) (Shows.nil _) (by
      rw [List.append_nil, nodup_boundCells_iff hbound']
      exact fun p hp => (hfit' p hp).shows.keys)
  obtain ⟨_, hshows⟩ := loadCells_shows [] (fun p hp => (hfit' p hp).found) hcells
    (Shows.nil _)
  rw [List.append_nil] at hshows
  have hload : ∃ m'' l, loadInputs cal (withoutBound m bound) bound = .ok (m'', l) ∧
      m''.inputs = cells.entries.foldl (fun ins p => ins.insert p.1 p.2)
        (withoutBound m bound).inputs := by
    unfold loadInputs shape loadCells
    rw [hshape]
    simp only [bind, Except.bind, hit, hcells]
    exact ⟨_, _, rfl, rfl⟩
  obtain ⟨m'', l, hok, hinputs⟩ := hload
  refine ⟨m'', l, hok, ?_⟩
  ext1 k
  rw [hinputs]
  by_cases hk : k.measure.id ∈ bound.map BoundRows.measureId
  · apply Option.ext
    intro v
    rw [SortedMap.get?_foldl_insert cells.sorted, get?_withoutBound, if_pos hk,
      ← SortedMap.get?_eq_some_iff]
    obtain ⟨⟨μ⟩, c⟩ := k
    obtain ⟨b, hb, rfl⟩ := List.mem_map.mp hk
    rw [← hmap] at hb
    obtain ⟨p, hp, rfl⟩ := List.mem_map.mp hb
    have hview := (hfit' p hp).shows.view c v
    rw [hview, hshows.view, mem_boundCells_iff hbound' hp]
    simp
  · rw [get?_foldl_insert_unbound hshows (hmap ▸ hk), get?_withoutBound, if_neg hk]

end Loads

end Improv.PgModel
