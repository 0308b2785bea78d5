import Improv.StorageCsv.Import
import Improv.StorageSql.Filling
/-!
# What a file's records become

The cells an import makes of the records it reads, at the items of their names,
and what it leaves of the model.
-/

namespace Improv.StorageCsv

open Improv.Lib Improv.CoreModel Improv.StorageSql
open Improv.PgModel (Items ItemInterner)

/-! ## Names -/

/-- Names that are found keep their coordinate when others are interned. -/
theorem addNames_extends {items items' : Items} (h : items.Extends items') {ps : List Named}
    (hps : ∀ p ∈ ps, ∃ i, items.find p.1 p.2 = some i) (coord : Coordinate) :
    addNames items' coord ps = addNames items coord ps := by
  unfold addNames
  apply List.foldl_ext
  intro k p hp
  obtain ⟨i, hi⟩ := hps p hp
  rw [hi, h _ _ _ hi]

theorem coordAt_extends {items items' : Items} (h : items.Extends items') {ps : List Named}
    (hps : ∀ p ∈ ps, ∃ i, items.find p.1 p.2 = some i) : coordAt items' ps = coordAt items ps := by
  rw [← addNames_empty, ← addNames_empty, addNames_extends h hps]

/-- The names of a record are interned exactly where the ids do not run out. -/
theorem internNames_eq (it : ItemInterner) (coord : Coordinate) (ps : List Named) :
    internNames it coord ps =
      if Fits it ps then some (internAll it ps, addNames (internAll it ps).map coord ps)
      else none := by
  induction ps generalizing it coord with
  | nil => exact (if_pos (le_max_right _ _)).symm
  | cons p ps ih =>
      have hsplit : Fits it (p :: ps) ↔ Fits it [p] ∧ Fits (it.intern p.1 p.2).1 ps :=
        @fits_append it [p] ps
      unfold internNames
      rw [intern_eq]
      by_cases hp : Fits it [p]
      · have hfind : (internAll it (p :: ps)).map.find p.1 p.2 = some (it.intern p.1 p.2).2 :=
          extends_internAll ps _ _ _ (ItemInterner.find_intern it p.1 p.2)
        have hadd : addNames (internAll it (p :: ps)).map coord (p :: ps) =
            addNames (internAll it (p :: ps)).map (coord.insert p.1 (it.intern p.1 p.2).2) ps := by
          conv_lhs => unfold addNames
          rw [List.foldl_cons, hfind]
          rfl
        rw [if_pos hp, hadd]
        by_cases hps : Fits (it.intern p.1 p.2).1 ps
        · rw [if_pos (hsplit.mpr ⟨hp, hps⟩)]
          exact (ih _ _).trans (if_pos hps)
        · rw [if_neg fun hall => hps (hsplit.mp hall).2]
          exact (ih _ _).trans (if_neg hps)
      · rw [if_neg hp, if_neg fun hall => hp (hsplit.mp hall).1]

/-! ## Records -/

section Records

variable (spec : ImportSpec) (dims : List (Nat × CategoryId)) (valIdx : Nat)

/-- The names of some records, in turn. -/
def allNames (records : List StringRecord) : List Named :=
  records.flatMap fun r => namesOf dims r.fields

/-- The cell of a record, by the items of its names. -/
def cellOf (items : Items) (r : StringRecord) : Option (Coordinate × Value) :=
  (readValue spec.valueType (field r.fields valIdx)).map fun v =>
    (coordAt items (namesOf dims r.fields), v)

variable {spec dims valIdx} {it it' : ItemInterner} {cells cells' : List (Coordinate × Value)}

/-- The cells of the records that an import read to the end. -/
theorem importRecords_ok {rs : List (Except CsvError StringRecord)}
    (h : importRecords spec dims valIdx it cells rs = some (.ok (it', cells'))) :
    ∃ records, rs = records.map .ok ∧ it' = internAll it (allNames dims records) ∧
      ∃ new, cells' = cells ++ new ∧
        records.map (cellOf spec dims valIdx it'.map) = new.map some := by
  induction rs generalizing it cells with
  | nil =>
      simp only [importRecords, Option.some.injEq, Except.ok.injEq, Prod.mk.injEq] at h
      exact ⟨[], rfl, h.1.symm, [], by rw [List.append_nil, h.2], rfl⟩
  | cons r rs ih =>
      unfold importRecords at h
      cases r with
      | error e => cases h
      | ok r =>
          simp only [internNames_eq] at h
          split at h
          · cases h
          · by_cases hfits : Fits it (namesOf dims r.fields)
            · rw [if_pos hfits] at h
              simp only at h
              cases hvalue : readValue spec.valueType (field r.fields valIdx) with
              | none =>
                  rw [hvalue] at h
                  cases h
              | some v =>
                  rw [hvalue] at h
                  obtain ⟨records, rfl, hit, new, hnew, hcells⟩ := ih h
                  have hall : internAll it (allNames dims (r :: records)) =
                      internAll (internAll it (namesOf dims r.fields)) (allNames dims records) :=
                    internAll_append _ _
                  have hfound : ∀ p ∈ namesOf dims r.fields,
                      ∃ i, (internAll it (namesOf dims r.fields)).map.find p.1 p.2 = some i :=
                    fun p hp => find_internAll hp
                  let cell : Coordinate × Value :=
                    (addNames (internAll it (namesOf dims r.fields)).map .empty
                      (namesOf dims r.fields), v)
                  have hcell : cellOf spec dims valIdx it'.map r = some cell := by
                    unfold cellOf
                    rw [hvalue, Option.map_some, hit,
                      coordAt_extends (extends_internAll _) hfound, ← addNames_empty]
                  refine ⟨r :: records, rfl, hit.trans hall.symm, cell :: new, ?_, ?_⟩
                  · rw [hnew, List.append_assoc, List.singleton_append]
                  · rw [List.map_cons, hcells, hcell, List.map_cons]
            · rw [if_neg hfits] at h
              cases h

/-- Records that are not too many or too long, whose values are read and whose
names the ids suffice for, are read to the end. -/
theorem importRecords_of {records : List StringRecord}
    (hsize : ∀ r ∈ records, (∀ f ∈ r.fields, f.utf8ByteSize ≤ maxFieldBytes) ∧
      maxIdx dims valIdx < r.fields.length ∧
      (readValue spec.valueType (field r.fields valIdx)).isSome = true)
    (hlimit : cells.length + records.length ≤ spec.limit)
    (hfits : Fits it (allNames dims records)) :
    ∃ done, importRecords spec dims valIdx it cells (records.map .ok) = some (.ok done) := by
  induction records generalizing it cells with
  | nil => exact ⟨(it, cells), rfl⟩
  | cons r records ih =>
      obtain ⟨hbytes, hlength, hvalue⟩ := hsize r List.mem_cons_self
      obtain ⟨v, hv⟩ := Option.isSome_iff_exists.mp hvalue
      have hfits' : Fits it (namesOf dims r.fields) ∧
          Fits (internAll it (namesOf dims r.fields)) (allNames dims records) :=
        fits_append.mp hfits
      have hfault : sizeFault spec.limit (maxIdx dims valIdx) cells.length r.fields = none := by
        unfold sizeFault
        rw [List.length_cons] at hlimit
        rw [if_neg (by omega), if_neg, if_neg (by omega)]
        simpa using hbytes
      rw [List.map_cons]
      unfold importRecords
      simp only [hfault, internNames_eq, if_pos hfits'.1, hv]
      apply ih (fun r hr => hsize r (List.mem_cons_of_mem _ hr)) _ hfits'.2
      rw [List.length_append, List.length_singleton]
      rw [List.length_cons] at hlimit
      omega

end Records

/-! ## The model after an import -/

section Commit

variable {m : Model} {spec : ImportSpec}

theorem get?_setValues (cells : List (Coordinate × Value)) (m : Model) (measure : MeasureId)
    (k : Cell) :
    (cells.foldl (fun m c => setInput m measure c.1 c.2) m).inputs.get? k =
      (((cells.filter fun c => k = ⟨measure, c.1⟩).getLast?).map Prod.snd).or
        (m.inputs.get? k) := by
  induction cells generalizing m with
  | nil => rfl
  | cons c cells ih =>
      have hset : (setInput m measure c.1 c.2).inputs.get? k =
          (m.inputs.insert ⟨measure, c.1⟩ c.2).get? k := rfl
      rw [List.foldl_cons, ih, hset, SortedMap.get?_insert]
      by_cases hk : k = ⟨measure, c.1⟩
      · rw [if_pos hk, List.filter_cons_of_pos (by simpa using hk), List.getLast?_cons]
        cases (cells.filter fun c => k = ⟨measure, c.1⟩).getLast? <;> rfl
      · rw [if_neg hk, List.filter_cons_of_neg (by simpa using hk)]

theorem setValues_frame (cells : List (Coordinate × Value)) (m : Model) (measure : MeasureId) :
    let m' := cells.foldl (fun m c => setInput m measure c.1 c.2) m
    m'.items = m.items ∧ m'.categories = m.categories ∧ m'.measures = m.measures := by
  induction cells generalizing m with
  | nil => exact ⟨rfl, rfl, rfl⟩
  | cons c cells ih => exact ih (setInput m measure c.1 c.2)

/-- The model whose categories and measure an import has made. -/
def prepared (spec : ImportSpec) (m : Model) : Model :=
  (ensureCategories m (spec.dimensions.map DimensionMapping.source)).addMeasure spec.measure

theorem items_prepared (spec : ImportSpec) (m : Model) : (prepared spec m).items = m.items :=
  (ensureCategories_frame _ m).1

theorem inputs_prepared (spec : ImportSpec) (m : Model) : (prepared spec m).inputs = m.inputs :=
  (ensureCategories_frame _ m).2.1

theorem items_commit (it : ItemInterner) (cells : List (Coordinate × Value)) :
    (commit spec m it cells).items = (it.register (prepared spec m)).items :=
  (setValues_frame cells _ spec.measureId).1

/-- The cells of a model after an import: the last of the imported ones at a
coordinate, else those it had. -/
theorem get?_inputs_commit (it : ItemInterner) (cells : List (Coordinate × Value)) (k : Cell) :
    (commit spec m it cells).inputs.get? k =
      (((cells.filter fun c => k = ⟨spec.measureId, c.1⟩).getLast?).map Prod.snd).or
        (m.inputs.get? k) := by
  have hinputs : (it.register (prepared spec m)).inputs = m.inputs :=
    (ItemInterner.register_frame it _).2.trans (inputs_prepared spec m)
  rw [← hinputs]
  exact get?_setValues cells _ spec.measureId k

/-- A cell after an import is an imported one, or was there. -/
theorem of_get?_commit {it : ItemInterner} {cells : List (Coordinate × Value)} {k : Coordinate}
    {v : Value} (h : (commit spec m it cells).inputs.get? ⟨spec.measureId, k⟩ = some v) :
    (k, v) ∈ cells ∨ m.inputs.get? ⟨spec.measureId, k⟩ = some v := by
  rw [get?_inputs_commit, Option.or_eq_some_iff] at h
  rcases h with hnew | ⟨-, hold⟩
  · obtain ⟨c, hlast, rfl⟩ := Option.map_eq_some_iff.mp hnew
    have hmem := List.mem_filter.mp (List.mem_of_getLast? hlast)
    have hk : k = c.1 := by simpa using hmem.2
    rw [hk]
    exact .inl hmem.1
  · exact .inr hold

/-- There is a cell after an import wherever one was imported. -/
theorem exists_get?_commit {cells : List (Coordinate × Value)} {c : Coordinate × Value}
    (hc : c ∈ cells) (it : ItemInterner) :
    ∃ v, (commit spec m it cells).inputs.get? ⟨spec.measureId, c.1⟩ = some v := by
  have hfilter : c ∈ cells.filter fun d => (⟨spec.measureId, c.1⟩ : Cell) =
      ⟨spec.measureId, d.1⟩ := List.mem_filter.mpr ⟨hc, by simp⟩
  rw [get?_inputs_commit, List.getLast?_eq_some_getLast (List.ne_nil_of_mem hfilter)]
  exact ⟨_, rfl⟩

theorem seededFrom_congr {m m' : Model} (h : m'.items = m.items) (base : Nat) :
    ItemInterner.seededFrom m' base = ItemInterner.seededFrom m base := by
  unfold ItemInterner.seededFrom ItemInterner.maxId
  rw [ItemInterner.ofModel_congr h, h]

/-- The item of an interned name after an import. -/
theorem item_of_find (hm : ∀ k x, m.items.get? k = some x → x.id = k) {ps : List Named}
    {cells : List (Coordinate × Value)} {c : CategoryId} {n : String} {i : ItemId}
    (h : (internAll (.seededFrom m spec.itemIdBase) ps).map.find c n = some i) :
    ∃ x, (commit spec m (internAll (.seededFrom m spec.itemIdBase) ps) cells).items.get? i =
      some x ∧ x.category = c ∧ x.name = n := by
  have hitems := items_prepared spec m
  have hkeyed : ∀ k x, (prepared spec m).items.get? k = some x → x.id = k := by
    rw [hitems]
    exact hm
  have hminted : ItemInterner.Minted (prepared spec m)
      (internAll (.seededFrom m spec.itemIdBase) ps) := by
    rw [← seededFrom_congr hitems]
    exact minted_internAll (.seeded hkeyed _) ps
  rw [← ItemInterner.find_register hkeyed hminted] at h
  rw [items_commit]
  exact Items.exists_of_find (ItemInterner.keyed_register hkeyed _) h

/-- An item keeps its id, its name and its category. -/
theorem items_commit_of_get? {it : ItemInterner} {cells : List (Coordinate × Value)} {k : ItemId}
    {x : Item} (h : m.items.get? k = some x) : (commit spec m it cells).items.get? k = some x := by
  rw [items_commit]
  apply items_foldl_registerItem
  rw [items_prepared]
  exact h

end Commit

/-! ## Coordinates by name -/

/-- Pairs of a function of their key are looked up by it. -/
theorem get?_foldl_insert_map {κ α : Type} [LinearOrder κ] (f : κ → α) (keys : List κ)
    (m : SortedMap κ α) (k : κ) :
    ((keys.map fun c => (c, f c)).foldl (fun m p => m.insert p.1 p.2) m).get? k =
      if k ∈ keys then some (f k) else m.get? k := by
  induction keys generalizing m with
  | nil => exact (if_neg List.not_mem_nil).symm
  | cons c keys ih =>
      rw [List.map_cons, List.foldl_cons, ih, SortedMap.get?_insert]
      by_cases hk : k = c
      · subst hk
        simp
      · simp [hk]

/-- The item of a category at the coordinate of a name for each category. -/
theorem get?_coordAt (items : Items) (cats : List CategoryId) (name : CategoryId → String)
    (c : CategoryId) :
    (coordAt items (cats.map fun c => (c, name c))).get? c =
      if c ∈ cats then some ((items.find c (name c)).getD ⟨0⟩) else none := by
  have hfold := get?_foldl_insert_map (fun c => (items.find c (name c)).getD ⟨0⟩) cats .empty c
  unfold coordAt Coordinate.fromPairs SortedMap.ofList
  rw [List.map_map]
  by_cases hc : c ∈ cats
  · rw [if_pos hc] at hfold ⊢
    exact hfold
  · rw [if_neg hc] at hfold ⊢
    exact hfold

/-- An item of a coordinate is that of one of the names. -/
theorem mem_of_get?_coordAt {items : Items} {ps : List Named} {c : CategoryId} {i : ItemId}
    (h : (coordAt items ps).get? c = some i) :
    ∃ n, (c, n) ∈ ps ∧ i = (items.find c n).getD ⟨0⟩ := by
  rw [← addNames_empty] at h
  unfold addNames at h
  have hfold : ∀ (qs : List Named) (k : Coordinate),
      (qs.foldl (fun k p => k.insert p.1 ((items.find p.1 p.2).getD ⟨0⟩)) k).get? c = some i →
      k.get? c = some i ∨ ∃ n, (c, n) ∈ qs ∧ i = (items.find c n).getD ⟨0⟩ := by
    intro qs
    induction qs with
    | nil => exact fun k hk => .inl hk
    | cons q qs ih =>
        intro k hk
        rcases ih _ hk with hold | ⟨n, hn, hi⟩
        · rw [SortedMap.get?_insert] at hold
          split at hold
          · rename_i hc
            refine .inr ⟨q.2, ?_, ?_⟩
            · rw [hc]
              exact List.mem_cons_self
            · rw [hc]
              exact (Option.some.inj hold).symm
          · exact .inl hold
        · exact .inr ⟨n, List.mem_cons_of_mem _ hn, hi⟩
  rcases hfold ps .empty h with hempty | hfound
  · cases hempty
  · exact hfound

end Improv.StorageCsv
