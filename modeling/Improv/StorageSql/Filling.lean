import Improv.StorageSql.Interning
/-!
# What an import does to the model

Registering items leaves those of the model alone and lists each new one once;
the cells of the measure become those of the rows, the last of a coordinate
winning, and no other cell changes.
-/

namespace Improv.StorageSql

open Improv.Lib Improv.CoreModel Improv.PgModel

/-- A model whose items stand under their ids and whose categories list items it
has. -/
structure Sound (m : Model) : Prop where
  keyed : ∀ k x, m.items.get? k = some x → x.id = k
  listed : ∀ c x, m.categories.get? c = some x → ∀ k ∈ x.items, m.items.contains k = true

/-! ## Registering -/

section Register

variable {m : Model} (ps : List (CategoryId × String × ItemId))

theorem get?_registerItem (m : Model) (p : CategoryId × String × ItemId) (k : ItemId) :
    (ItemInterner.registerItem m p).items.get? k =
      (m.items.get? k).or (if k = p.2.2 then some ⟨p.2.2, p.1, p.2.1⟩ else none) := by
  obtain ⟨c, n, i⟩ := p
  change (if m.items.contains i = true then m.items else m.items.insert i ⟨i, c, n⟩).get? k = _
  by_cases hi : m.items.contains i = true
  · rw [if_pos hi]
    by_cases hk : k = i
    · obtain ⟨x, hx⟩ := Option.isSome_iff_exists.mp hi
      rw [hk, hx, Option.some_or]
    · rw [if_neg hk, Option.or_none]
  · rw [if_neg hi, SortedMap.get?_insert]
    by_cases hk : k = i
    · rw [if_pos hk, if_pos hk, hk, Option.not_isSome_iff_eq_none.mp hi, Option.none_or]
    · rw [if_neg hk, if_neg hk, Option.or_none]

/-- An item keeps its id when others are registered. -/
theorem items_foldl_registerItem {k : ItemId} {x : Item} (h : m.items.get? k = some x) :
    (ps.foldl ItemInterner.registerItem m).items.get? k = some x := by
  induction ps generalizing m with
  | nil => exact h
  | cons p ps ih =>
      apply ih
      rw [get?_registerItem, h, Option.some_or]

/-- An item registered is one of the pairs. -/
theorem of_items_foldl_registerItem {k : ItemId} {x : Item}
    (h : (ps.foldl ItemInterner.registerItem m).items.get? k = some x)
    (hnew : m.items.get? k = none) : (x.category, x.name, k) ∈ ps := by
  induction ps generalizing m with
  | nil =>
      rw [List.foldl_nil, hnew] at h
      cases h
  | cons p ps ih =>
      by_cases hk : k = p.2.2
      · have hget : (ItemInterner.registerItem m p).items.get? k =
            some ⟨p.2.2, p.1, p.2.1⟩ := by
          rw [get?_registerItem, hnew, if_pos hk, Option.none_or]
        have hkept := items_foldl_registerItem ps hget
        rw [List.foldl_cons, hkept] at h
        cases h
        rw [hk]
        exact List.mem_cons_self
      · apply List.mem_cons_of_mem
        apply ih h
        rw [get?_registerItem, hnew, if_neg hk, Option.none_or]

/-- Where the new items of a category go: after those it lists, each once. -/
theorem categories_foldl_registerItem {c : CategoryId} {x : Category}
    (h : m.categories.get? c = some x) :
    ∃ new, (ps.foldl ItemInterner.registerItem m).categories.get? c =
        some { x with items := x.items ++ new } ∧ new.Nodup ∧
      ∀ k, k ∈ new ↔ k ∉ x.items ∧ ∃ n, (c, n, k) ∈ ps := by
  induction ps generalizing m x with
  | nil =>
      refine ⟨[], ?_, List.nodup_nil, fun k => ?_⟩
      · rw [List.append_nil]
        exact h
      · simp
  | cons p ps ih =>
      obtain ⟨pc, pn, pi⟩ := p
      have hget : (ItemInterner.registerItem m (pc, pn, pi)).categories.get? c =
          some (if c = pc ∧ pi ∉ x.items then { x with items := x.items ++ [pi] } else x) := by
        unfold ItemInterner.registerItem
        simp only [SortedMap.get?_map, h, Option.map_some]
      rw [List.foldl_cons]
      by_cases hadds : c = pc ∧ pi ∉ x.items
      · rw [if_pos hadds] at hget
        obtain ⟨new, hnew, hnodup, hmem⟩ := ih hget
        simp only [List.mem_append, List.mem_singleton, not_or] at hmem
        refine ⟨pi :: new, ?_, ?_, fun k => ?_⟩
        · rw [hnew, List.append_assoc]
          rfl
        · exact List.nodup_cons.mpr ⟨fun hin => ((hmem pi).mp hin).1.2 rfl, hnodup⟩
        · rw [List.mem_cons, hmem]
          constructor
          · rintro (rfl | ⟨⟨hk, -⟩, n, hn⟩)
            · exact ⟨hadds.2, pn, hadds.1 ▸ List.mem_cons_self⟩
            · exact ⟨hk, n, List.mem_cons_of_mem _ hn⟩
          · rintro ⟨hk, n, hn⟩
            by_cases hkp : k = pi
            · exact .inl hkp
            · rcases List.mem_cons.mp hn with heq | hn
              · cases heq
                exact absurd rfl hkp
              · exact .inr ⟨⟨hk, hkp⟩, n, hn⟩
      · rw [if_neg hadds] at hget
        obtain ⟨new, hnew, hnodup, hmem⟩ := ih hget
        refine ⟨new, hnew, hnodup, fun k => ?_⟩
        rw [hmem]
        constructor
        · rintro ⟨hk, n, hn⟩
          exact ⟨hk, n, List.mem_cons_of_mem _ hn⟩
        · rintro ⟨hk, n, hn⟩
          rcases List.mem_cons.mp hn with heq | hn
          · cases heq
            exact absurd ⟨rfl, hk⟩ hadds
          · exact ⟨hk, n, hn⟩

end Register

/-! ## Cells -/

theorem get?_setInputs (cells : List (Coordinate × F64)) (m : Model) (measure : MeasureId)
    (k : Cell) :
    (cells.foldl (fun m c => setInput m measure c.1 (.number c.2)) m).inputs.get? k =
      ((((cells.filter fun c => k = ⟨measure, c.1⟩).getLast?).map fun c =>
        Value.number c.2).or (m.inputs.get? k)) := by
  induction cells generalizing m with
  | nil => rfl
  | cons c cells ih =>
      rw [List.foldl_cons, ih]
      have hset : (setInput m measure c.1 (.number c.2)).inputs.get? k =
          (m.inputs.insert ⟨measure, c.1⟩ (.number c.2)).get? k := rfl
      rw [hset, SortedMap.get?_insert]
      by_cases hk : k = ⟨measure, c.1⟩
      · rw [if_pos hk, List.filter_cons_of_pos (by simpa using hk), List.getLast?_cons]
        cases (cells.filter fun c => k = ⟨measure, c.1⟩).getLast? <;> rfl
      · rw [if_neg hk, List.filter_cons_of_neg (by simpa using hk)]

theorem setInputs_frame (cells : List (Coordinate × F64)) (m : Model) (measure : MeasureId) :
    let m' := cells.foldl (fun m c => setInput m measure c.1 (.number c.2)) m
    m'.items = m.items ∧ m'.categories = m.categories ∧ m'.measures = m.measures := by
  induction cells generalizing m with
  | nil => exact ⟨rfl, rfl, rfl⟩
  | cons c cells ih => exact ih (setInput m measure c.1 (.number c.2))

/-! ## Categories -/

theorem get?_ensureCategories (dims : List DimensionMapping) {m : Model} {c : CategoryId}
    {x : Category} (h : m.categories.get? c = some x) :
    (ensureCategories m dims).categories.get? c = some x := by
  unfold ensureCategories
  induction dims generalizing m with
  | nil => exact h
  | cons d dims ih =>
      rw [List.foldl_cons]
      apply ih
      split
      · exact h
      · rename_i hnot
        rw [SortedMap.get?_insert, if_neg]
        · exact h
        · rintro rfl
          exact hnot (SortedMap.contains_of_get? h)

theorem ensureCategories_frame (dims : List DimensionMapping) (m : Model) :
    (ensureCategories m dims).items = m.items ∧ (ensureCategories m dims).inputs = m.inputs ∧
      (ensureCategories m dims).measures = m.measures := by
  unfold ensureCategories
  induction dims generalizing m with
  | nil => exact ⟨rfl, rfl, rfl⟩
  | cons d dims ih =>
      rw [List.foldl_cons]
      split
      · exact ih m
      · exact ih _

/-- A category that an import adds lists no item. -/
theorem of_get?_ensureCategories {dims : List DimensionMapping} {m : Model} {c : CategoryId}
    {x : Category} (h : (ensureCategories m dims).categories.get? c = some x) :
    m.categories.get? c = some x ∨ x.items = [] := by
  unfold ensureCategories at h
  induction dims generalizing m with
  | nil => exact .inl h
  | cons d dims ih =>
      rw [List.foldl_cons] at h
      split at h
      · exact ih h
      · rcases ih h with hold | hnil
        · rw [SortedMap.get?_insert] at hold
          split at hold
          · cases hold
            exact .inr rfl
          · exact .inl hold
        · exact .inr hnil

theorem contains_ensureCategories {dims : List DimensionMapping} {d : DimensionMapping}
    (hd : d ∈ dims) (m : Model) :
    (ensureCategories m dims).categories.contains d.categoryId = true := by
  unfold ensureCategories
  induction dims generalizing m with
  | nil => exact absurd hd List.not_mem_nil
  | cons e dims ih =>
      rw [List.foldl_cons]
      rcases List.mem_cons.mp hd with rfl | hd
      · have hhere : ∃ x, (if m.categories.contains d.categoryId = true then m
            else { m with categories :=
              m.categories.insert d.categoryId ⟨d.categoryId, d.categoryName, []⟩ }).categories.get?
                d.categoryId = some x := by
          split
          · rename_i hcontains
            exact Option.isSome_iff_exists.mp hcontains
          · exact ⟨_, SortedMap.get?_insert_self _ _ _⟩
        obtain ⟨x, hx⟩ := hhere
        exact SortedMap.contains_of_get? (get?_ensureCategories dims hx)
      · exact ih hd _

/-- No category is added exactly where the model has them all. -/
theorem ensureCategories_eq_iff {dims : List DimensionMapping} {m : Model} :
    (ensureCategories m dims).categories = m.categories ↔
      ∀ d ∈ dims, m.categories.contains d.categoryId = true := by
  constructor
  · intro h d hd
    rw [← h]
    exact contains_ensureCategories hd m
  · intro h
    unfold ensureCategories
    induction dims generalizing m with
    | nil => rfl
    | cons d dims ih =>
        rw [List.foldl_cons, if_pos (h d List.mem_cons_self)]
        exact ih fun e he => h e (List.mem_cons_of_mem d he)

theorem ensureCategories_with {dims : List DimensionMapping} (m : Model) :
    ensureCategories m dims =
      { m with categories := (ensureCategories m dims).categories } := by
  unfold ensureCategories
  induction dims generalizing m with
  | nil => rfl
  | cons d dims ih =>
      rw [List.foldl_cons]
      split
      · exact ih m
      · exact ih _

end Improv.StorageSql
