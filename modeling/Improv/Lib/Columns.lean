import Mathlib.Data.List.Basic
import Mathlib.Data.List.Induction
import Mathlib.Data.List.Nodup
import Improv.Lib.SortedMap
/-!
# Rows as column arrays

Rows handed to a database as one array for each column, what `unnest` makes of
the arrays, and what inserting with replacement and deleting do to a table with
a unique key.  Arrays of unequal lengths read as rows with nulls.
-/

namespace Improv.Lib.Columns

variable {α β : Type*}

/-- A row's values pushed each onto its column. -/
def pushRow : List (List α) → List α → List (List α)
  | col :: cols, v :: row => (col ++ [v]) :: pushRow cols row
  | cols, _ => cols

/-- The columns of some rows. -/
def columns (n : Nat) (rows : List (List α)) : List (List α) :=
  rows.foldl pushRow (List.replicate n [])

/-- As many rows as the longest array has places. -/
def height (cols : List (List α)) : Nat := (cols.map List.length).foldr max 0

def unnest (cols : List (List α)) : List (List (Option α)) :=
  (List.range (height cols)).map fun i => cols.map (·[i]?)

/-- The rows of some columns and of one more. -/
def unnestWith (cols : List (List α)) (vals : List β) : List (List (Option α) × Option β) :=
  (List.range (max (height cols) vals.length)).map fun i => (cols.map (·[i]?), vals[i]?)

/-! ## Columns of rows -/

/-- Some arrays of one length. -/
def Level (cols : List (List α)) (m : Nat) : Prop := ∀ col ∈ cols, col.length = m

theorem height_of_level {cols : List (List α)} {m : Nat} (h : Level cols m) (hne : cols ≠ []) :
    height cols = m := by
  unfold height
  induction cols with
  | nil => exact absurd rfl hne
  | cons col cols ih =>
      have hcol := h col List.mem_cons_self
      rw [List.map_cons, List.foldr_cons, hcol]
      by_cases hnil : cols = []
      · rw [hnil]
        exact Nat.max_eq_left (Nat.zero_le m)
      · rw [ih (fun c hc => h c (List.mem_cons_of_mem _ hc)) hnil, Nat.max_self]

theorem length_pushRow {cols : List (List α)} {row : List α} :
    (pushRow cols row).length = cols.length := by
  induction cols generalizing row with
  | nil => cases row <;> rfl
  | cons col cols ih =>
      cases row with
      | nil => rfl
      | cons v row => exact congrArg (· + 1) ih

theorem Level.pushRow {cols : List (List α)} {m : Nat} {row : List α} (h : Level cols m)
    (hrow : row.length = cols.length) : Level (pushRow cols row) (m + 1) := by
  induction cols generalizing row with
  | nil =>
      rw [List.length_eq_zero_iff.mp hrow]
      exact fun col hcol => absurd hcol (List.not_mem_nil)
  | cons col cols ih =>
      cases row with
      | nil => cases hrow
      | cons v row =>
          intro c hc
          cases List.mem_cons.mp hc with
          | inl heq => rw [heq, List.length_append, List.length_singleton, h col List.mem_cons_self]
          | inr hmem =>
              exact ih (fun c hc => h c (List.mem_cons_of_mem _ hc)) (Nat.succ.inj hrow) c hmem

/-- The places of columns after one more row. -/
theorem map_getElem_pushRow {cols : List (List α)} {m : Nat} {row : List α} (h : Level cols m)
    (hrow : row.length = cols.length) (i : Nat) (hi : i ≤ m) :
    (pushRow cols row).map (·[i]?) = if i < m then cols.map (·[i]?) else row.map some := by
  induction cols generalizing row with
  | nil =>
      rw [List.length_eq_zero_iff.mp hrow]
      split <;> rfl
  | cons col cols ih =>
      cases row with
      | nil => cases hrow
      | cons v row =>
          have hcol := h col List.mem_cons_self
          have hrest := ih (fun c hc => h c (List.mem_cons_of_mem _ hc)) (Nat.succ.inj hrow)
          change (col ++ [v])[i]? :: (pushRow cols row).map (·[i]?) = _
          rw [hrest]
          by_cases hlt : i < m
          · rw [if_pos hlt, if_pos hlt, List.getElem?_append_left (by omega)]
            rfl
          · rw [if_neg hlt, if_neg hlt, List.getElem?_append_right (by omega),
              show i - col.length = 0 by omega]
            rfl

theorem columns_spec {n : Nat} {rows : List (List α)} (h : ∀ row ∈ rows, row.length = n) :
    (columns n rows).length = n ∧ Level (columns n rows) rows.length ∧
      (n ≠ 0 → unnest (columns n rows) = rows.map (·.map some)) := by
  induction rows using List.reverseRecOn with
  | nil =>
      refine ⟨List.length_replicate, ?_, fun hn => ?_⟩
      · intro col hcol
        rw [List.eq_of_mem_replicate hcol]
        rfl
      · have hlevel : Level (List.replicate n ([] : List α)) 0 := fun col hcol => by
          rw [List.eq_of_mem_replicate hcol]
          rfl
        unfold unnest columns
        rw [List.foldl_nil, height_of_level hlevel (by simpa using hn)]
        rfl
  | append_singleton rows row ih =>
      obtain ⟨hlen, hlevel, hunnest⟩ := ih fun r hr => h r (List.mem_append_left _ hr)
      have hrow : row.length = (columns n rows).length := by
        rw [hlen]
        exact h row (by simp)
      have hstep : columns n (rows ++ [row]) = pushRow (columns n rows) row := by
        unfold columns
        rw [List.foldl_append]
        rfl
      rw [hstep, List.length_append, List.length_singleton]
      refine ⟨length_pushRow.trans hlen, hlevel.pushRow hrow, fun hn => ?_⟩
      have hne : columns n rows ≠ [] := by
        intro hnil
        rw [hnil] at hlen
        exact hn hlen.symm
      have hne' : pushRow (columns n rows) row ≠ [] := by
        intro hnil
        have hzero := @length_pushRow _ (columns n rows) row
        rw [hnil, hlen] at hzero
        exact hn hzero.symm
      have hrest := hunnest hn
      unfold unnest at hrest ⊢
      rw [height_of_level hlevel hne] at hrest
      rw [height_of_level (hlevel.pushRow hrow) hne', List.range_succ, List.map_append,
        List.map_append, ← hrest]
      congr 1
      · apply List.map_congr_left
        intro i hi
        have hlt := List.mem_range.mp hi
        rw [map_getElem_pushRow hlevel hrow i hlt.le, if_pos hlt]
      · rw [List.map_singleton, List.map_singleton,
          map_getElem_pushRow hlevel hrow rows.length le_rfl, if_neg (lt_irrefl _)]

/-- Columns beside an array of one more are the rows beside its values. -/
theorem unnestWith_columns {n : Nat} (hn : n ≠ 0) {ps : List (List α × β)}
    (h : ∀ p ∈ ps, p.1.length = n) :
    unnestWith (columns n (ps.map (·.1))) (ps.map (·.2)) =
      ps.map fun p => (p.1.map some, some p.2) := by
  have hrows : ∀ row ∈ ps.map (·.1), row.length = n := by
    intro row hrow
    obtain ⟨p, hp, rfl⟩ := List.mem_map.mp hrow
    exact h p hp
  obtain ⟨hlen, hlevel, hunnest⟩ := columns_spec hrows
  have hne : columns n (ps.map (·.1)) ≠ [] := by
    intro hnil
    rw [hnil] at hlen
    exact hn hlen.symm
  rw [List.length_map] at hlevel
  have hdims := hunnest hn
  unfold unnest at hdims
  unfold unnestWith
  rw [height_of_level hlevel hne] at hdims ⊢
  rw [List.length_map, Nat.max_self]
  apply List.ext_getElem?
  intro i
  have hget := congrArg (·[i]?) hdims
  simp only [List.getElem?_map] at hget ⊢
  by_cases hi : i < ps.length
  · rw [List.getElem?_range hi] at hget ⊢
    rw [List.getElem?_eq_getElem hi] at hget ⊢
    simp only [Option.map_some, Option.some.injEq] at hget ⊢
    rw [hget, List.getElem?_eq_getElem hi, Option.map_some]
  · rw [List.getElem?_eq_none (by rw [List.length_range]; omega),
      List.getElem?_eq_none (by omega)]
    rfl

/-! ## A table with a unique key -/

variable {κ : Type*} [LinearOrder κ]

/-- Inserting some rows, each replacing the one with its key; a key twice is an
error. -/
def upsert (t : SortedMap κ β) (rows : List (κ × β)) : Option (SortedMap κ β) :=
  if (rows.map (·.1)).Nodup then some (rows.foldl (fun t r => t.insert r.1 r.2) t) else none

/-- Deleting the rows with some keys. -/
def deleteIn (t : SortedMap κ β) (keys : List κ) : SortedMap κ β :=
  t.filter fun k _ => !keys.contains k

theorem get?_foldl_insert_of_notMem {rows : List (κ × β)} {k : κ} (t : SortedMap κ β)
    (h : k ∉ rows.map (·.1)) :
    (rows.foldl (fun t r => t.insert r.1 r.2) t).get? k = t.get? k := by
  induction rows generalizing t with
  | nil => rfl
  | cons r rows ih =>
      rw [List.map_cons, List.mem_cons, not_or] at h
      rw [List.foldl_cons, ih _ h.2, SortedMap.get?_insert, if_neg h.1]

theorem get?_foldl_insert_of_mem {rows : List (κ × β)} {k : κ} {v : β} (t : SortedMap κ β)
    (hrows : (rows.map (·.1)).Nodup) (h : (k, v) ∈ rows) :
    (rows.foldl (fun t r => t.insert r.1 r.2) t).get? k = some v := by
  induction rows generalizing t with
  | nil => cases h
  | cons r rows ih =>
      rw [List.map_cons, List.nodup_cons] at hrows
      rw [List.foldl_cons]
      cases List.mem_cons.mp h with
      | inl heq =>
          rw [← heq] at hrows ⊢
          rw [get?_foldl_insert_of_notMem _ hrows.1, SortedMap.get?_insert_self]
      | inr hmem => exact ih _ hrows.2 hmem

theorem get?_deleteIn (t : SortedMap κ β) (keys : List κ) (k : κ) :
    (deleteIn t keys).get? k = if k ∈ keys then none else t.get? k := by
  unfold deleteIn
  rw [SortedMap.get?_filter]
  by_cases hk : k ∈ keys
  · cases t.get? k <;> simp [hk]
  · cases t.get? k <;> simp [hk]

end Improv.Lib.Columns
