import Improv.StorageSql.Import
import Improv.PgModel.Loading
/-!
# Interning the rows of a query

What interning a row's names leaves known, where the ids run out, and what the
items of an import add to a model: the items it has keep their ids and their
places, and a new one stands in its category once.
-/

namespace Improv.StorageSql

open Improv.Lib Improv.CoreModel Improv.PgModel

/-! ## Names in turn -/

/-- A category's name, as a row's cell gives it. -/
abbrev Named := CategoryId × String

/-- Some names interned, however many ids that takes. -/
def internAll (it : ItemInterner) (ps : List Named) : ItemInterner :=
  ps.foldl (fun it p => (it.intern p.1 p.2).1) it

/-- The ids do not run out while some names are interned. -/
def Fits (it : ItemInterner) (ps : List Named) : Prop :=
  (internAll it ps).nextItem ≤ max u32Max it.nextItem

instance (it : ItemInterner) (ps : List Named) : Decidable (Fits it ps) :=
  inferInstanceAs (Decidable (_ ≤ _))

/-- The coordinate of some names, by the items of each. -/
def coordAt (items : Items) (ps : List Named) : Coordinate :=
  .fromPairs (ps.map fun p => (p.1, (items.find p.1 p.2).getD ⟨0⟩))

variable {it : ItemInterner}

theorem internAll_append (ps qs : List Named) :
    internAll it (ps ++ qs) = internAll (internAll it ps) qs :=
  List.foldl_append

theorem nextItem_intern_le (it : ItemInterner) (c : CategoryId) (n : String) :
    it.nextItem ≤ (it.intern c n).1.nextItem := by
  unfold ItemInterner.intern
  split
  · exact le_rfl
  · exact Nat.le_succ _

theorem nextItem_internAll_le (it : ItemInterner) (ps : List Named) :
    it.nextItem ≤ (internAll it ps).nextItem := by
  induction ps generalizing it with
  | nil => exact le_rfl
  | cons p ps ih => exact (nextItem_intern_le it p.1 p.2).trans (ih _)

theorem fits_append {ps qs : List Named} :
    Fits it (ps ++ qs) ↔ Fits it ps ∧ Fits (internAll it ps) qs := by
  have hps := nextItem_internAll_le it ps
  have hqs := nextItem_internAll_le (internAll it ps) qs
  unfold Fits
  rw [internAll_append]
  omega

/-- A name is interned exactly where an id is left for it. -/
theorem intern_eq (c : CategoryId) (n : String) :
    intern it c n = if Fits it [(c, n)] then some (it.intern c n) else none := by
  have hiff : Fits it [(c, n)] ↔ ¬(it.map.find c n = none ∧ u32Max ≤ it.nextItem) := by
    unfold Fits internAll
    rw [List.foldl_cons, List.foldl_nil]
    unfold ItemInterner.intern
    cases h : it.map.find c n with
    | some i => simp
    | none =>
        simp only [true_and]
        omega
  unfold intern
  by_cases h : it.map.find c n = none ∧ u32Max ≤ it.nextItem
  · rw [if_pos h, if_neg fun hfits => hiff.mp hfits h]
  · rw [if_neg h, if_pos (hiff.mpr h)]

theorem extends_internAll (ps : List Named) : it.map.Extends (internAll it ps).map := by
  induction ps generalizing it with
  | nil => exact fun _ _ _ h => h
  | cons p ps ih => exact (ItemInterner.extends_intern it p.1 p.2).trans ih

theorem minted_internAll {m : Model} (h : ItemInterner.Minted m it) (ps : List Named) :
    ItemInterner.Minted m (internAll it ps) := by
  induction ps generalizing it with
  | nil => exact h
  | cons p ps ih => exact ih (h.intern p.1 p.2)

/-- Every name interned is found. -/
theorem find_internAll {ps : List Named} {p : Named} (h : p ∈ ps) :
    ∃ i, (internAll it ps).map.find p.1 p.2 = some i := by
  induction ps generalizing it with
  | nil => exact absurd h List.not_mem_nil
  | cons q ps ih =>
      rcases List.mem_cons.mp h with rfl | h
      · exact ⟨_, extends_internAll ps _ _ _ (ItemInterner.find_intern it p.1 p.2)⟩
      · exact ih h

/-- Only the names interned are new. -/
theorem mem_of_find_internAll {ps : List Named} {c : CategoryId} {n : String} {i : ItemId}
    (h : (internAll it ps).map.find c n = some i) : it.map.find c n = some i ∨ (c, n) ∈ ps := by
  induction ps generalizing it with
  | nil => exact .inl h
  | cons p ps ih =>
      rcases ih h with hfind | hmem
      · change (it.intern p.1 p.2).1.map.find c n = some i at hfind
        unfold ItemInterner.intern at hfind
        split at hfind
        · exact .inl hfind
        · rw [Items.find_add] at hfind
          split at hfind
          · rename_i hcn
            exact .inr (List.mem_cons.mpr (.inl (Prod.ext hcn.1 hcn.2)))
          · exact .inl hfind
      · exact .inr (List.mem_cons_of_mem p hmem)

/-! ## Rows in turn -/

section Rows

variable (floatText : F64 → String) (dims : List (Nat × CategoryId)) (valIdx : Nat)

/-- The names a row gives its dimensions. -/
def namesOf (row : List SqlCell) : List Named :=
  dims.map fun d => (d.2, ((row[d.1]?).getD .null).asText floatText)

/-- The number a row gives the measure. -/
def numberOf (row : List SqlCell) : Except SqlError F64 := ((row[valIdx]?).getD .null).asNumber

def numeric (row : List SqlCell) : Bool := (numberOf valIdx row).isOk

/-- The names of the rows up to the first that is not numeric. -/
def reached : List (List SqlCell) → List Named
  | [] => []
  | row :: rows =>
    namesOf floatText dims row ++ if numeric valIdx row then reached rows else []

variable {floatText dims valIdx}

/-- The coordinate a row's names add to, by the items of each. -/
def addNames (items : Items) (coord : Coordinate) (ps : List Named) : Coordinate :=
  ps.foldl (fun k p => k.insert p.1 ((items.find p.1 p.2).getD ⟨0⟩)) coord

theorem addNames_empty (items : Items) (ps : List Named) :
    addNames items .empty ps = coordAt items ps := by
  unfold addNames coordAt Coordinate.fromPairs SortedMap.ofList
  rw [List.foldl_map]

theorem internRow_spec {row : List SqlCell} (hdims : ∀ d ∈ dims, d.1 < row.length)
    (coord : Coordinate) :
    (¬Fits it (namesOf floatText dims row) ∧ internRow floatText it row dims coord = none) ∨
    (Fits it (namesOf floatText dims row) ∧ ∃ k, internRow floatText it row dims coord =
        some (internAll it (namesOf floatText dims row), k) ∧
      ∀ items, (internAll it (namesOf floatText dims row)).map.Extends items →
        k = addNames items coord (namesOf floatText dims row)) := by
  induction dims generalizing it coord with
  | nil => exact .inr ⟨le_max_right _ _, coord, rfl, fun _ _ => rfl⟩
  | cons d dims ih =>
      obtain ⟨ci, cat⟩ := d
      have hlt : ci < row.length := hdims (ci, cat) List.mem_cons_self
      have hget := List.getElem?_eq_getElem hlt
      have hnames : namesOf floatText ((ci, cat) :: dims) row =
          [(cat, row[ci].asText floatText)] ++ namesOf floatText dims row := by
        unfold namesOf
        rw [List.map_cons, hget]
        rfl
      rw [hnames, fits_append, internAll_append]
      unfold internRow
      rw [hget]
      simp only [intern_eq]
      by_cases hfits : Fits it [(cat, row[ci].asText floatText)]
      · rw [if_pos hfits]
        rcases ih (fun d hd => hdims d (List.mem_cons_of_mem _ hd))
          (coord.insert cat (it.intern cat (row[ci].asText floatText)).2) with
          ⟨hnot, heq⟩ | ⟨hrest, k, heq, hk⟩
        · exact .inl ⟨fun h => hnot h.2, heq⟩
        · refine .inr ⟨⟨hfits, hrest⟩, k, heq, fun items hitems => ?_⟩
          have hfind : items.find cat (row[ci].asText floatText) =
              some (it.intern cat (row[ci].asText floatText)).2 :=
            hitems _ _ _ (extends_internAll _ _ _ _ (ItemInterner.find_intern it _ _))
          rw [hk items hitems]
          unfold addNames
          rw [List.foldl_append, List.foldl_cons, List.foldl_nil, hfind]
          rfl
      · rw [if_neg hfits]
        exact .inl ⟨fun h => hfits h.1, rfl⟩

/-- The rows of an import: the ids run out, a row is not numeric, or each row
has its cell. -/
theorem importRows_spec {valueColumn : String} {rows : List (List SqlCell)}
    (hdims : ∀ row ∈ rows, ∀ d ∈ dims, d.1 < row.length)
    (hval : ∀ row ∈ rows, valIdx < row.length) :
    (¬Fits it (reached floatText dims valIdx rows) ∧
      importRows floatText valueColumn dims valIdx it rows = none) ∨
    Fits it (reached floatText dims valIdx rows) ∧
    ((∃ e, (∃ row ∈ rows, numeric valIdx row = false) ∧
        importRows floatText valueColumn dims valIdx it rows = some (.error e)) ∨
      (∀ row ∈ rows, numeric valIdx row = true) ∧
        ∃ cells, importRows floatText valueColumn dims valIdx it rows =
            some (.ok (internAll it (reached floatText dims valIdx rows), cells)) ∧
          ∀ items, (internAll it (reached floatText dims valIdx rows)).map.Extends items →
            List.Forall₂ (fun row c => coordAt items (namesOf floatText dims row) = c.1 ∧
              numberOf valIdx row = .ok c.2) rows cells) := by
  induction rows generalizing it with
  | nil =>
      refine .inr ⟨le_max_right _ _, .inr ⟨fun _ h => absurd h List.not_mem_nil, [], rfl, ?_⟩⟩
      exact fun _ _ => .nil
  | cons row rows ih =>
      have hlt := hval row List.mem_cons_self
      have hget := List.getElem?_eq_getElem hlt
      have hnumber : numberOf valIdx row = row[valIdx].asNumber := by
        unfold numberOf
        rw [hget]
        rfl
      unfold importRows reached
      rw [fits_append]
      rcases internRow_spec (hdims row List.mem_cons_self) .empty with
        ⟨hnot, heq⟩ | ⟨hfits, k, heq, hk⟩
      · rw [heq]
        exact .inl ⟨fun h => hnot h.1, rfl⟩
      · rw [heq, hget]
        cases hcell : row[valIdx].asNumber with
        | error e =>
            have hfalse : numeric valIdx row = false := by
              unfold numeric
              rw [hnumber, hcell]
              rfl
            simp only [hcell, hfalse, Bool.false_eq_true, if_false, List.append_nil]
            exact .inr ⟨⟨hfits, le_max_right _ _⟩, .inl ⟨_, ⟨row, List.mem_cons_self, hfalse⟩, rfl⟩⟩
        | ok value =>
            have htrue : numeric valIdx row = true := by
              unfold numeric
              rw [hnumber, hcell]
              rfl
            simp only [hcell, htrue, if_true, internAll_append]
            have hrest := @ih (internAll it (namesOf floatText dims row))
              (fun r hr => hdims r (List.mem_cons_of_mem row hr))
              (fun r hr => hval r (List.mem_cons_of_mem row hr))
            rcases hrest with ⟨hnot, hnone⟩ | ⟨hfits', ⟨e, ⟨r, hr, hbad⟩, herr⟩ |
              ⟨hall, cells, hok, hcells⟩⟩
            · rw [hnone]
              exact .inl ⟨fun h => hnot h.2, rfl⟩
            · rw [herr]
              exact .inr ⟨⟨hfits, hfits'⟩, .inl ⟨e, ⟨r, List.mem_cons_of_mem row hr, hbad⟩, rfl⟩⟩
            · rw [hok]
              refine .inr ⟨⟨hfits, hfits'⟩, .inr ⟨fun r hr => ?_, (k, value) :: cells, rfl,
                fun items hitems => .cons ⟨?_, ?_⟩ (hcells items hitems)⟩⟩
              · rcases List.mem_cons.mp hr with rfl | hr
                · exact htrue
                · exact hall r hr
              · rw [hk items ((extends_internAll _).trans hitems), addNames_empty]
              · rw [hnumber, hcell]

end Rows

end Improv.StorageSql
