import Mathlib.Data.List.Induction
import Improv.CoreModel.Model
import Improv.Lib.WriteBatch
/-!
# The browser's cache

The cells a client has read, per measure: what each window returned, and which
page it covered.  A cell is unknown, blank, or holds a value.
-/

namespace Improv.GuiWeb

open Improv.Lib Improv.CoreModel

/-- The items to show of each category; a category left out shows them all. -/
abbrev Window := SortedMap CategoryId (List ItemId)

/-- Whether a window holds the cell at a coordinate. -/
def covers (w : Window) (coord : Coordinate) : Bool :=
  w.entries.all fun p => coord.entries.any fun q => q.1 = p.1 && p.2.contains q.2

/-- A cell as a client can know it. -/
inductive Known (V : Type)
  | value (v : V)
  /-- Nothing to show: empty, or not visible to this caller. -/
  | blank
  /-- Outside every window read so far. -/
  | notLoaded
deriving DecidableEq

variable {V : Type}

/-- A cell that holds a value or none. -/
def Known.ofOption : Option V → Known V
  | some v => .value v
  | none => .blank

structure Cache (V : Type) where
  cells : SortedMap Cell V
  /-- The windows read. -/
  loaded : List (MeasureId × Window)

namespace Cache

def empty : Cache V := ⟨.empty, []⟩

/-- Take in a window's answer: its old cells go first, so a cell absent now is
blank. -/
def fill (c : Cache V) (m : MeasureId) (w : Window) (cells : List (Coordinate × V)) : Cache V where
  cells := cells.foldl (fun s p => s.insert ⟨m, p.1⟩ p.2)
    (c.cells.filter fun k _ => !(k.measure = m && covers w k.coord))
  loaded := if (m, w) ∈ c.loaded then c.loaded else c.loaded ++ [(m, w)]

/-- Set or clear one cell (a change event, or an edit made here). -/
def set (c : Cache V) (k : Cell) (v : Option V) : Cache V :=
  { c with cells := c.cells.write k v }

/-- What is known of a cell. -/
def get (c : Cache V) (k : Cell) : Known V :=
  match c.cells.get? k with
  | some v => .value v
  | none =>
      if c.loaded.any fun l => l.1 = k.measure && covers l.2 k.coord then .blank else .notLoaded

/-- Whether a measure's window has been read. -/
def has (c : Cache V) (m : MeasureId) (w : Window) : Bool := (m, w) ∈ c.loaded

/-- Forget everything (a reload). -/
def clear (_ : Cache V) : Cache V := empty

/-! ## What is known -/

theorem get_eq_ofOption_iff {c : Cache V} {k : Cell} (h : c.get k ≠ .notLoaded) {v : Option V} :
    c.get k = .ofOption v ↔ c.cells.get? k = v := by
  unfold get at h ⊢
  cases hk : c.cells.get? k with
  | some x =>
      cases v with
      | some y => simp [Known.ofOption]
      | none => simp [Known.ofOption]
  | none =>
      simp only [hk] at h
      split at h
      · rename_i hloaded
        rw [if_pos hloaded]
        cases v <;> simp [Known.ofOption]
      · exact absurd rfl h

theorem get_eq_notLoaded_iff {c : Cache V} {k : Cell} :
    c.get k = .notLoaded ↔ c.cells.get? k = none ∧
      ∀ l ∈ c.loaded, l.1 = k.measure → covers l.2 k.coord = false := by
  unfold get
  cases hk : c.cells.get? k with
  | some v => simp
  | none =>
      simp only [List.any_eq_true, Bool.and_eq_true, decide_eq_true_iff, true_and]
      split
      · rename_i hread
        obtain ⟨l, hl, hm, hcovers⟩ := hread
        simp only [reduceCtorEq, false_iff]
        intro hnot
        rw [hnot l hl hm] at hcovers
        cases hcovers
      · rename_i hread
        rw [eq_self_iff_true, true_iff]
        intro l hl hm
        by_contra hcovers
        exact hread ⟨l, hl, hm, by simpa using hcovers⟩

@[simp] theorem get_empty (k : Cell) : (empty : Cache V).get k = .notLoaded := rfl

@[simp] theorem get_clear (c : Cache V) (k : Cell) : c.clear.get k = .notLoaded := rfl

/-! ## Setting cells -/

theorem get?_set (c : Cache V) (k : Cell) (v : Option V) (j : Cell) :
    (c.set k v).cells.get? j = if j = k then v else c.cells.get? j := by
  unfold set
  rw [SortedMap.get?_write]
  by_cases hj : j = k <;> simp [hj]

/-- The cells of an event, set one after the other. -/
def setAll (c : Cache V) (cells : List (Cell × Option V)) : Cache V :=
  cells.foldl (fun c p => c.set p.1 p.2) c

theorem get?_setAll (c : Cache V) (cells : List (Cell × Option V)) (k : Cell) :
    (c.setAll cells).cells.get? k = (WriteBatch.lastValue cells k).getD (c.cells.get? k) := by
  induction cells generalizing c with
  | nil => rfl
  | cons p cells ih =>
      show ((c.set p.1 p.2).setAll cells).cells.get? k = _
      rw [ih, get?_set, ← List.singleton_append (l := cells), WriteBatch.lastValue_append]
      cases WriteBatch.lastValue cells k with
      | some v => rfl
      | none =>
          rw [Option.none_or, WriteBatch.lastValue, WriteBatch.valuesOf_cons]
          by_cases hk : p.1 = k
          · rw [if_pos hk, if_pos hk.symm]
            rfl
          · rw [if_neg hk, if_neg fun h => hk h.symm]
            rfl

@[simp] theorem loaded_setAll (c : Cache V) (cells : List (Cell × Option V)) :
    (c.setAll cells).loaded = c.loaded := by
  induction cells generalizing c with
  | nil => rfl
  | cons p cells ih => exact ih (c.set p.1 p.2)

/-- A cell known once others are set was known before, or is one of them. -/
theorem known_of_setAll {c : Cache V} {cells : List (Cell × Option V)} {k : Cell}
    (h : (c.setAll cells).get k ≠ .notLoaded) :
    c.get k ≠ .notLoaded ∨ k ∈ cells.map (·.1) := by
  by_contra hnot
  rw [not_or, not_not] at hnot
  have hold := get_eq_notLoaded_iff.mp hnot.1
  refine h (get_eq_notLoaded_iff.mpr ⟨?_, ?_⟩)
  · rw [get?_setAll, WriteBatch.lastValue_eq_none_iff.mpr hnot.2]
    exact hold.1
  · rw [loaded_setAll]
    exact hold.2

/-! ## Windows -/

/-- What a window's answer says of a cell. -/
def answered (m : MeasureId) (cells : List (Coordinate × V)) : SortedMap Cell V :=
  cells.foldl (fun s p => s.insert ⟨m, p.1⟩ p.2) .empty

theorem get?_foldl_insert_or {m : MeasureId} (cells : List (Coordinate × V)) (s : SortedMap Cell V)
    (k : Cell) :
    (cells.foldl (fun s p => s.insert ⟨m, p.1⟩ p.2) s).get? k =
      ((answered m cells).get? k).or (s.get? k) := by
  unfold answered
  induction cells using List.reverseRecOn with
  | nil => rfl
  | append_singleton cells p ih =>
      rw [List.foldl_append, List.foldl_append]
      simp only [List.foldl_cons, List.foldl_nil, SortedMap.get?_insert]
      by_cases hk : k = ⟨m, p.1⟩
      · rw [if_pos hk, if_pos hk]
        rfl
      · rw [if_neg hk, if_neg hk]
        exact ih

/-- A cell is as the answer says where the window covers it or the answer names
it, and as it was elsewhere. -/
theorem get?_fill (c : Cache V) (m : MeasureId) (w : Window) (cells : List (Coordinate × V))
    (k : Cell) :
    (c.fill m w cells).cells.get? k =
      ((answered m cells).get? k).or
        (if k.measure = m ∧ covers w k.coord = true then none else c.cells.get? k) := by
  unfold fill
  rw [get?_foldl_insert_or, SortedMap.get?_filter]
  congr 1
  by_cases hk : k.measure = m ∧ covers w k.coord = true
  · rw [if_pos hk]
    cases c.cells.get? k with
    | none => rfl
    | some v => simp [hk.1, hk.2]
  · rw [if_neg hk]
    cases c.cells.get? k with
    | none => rfl
    | some v =>
        rw [not_and, Bool.not_eq_true] at hk
        by_cases hm : k.measure = m
        · simp [hm, hk hm]
        · simp [hm]

/-- A cell known once a window is read was known before, or is of the window. -/
theorem known_of_fill {c : Cache V} {m : MeasureId} {w : Window} {cells : List (Coordinate × V)}
    {k : Cell} (h : (c.fill m w cells).get k ≠ .notLoaded) :
    c.get k ≠ .notLoaded ∨ (k.measure = m ∧ covers w k.coord = true) ∨
      (answered m cells).contains k = true := by
  by_contra hnot
  rw [not_or, not_or, not_not] at hnot
  have ⟨hold, hcovers, hanswered⟩ := hnot
  rw [get_eq_notLoaded_iff] at hold
  refine h (get_eq_notLoaded_iff.mpr ⟨?_, fun l hl hm => ?_⟩)
  · rw [SortedMap.contains, Option.not_isSome_iff_eq_none] at hanswered
    rw [get?_fill, hanswered, if_neg hcovers]
    exact hold.1
  · unfold fill at hl
    simp only at hl
    split at hl
    · exact hold.2 l hl hm
    · rcases List.mem_append.mp hl with hl | hl
      · exact hold.2 l hl hm
      · rw [List.mem_singleton] at hl
        rw [hl] at hm ⊢
        rw [not_and, Bool.not_eq_true] at hcovers
        exact hcovers hm.symm

end Cache

end Improv.GuiWeb
