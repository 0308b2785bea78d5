import Mathlib.Data.List.Basic
/-!
# Ranges of rows

Lists one after another, their elements numbered through: the part of each list
that a range of numbers falls in, and the elements that consecutive ranges give.
-/

namespace Improv.Lib.Ranges

variable {α : Type*}

/-- A slice of a list; none where its ends are out of order or past the list's. -/
def slice (l : List α) (lo hi : Nat) : Option (List α) :=
  if lo ≤ hi ∧ hi ≤ l.length then some ((l.take hi).drop lo) else none

/-- The number of each list's first element, and of the end. -/
def startsFrom (start : Nat) (parts : List (List α)) : List Nat :=
  (parts.map List.length).scanl (· + ·) start

/-- The elements numbered from `lo` to `hi` of lists that start at given numbers. -/
def pieces (parts : List (List α × Nat)) (lo hi : Nat) : Option (List α) :=
  (parts.mapM fun p =>
    slice p.1 (min (lo - p.2) p.1.length) (min (hi - p.2) p.1.length)).map List.flatten

/-- The elements of consecutive ranges, one after another. -/
def readAll (read : Nat → Nat → Option (List α)) : (start : Nat) → List Nat → Option (List α)
  | _, [] => some []
  | start, stop :: cut => do
    let rows ← read start stop
    let more ← readAll read stop cut
    return rows ++ more

theorem startsFrom_cons (start : Nat) (part : List α) (parts : List (List α)) :
    startsFrom start (part :: parts) = start :: startsFrom (start + part.length) parts := by
  unfold startsFrom
  rw [List.map_cons, List.scanl_cons]

theorem length_startsFrom (start : Nat) (parts : List (List α)) :
    (startsFrom start parts).length = parts.length + 1 := by
  unfold startsFrom
  rw [List.length_scanl, List.length_map]

/-- The last start is the number of all elements. -/
theorem getLast?_startsFrom (start : Nat) (parts : List (List α)) :
    (startsFrom start parts).getLast? = some (start + parts.flatten.length) := by
  induction parts generalizing start with
  | nil => rfl
  | cons part parts ih =>
      rw [startsFrom_cons, List.getLast?_cons, ih, Option.getD_some, List.flatten_cons,
        List.length_append, Nat.add_assoc]

theorem slice_map {β : Type*} (f : α → β) (l : List α) (lo hi : Nat) :
    slice (l.map f) lo hi = (slice l lo hi).map (List.map f) := by
  unfold slice
  rw [List.length_map, ← List.map_take, ← List.map_drop]
  split <;> rfl

theorem pieces_nil (lo hi : Nat) : pieces ([] : List (List α × Nat)) lo hi = some [] := rfl

theorem pieces_cons {part : List α} {start lo hi : Nat} (parts : List (List α × Nat))
    (hle : lo ≤ hi) :
    pieces ((part, start) :: parts) lo hi =
      (pieces parts lo hi).map (((part.take (hi - start)).drop (lo - start)) ++ ·) := by
  have hslice : slice part (min (lo - start) part.length) (min (hi - start) part.length) =
      some ((part.take (hi - start)).drop (lo - start)) := by
    have htake : part.take (min (hi - start) part.length) = part.take (hi - start) := by
      rcases Nat.le_total (hi - start) part.length with hhi | hhi
      · rw [Nat.min_eq_left hhi]
      · rw [Nat.min_eq_right hhi, List.take_length, List.take_of_length_le hhi]
    unfold slice
    rw [if_pos (by omega), htake]
    congr 1
    by_cases hlo : lo - start ≤ part.length
    · rw [Nat.min_eq_left hlo]
    · rw [List.drop_eq_nil_of_le (by rw [List.length_take]; omega),
        List.drop_eq_nil_of_le (by rw [List.length_take]; omega)]
  unfold pieces
  rw [List.mapM_cons, hslice]
  cases h : parts.mapM fun p =>
      slice p.1 (min (lo - p.2) p.1.length) (min (hi - p.2) p.1.length) with
  | none => rfl
  | some ls => rfl

/-- A range of two lists. -/
theorem drop_take_append (l m : List α) (lo hi : Nat) :
    ((l ++ m).take hi).drop lo =
      (l.take hi).drop lo ++ (m.take (hi - l.length)).drop (lo - l.length) := by
  rw [List.take_append, List.drop_append, List.length_take]
  by_cases hhi : l.length ≤ hi
  · rw [Nat.min_eq_right hhi]
  · rw [show hi - l.length = 0 by omega, List.take_zero, List.drop_nil, List.drop_nil]

theorem pieces_startsFrom (parts : List (List α)) (start : Nat) {lo hi : Nat} (hle : lo ≤ hi) :
    pieces (parts.zip (startsFrom start parts)) lo hi =
      some ((parts.flatten.take (hi - start)).drop (lo - start)) := by
  induction parts generalizing start with
  | nil => simp [pieces_nil]
  | cons part parts ih =>
      rw [startsFrom_cons, List.zip_cons_cons, pieces_cons _ hle, ih, List.flatten_cons,
        drop_take_append, Nat.sub_sub, Nat.sub_sub]
      rfl

/-- The lists that end before a range add nothing to it. -/
theorem pieces_skip (parts : List (List α)) {start lo hi : Nat} (hle : lo ≤ hi)
    (hstart : start ≤ lo) :
    let first := ((startsFrom start parts).takeWhile (· ≤ lo)).length - 1
    pieces ((parts.drop first).zip ((startsFrom start parts).drop first)) lo hi =
      some ((parts.flatten.take (hi - start)).drop (lo - start)) := by
  induction parts generalizing start with
  | nil => simp [startsFrom, hstart, pieces_nil]
  | cons part parts ih =>
      simp only
      rw [startsFrom_cons, List.takeWhile_cons, if_pos (by simpa using hstart),
        List.length_cons, Nat.add_sub_cancel]
      by_cases hnext : start + part.length ≤ lo
      · obtain ⟨first, hfirst⟩ : ∃ n,
            ((startsFrom (start + part.length) parts).takeWhile (· ≤ lo)).length = n + 1 := by
          refine ⟨((startsFrom (start + part.length) parts).takeWhile (· ≤ lo)).length - 1, ?_⟩
          cases parts with
          | nil => simp [startsFrom, hnext]
          | cons q parts =>
              rw [startsFrom_cons, List.takeWhile_cons, if_pos (by simpa using hnext)]
              simp
        have hrest := ih hnext
        simp only [hfirst, Nat.add_sub_cancel] at hrest
        have hpast : (part.take (hi - start)).drop (lo - start) = [] := by
          apply List.drop_eq_nil_of_le
          rw [List.length_take]
          omega
        rw [hfirst, List.drop_succ_cons, List.drop_succ_cons, hrest, List.flatten_cons,
          drop_take_append, Nat.sub_sub, Nat.sub_sub, hpast, List.nil_append]
      · have hnone : (startsFrom (start + part.length) parts).takeWhile (· ≤ lo) = [] := by
          cases parts with
          | nil => simp [startsFrom, hnext]
          | cons q parts =>
              rw [startsFrom_cons, List.takeWhile_cons, if_neg (by simpa using hnext)]
        rw [hnone, List.length_nil, List.drop_zero, List.drop_zero, ← startsFrom_cons]
        exact pieces_startsFrom (part :: parts) start hle

theorem le_getLast {cut : List Nat} (hsorted : cut.Pairwise (· ≤ ·)) (hne : cut ≠ []) :
    ∀ stop ∈ cut, stop ≤ cut.getLast hne := by
  induction cut with
  | nil => exact absurd rfl hne
  | cons first cut ih =>
      intro stop hstop
      rw [List.pairwise_cons] at hsorted
      by_cases hnil : cut = []
      · subst hnil
        rw [List.mem_singleton.mp hstop]
        exact Nat.le_refl _
      · rw [List.getLast_cons hnil]
        rcases List.mem_cons.mp hstop with rfl | hmem
        · exact hsorted.1 _ (List.getLast_mem hnil)
        · exact ih hsorted.2 hnil stop hmem

/-- Consecutive ranges of rows are the rows between the first start and the last
end. -/
theorem readAll_eq {read : Nat → Nat → Option (List α)} {rows : List α}
    (hread : ∀ lo hi, lo ≤ hi → hi ≤ rows.length → read lo hi = some ((rows.take hi).drop lo))
    {start : Nat} {cut : List Nat} (hsorted : (start :: cut).Pairwise (· ≤ ·))
    (hend : (start :: cut).getLast (List.cons_ne_nil _ _) ≤ rows.length) :
    readAll read start cut =
      some ((rows.take ((start :: cut).getLast (List.cons_ne_nil _ _))).drop start) := by
  induction cut generalizing start with
  | nil =>
      rw [readAll, List.getLast_singleton, List.drop_eq_nil_of_le (List.length_take_le _ _)]
  | cons stop cut ih =>
      rw [List.pairwise_cons] at hsorted
      rw [List.getLast_cons (List.cons_ne_nil _ _)] at hend
      have hle := hsorted.1 stop List.mem_cons_self
      have hlast := le_getLast hsorted.2 (List.cons_ne_nil _ _) stop List.mem_cons_self
      have hin := Nat.le_trans hlast hend
      have hrest := ih hsorted.2 hend
      obtain ⟨last, hlastEq⟩ : ∃ n, n = (stop :: cut).getLast (List.cons_ne_nil _ _) := ⟨_, rfl⟩
      rw [← hlastEq] at hlast hrest
      rw [readAll, hread start stop hle hin, hrest, List.getLast_cons (List.cons_ne_nil _ _),
        ← hlastEq]
      show some ((rows.take stop).drop start ++ (rows.take last).drop stop) = _
      have hsplit : rows.take last = rows.take stop ++ (rows.take last).drop stop := by
        calc
          rows.take last = (rows.take last).take stop ++ (rows.take last).drop stop :=
            (List.take_append_drop stop _).symm
          _ = rows.take stop ++ (rows.take last).drop stop := by
            rw [List.take_take, Nat.min_eq_left hlast]
      rw [← List.drop_append_of_le_length (by rw [List.length_take]; omega), ← hsplit]

end Improv.Lib.Ranges
