import Improv.CoreModel.Formula
import Improv.Lib.Json
/-!
# JSON at any depth a formula may have

The reader counts how deep a text nests before it reads it, in a loop, and
refuses one that nests past `maxDepth`; the reader proper then recurses once a
level.  The count is never less than the levels a reader enters, and on a text
whose brackets match it is exactly that, one past `maxDepth` standing for more.
-/

namespace Improv.CoreModel.JsonReader

open Improv.Lib Json

/-- The deepest JSON that is read. -/
def maxDepth : Nat := 3 * Expr.maxStoredFormulaDepth + 16

/-- The loop of `nesting` over the bytes that are left. -/
def nestingFrom (depth most : Nat) : (inStr escaped : Bool) → List UInt8 → Nat
  | _, _, [] => most
  | true, escaped, b :: json =>
    if escaped then nestingFrom depth most true false json
    else if b = backslash then nestingFrom depth most true true json
    else if b = quote then nestingFrom depth most false escaped json
    else nestingFrom depth most true escaped json
  | false, escaped, b :: json =>
    if b = quote then nestingFrom depth most true escaped json
    else if b = 0x5B ∨ b = 0x7B then
      if maxDepth < max most (depth + 1) then max most (depth + 1)
      else nestingFrom (depth + 1) (max most (depth + 1)) false escaped json
    else if b = 0x5D ∨ b = 0x7D then nestingFrom (depth - 1) most false escaped json
    else nestingFrom depth most false escaped json

/-- How deeply a text nests arrays and objects, strings skipped; it stops
counting once past `maxDepth`. -/
def nesting (json : List UInt8) : Nat := nestingFrom 0 0 false false json

/-- Why a text is not read: it nests past `maxDepth`, or it is no JSON of what
is asked for. -/
inductive JsonError
  | tooDeep
  | bad
deriving DecidableEq

/-- What a text holds: `read` gives its tree, with no limit of its own, and
`decode` what the tree says. -/
def fromSlice {ν α : Type} (read : List UInt8 → Option (Json ν)) (decode : Json ν → Option α)
    (json : List UInt8) : Except JsonError α :=
  if maxDepth < nesting json then .error .tooDeep
  else
    match (read json).bind decode with
    | some v => .ok v
    | none => .error .bad

/-! ## The count -/

variable {depth most m : Nat} {p waits : List UInt8}

theorem nestingFrom_nil (inStr escaped : Bool) :
    nestingFrom depth most inStr escaped [] = most := by
  cases inStr <;> rfl

theorem nestingFrom_inStr (escaped : Bool) (b : UInt8) (json : List UInt8) :
    nestingFrom depth most true escaped (b :: json) =
      if escaped then nestingFrom depth most true false json
      else if b = backslash then nestingFrom depth most true true json
      else if b = quote then nestingFrom depth most false escaped json
      else nestingFrom depth most true escaped json :=
  rfl

theorem nestingFrom_cons (escaped : Bool) (b : UInt8) (json : List UInt8) :
    nestingFrom depth most false escaped (b :: json) =
      if b = quote then nestingFrom depth most true escaped json
      else if b = 0x5B ∨ b = 0x7B then
        if maxDepth < max most (depth + 1) then max most (depth + 1)
        else nestingFrom (depth + 1) (max most (depth + 1)) false escaped json
      else if b = 0x5D ∨ b = 0x7D then nestingFrom (depth - 1) most false escaped json
      else nestingFrom depth most false escaped json :=
  rfl

theorem le_nestingFrom (inStr escaped : Bool) (json : List UInt8) :
    most ≤ nestingFrom depth most inStr escaped json := by
  induction json generalizing depth most inStr escaped with
  | nil => rw [nestingFrom_nil]
  | cons b json ih =>
      cases inStr with
      | true =>
          rw [nestingFrom_inStr]
          split_ifs
          all_goals exact ih _ _
      | false =>
          rw [nestingFrom_cons]
          split_ifs
          · exact ih _ _
          · exact le_max_left _ _
          · exact (le_max_left _ _).trans (ih _ _)
          · exact ih _ _
          · exact ih _ _

theorem nestingFrom_inside {s : List UInt8} (h : Inside s) (json : List UInt8) :
    nestingFrom depth most true false (s ++ quote :: json) =
      nestingFrom depth most false false json := by
  induction h with
  | nil => rfl
  | byte hquote hslash _ ih =>
      rw [List.cons_append, nestingFrom_inStr, if_neg Bool.false_ne_true, if_neg hslash,
        if_neg hquote]
      exact ih
  | escape _ ih => exact ih

theorem nestingFrom_plain {b : UInt8} (h : plain b = true) (json : List UInt8) :
    nestingFrom depth most false false (b :: json) = nestingFrom depth most false false json := by
  unfold plain at h
  simp only [Bool.and_eq_true, bne_iff_ne] at h
  obtain ⟨⟨⟨⟨hquote, hopen⟩, hclose⟩, hopen'⟩, hclose'⟩ := h
  rw [nestingFrom_cons, if_neg hquote, if_neg (not_or.mpr ⟨hopen, hopen'⟩),
    if_neg (not_or.mpr ⟨hclose, hclose'⟩)]

theorem nestingFrom_open {b : UInt8} (hb : b = 0x5B ∨ b = 0x7B) (hdepth : depth ≤ most)
    (hmost : most ≤ maxDepth) (json : List UInt8) :
    nestingFrom depth most false false (b :: json) =
      if max most (depth + 1) ≤ maxDepth then
        nestingFrom (depth + 1) (max most (depth + 1)) false false json
      else maxDepth + 1 := by
  have hquote : b ≠ quote := by
    obtain rfl | rfl := hb
    all_goals decide
  rw [nestingFrom_cons, if_neg hquote, if_pos hb]
  by_cases hdeep : max most (depth + 1) ≤ maxDepth
  · rw [if_neg (not_lt.mpr hdeep), if_pos hdeep]
  · rw [if_pos (not_le.mp hdeep), if_neg hdeep]
    omega

/-- The count so far is what a reader has entered. -/
theorem nesting_append (h : Scans p waits m) (json : List UInt8) :
    nesting (p ++ json) = if m ≤ maxDepth then nestingFrom waits.length m false false json
      else maxDepth + 1 := by
  induction h generalizing json with
  | start => rfl
  | plain _ hb ih =>
      rw [List.append_assoc, ih]
      split_ifs
      · exact nestingFrom_plain hb json
      · rfl
  | string _ hs ih =>
      rw [List.append_assoc, ih]
      split_ifs
      · rw [List.cons_append, List.append_assoc]
        exact nestingFrom_inside hs json
      · rfl
  | @array p waits m hp ih =>
      rw [List.append_assoc, ih]
      by_cases hm : m ≤ maxDepth
      · rw [if_pos hm]
        exact nestingFrom_open (Or.inl rfl) hp.length_le hm json
      · rw [if_neg hm, if_neg fun hc => hm ((le_max_left _ _).trans hc)]
  | @object p waits m hp ih =>
      rw [List.append_assoc, ih]
      by_cases hm : m ≤ maxDepth
      · rw [if_pos hm]
        exact nestingFrom_open (Or.inr rfl) hp.length_le hm json
      · rw [if_neg hm, if_neg fun hc => hm ((le_max_left _ _).trans hc)]
  | @close p waits m c hp ih =>
      rw [List.append_assoc, ih]
      split_ifs
      · cases hp.waits_eq c List.mem_cons_self with
        | inl hc => rw [hc]; rfl
        | inr hc => rw [hc]; rfl
      · rfl

/-- A text that reads whole is counted exactly, up to one past `maxDepth`. -/
theorem nesting_eq (h : Scans p waits m) : nesting p = min m (maxDepth + 1) := by
  have happ := nesting_append h []
  rw [List.append_nil, nestingFrom_nil] at happ
  rw [happ]
  split_ifs
  all_goals omega

/-- A text never counts for less than a reader enters before it stops. -/
theorem le_nesting {json : List UInt8} (hstart : p <+: json) (h : Scans p waits m) :
    min m (maxDepth + 1) ≤ nesting json := by
  obtain ⟨rest, rfl⟩ := hstart
  rw [nesting_append h rest]
  split_ifs
  · exact (min_le_left _ _).trans (le_nestingFrom false false rest)
  · exact min_le_right _ _

/-- A text that is not refused never lets a reader past `maxDepth`. -/
theorem le_maxDepth {json : List UInt8} (hcount : nesting json ≤ maxDepth) (hstart : p <+: json)
    (h : Scans p waits m) : m ≤ maxDepth := by
  have hle := le_nesting hstart h
  omega

/-- The text of a tree that nests no deeper than `maxDepth` is read. -/
theorem fromSlice_write {ν α : Type} (read : List UInt8 → Option (Json ν))
    (decode : Json ν → Option α) (T : Tokens ν) (L : Layout) {j : Json ν}
    (hdepth : j.depth ≤ maxDepth) :
    fromSlice read decode (j.write T L 0) =
      (((read (j.write T L 0)).bind decode).map .ok).getD (.error .bad) := by
  have hcount := nesting_eq (scans_write T L j)
  unfold fromSlice
  rw [if_neg (by omega)]
  cases (read (j.write T L 0)).bind decode <;> rfl

end Improv.CoreModel.JsonReader
