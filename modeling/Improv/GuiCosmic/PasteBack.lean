import Improv.GuiCosmic.Html
/-!
# A copied range pasted

The table that was written is read back row by row: between two tags stands no
tag of another kind, so each scan stops where the writer went on.
-/

namespace Improv.GuiCosmic.Clip

open Improv.Lib Improv.Lib.ByteOffsets

/-! ## Rows as written -/

def cellTag (header : Bool) (i : Nat) : Text :=
  if header = true ∧ i = 0 then "th".toList else "td".toList

def cellHtml (tag c : Text) : Text :=
  '<' :: tag ++ '>' :: escape c ++ "</".toList ++ tag ++ ['>']

def rowHtml (header : Bool) (p : List Text × Nat) : Text :=
  "<tr>".toList ++ p.1.flatMap (cellHtml (cellTag header p.2)) ++ "</tr>\n".toList

theorem toHtml_eq (rows : List (List Text)) (header : Bool) :
    toHtml rows header = "<meta charset=\"utf-8\">".toList ++
      ("<table>\n".toList ++ rows.zipIdx.flatMap (rowHtml header)) ++ "</table>".toList := by
  unfold toHtml
  rw [← List.append_assoc]
  rfl

theorem cellTag_cases (header : Bool) (i : Nat) :
    cellTag header i = "td".toList ∨ cellTag header i = "th".toList := by
  unfold cellTag
  split
  · exact .inr rfl
  · exact .inl rfl

/-- A cell holds no tag of the row's or of the table's. -/
theorem quiet_cellHtml {tag c : Text} (htag : tag = "td".toList ∨ tag = "th".toList)
    {pat : Text} (hpat : pat = "<tr".toList ∨ pat = "</table>".toList) :
    quiet [pat] (cellHtml tag c) = true := by
  have hescape : quiet [pat] (escape c) = true := by
    apply quiet_escape
    intro p hp
    rw [List.mem_singleton.mp hp]
    rcases hpat with rfl | rfl <;> rfl
  have hopen : quiet [pat] ('<' :: tag ++ ['>']) = true := by
    rcases htag with rfl | rfl <;> rcases hpat with rfl | rfl <;> decide
  have hclose : quiet [pat] ("</".toList ++ tag ++ ['>']) = true := by
    rcases htag with rfl | rfl <;> rcases hpat with rfl | rfl <;> decide
  have hwhole := quiet_append (quiet_append hopen hescape) hclose
  have heq : cellHtml tag c = '<' :: tag ++ ['>'] ++ escape c ++ ("</".toList ++ tag ++ ['>']) := by
    simp [cellHtml]
  rwa [heq]

/-! ## The cells of a row -/

/-- The first cell is read, and what closes it is left. -/
theorem cellsOf_cell {lead tag c : Text} {fuel : Nat}
    (hlead : quiet ["<td".toList, "<th".toList] lead = true)
    (htag : tag = "td".toList ∨ tag = "th".toList) (rest : Text) :
    cellsOf (fuel + 1) (lead ++ (cellHtml tag c ++ rest)) =
      normalized c :: cellsOf fuel ("</".toList ++ tag ++ ['>'] ++ rest) := by
  have hshape : cellHtml tag c ++ rest =
      '<' :: tag ++ '>' :: (escape c ++ ("</".toList ++ tag ++ ['>'] ++ rest)) := by
    simp [cellHtml]
  have hopen : scan ["<td".toList, "<th".toList] (cellHtml tag c ++ rest) =
      some ([], cellHtml tag c ++ rest) := by
    rw [hshape]
    rcases htag with rfl | rfl <;> rfl
  have hgt : scan [['>']] (cellHtml tag c ++ rest) =
      some ('<' :: tag, '>' :: (escape c ++ ("</".toList ++ tag ++ ['>'] ++ rest))) := by
    rw [hshape]
    rcases htag with rfl | rfl <;> rfl
  have hclose : scan ["</td".toList, "</th".toList, "<td".toList, "<th".toList]
      (escape c ++ ("</".toList ++ tag ++ ['>'] ++ rest)) =
        some (escape c, "</".toList ++ tag ++ ['>'] ++ rest) := by
    rw [scan_quiet (quiet_escape (by decide) c)]
    have hhere : scan ["</td".toList, "</th".toList, "<td".toList, "<th".toList]
        ("</".toList ++ tag ++ ['>'] ++ rest) = some ([], "</".toList ++ tag ++ ['>'] ++ rest) := by
      rcases htag with rfl | rfl <;> rfl
    rw [hhere, Option.map_some, List.append_nil]
  rw [cellsOf, scan_quiet hlead, hopen]
  simp only [Option.map_some, hgt, List.tail_cons, hclose, cellText_escape]

theorem cellsOf_cells {tag tail : Text} (htag : tag = "td".toList ∨ tag = "th".toList)
    (htail : quiet ["<td".toList, "<th".toList] tail = true) {cells : List Text} {lead : Text}
    {fuel : Nat} (hlead : quiet ["<td".toList, "<th".toList] lead = true)
    (hfuel : cells.length < fuel) :
    cellsOf fuel (lead ++ (cells.flatMap (cellHtml tag) ++ tail)) = cells.map normalized := by
  induction cells generalizing lead fuel with
  | nil =>
      obtain ⟨fuel, rfl⟩ : ∃ f, fuel = f + 1 := ⟨fuel - 1, by omega⟩
      rw [List.flatMap_nil, List.nil_append, cellsOf, scan_none (quiet_append hlead htail)]
      rfl
  | cons c cells ih =>
      rw [List.length_cons] at hfuel
      obtain ⟨fuel, rfl⟩ : ∃ f, fuel = f + 1 := ⟨fuel - 1, by omega⟩
      have hclose : quiet ["<td".toList, "<th".toList] ("</".toList ++ tag ++ ['>']) = true := by
        rcases htag with rfl | rfl <;> decide
      rw [List.flatMap_cons, List.append_assoc, cellsOf_cell hlead htag, ih hclose (by omega),
        List.map_cons]

theorem length_le_flatMap {α : Type} {f : α → Text} (hf : ∀ x, f x ≠ []) (l : List α) :
    l.length ≤ (l.flatMap f).length := by
  induction l with
  | nil => exact Nat.zero_le _
  | cons x l ih =>
      have hpos := List.length_pos_iff.mpr (hf x)
      rw [List.length_cons, List.flatMap_cons, List.length_append]
      omega

/-- A row's element gives its cells. -/
theorem cellsOf_row (header : Bool) (p : List Text × Nat) :
    cellsOf (bytes (rowHtml header p) + 1) (rowHtml header p) = p.1.map normalized := by
  have hlength : p.1.length ≤ (rowHtml header p).length := by
    have h := length_le_flatMap (f := cellHtml (cellTag header p.2))
      (fun c => by simp [cellHtml]) p.1
    unfold rowHtml
    rw [List.length_append, List.length_append]
    omega
  have hbytes := length_le_bytes (rowHtml header p)
  have hcells : cellsOf (bytes (rowHtml header p) + 1)
      ("<tr>".toList ++ (p.1.flatMap (cellHtml (cellTag header p.2)) ++ "</tr>\n".toList)) =
        p.1.map normalized :=
    cellsOf_cells (cellTag_cases header p.2) (by decide) (by decide) (by omega)
  rwa [← List.append_assoc] at hcells

/-! ## The rows of a table -/

theorem rowsOf_rows {header : Bool} {ps : List (List Text × Nat)} {lead : Text} {fuel : Nat}
    (hlead : quiet ["<tr".toList] lead = true) (hfuel : ps.length < fuel) :
    rowsOf fuel (lead ++ ps.flatMap (rowHtml header)) = ps.map fun p => p.1.map normalized := by
  induction ps generalizing lead fuel with
  | nil =>
      obtain ⟨fuel, rfl⟩ : ∃ f, fuel = f + 1 := ⟨fuel - 1, by omega⟩
      rw [List.flatMap_nil, List.append_nil, rowsOf, scan_none hlead]
      rfl
  | cons p ps ih =>
      rw [List.length_cons] at hfuel
      obtain ⟨fuel, rfl⟩ : ∃ f, fuel = f + 1 := ⟨fuel - 1, by omega⟩
      let more : Text :=
        ['>'] ++ p.1.flatMap (cellHtml (cellTag header p.2)) ++ "</tr>\n".toList
      have hrow : rowHtml header p = "<tr".toList ++ more := rfl
      have hquiet : quiet ["<tr".toList] more = true := by
        refine quiet_append (quiet_append (by decide) (quiet_flatMap fun c _ => ?_)) (by decide)
        exact quiet_cellHtml (cellTag_cases header p.2) (.inl rfl)
      have hopen : ∀ rest : Text, scan ["<tr".toList] (rowHtml header p ++ rest) =
          some ([], rowHtml header p ++ rest) := fun rest => rfl
      have hdrop : ∀ rest : Text, (rowHtml header p ++ rest).drop 3 = more ++ rest :=
        fun rest => rfl
      have htake : ∀ rest : Text, (rowHtml header p ++ rest).take 3 = "<tr".toList :=
        fun rest => rfl
      rw [List.flatMap_cons, rowsOf, scan_quiet hlead, hopen]
      simp only [Option.map_some, hdrop, htake]
      rw [scan_quiet hquiet]
      cases ps with
      | nil =>
          have hcells := cellsOf_row header p
          have hend := @ih [] fuel rfl (by omega)
          rw [List.flatMap_nil, List.append_nil] at hend
          have hnone : scan ["<tr".toList] [] = none := rfl
          simp only [List.flatMap_nil, List.append_nil, hnone, Option.map_none, hcells, hend]
          rfl
      | cons q qs =>
          have hcells := cellsOf_row header p
          have hnext := @ih [] fuel rfl (by omega)
          have hfirst : scan ["<tr".toList] ((q :: qs).flatMap (rowHtml header)) =
              some ([], (q :: qs).flatMap (rowHtml header)) := rfl
          rw [List.nil_append] at hnext
          simp only [hfirst, Option.map_some, List.append_nil, ← hrow, hcells, hnext]
          rfl

/-- The table that was written is read with each run of whitespace as one space
and none around a cell. -/
theorem tableOf_toHtml (rows : List (List Text)) (header : Bool) :
    tableOf (toHtml rows header) = some (rows.map (·.map normalized)) := by
  let body : Text := rows.zipIdx.flatMap (rowHtml header)
  have hopen : scan ["<table".toList] (toHtml rows header) =
      some ("<meta charset=\"utf-8\">".toList,
        "<table>\n".toList ++ body ++ "</table>".toList) := by
    rw [toHtml_eq, List.append_assoc, scan_quiet (by decide)]
    rfl
  have hquiet : quiet ["</table>".toList] ("<table>\n".toList ++ body) = true := by
    refine quiet_append (by decide) (quiet_flatMap fun p _ => ?_)
    refine quiet_append (quiet_append (by decide) (quiet_flatMap fun c _ => ?_)) (by decide)
    exact quiet_cellHtml (cellTag_cases header p.2) (.inr rfl)
  have hclose : scan ["</table>".toList] ("<table>\n".toList ++ body ++ "</table>".toList) =
      some ("<table>\n".toList ++ body, "</table>".toList) := by
    have hhere : scan ["</table>".toList] "</table>".toList = some ([], "</table>".toList) := rfl
    rw [scan_quiet hquiet, hhere, Option.map_some, List.append_nil]
  have hlength : rows.zipIdx.length ≤ bytes ("<table>\n".toList ++ body) := by
    have h : rows.zipIdx.length ≤ body.length :=
      length_le_flatMap (fun p => by simp [rowHtml]) rows.zipIdx
    have hbody := length_le_bytes body
    rw [bytes_append]
    omega
  have hrows : rowsOf (bytes ("<table>\n".toList ++ body) + 1) ("<table>\n".toList ++ body) =
      rows.zipIdx.map fun p => p.1.map normalized :=
    rowsOf_rows (by decide) (by omega)
  unfold tableOf
  simp only [hopen, Option.map_some, hclose, Option.getD_some]
  rw [hrows, ← List.zipIdx_map_fst 0 rows, List.map_map, List.zipIdx_map_fst]
  rfl

/-! ## Both ways -/

/-- A grid is pasted as itself just when its last row is not an empty cell under
others in a single column. -/
theorem pastes_back (rows : List (List Text)) (width : Nat) (hrows : rows ≠ [])
    (hwidth : 0 < width) (hrect : ∀ r ∈ rows, r.length = width) :
    (fromTsv (toTsv rows) = rows ∧
        (∀ header, fromHtml (toHtml rows header) = some (some (rows.map (·.map normalized)))) ∧
        ∀ text, fromHtml text ≠ none) ↔
      ¬ (2 ≤ rows.length ∧ rows.getLast? = some [[]]) := by
  have hne : ∀ r ∈ rows, r ≠ [] := by
    intro r hr hnil
    have h := hrect r hr
    rw [hnil, List.length_nil] at h
    omega
  have hread : ∀ text, fromHtml text ≠ none := by
    intro text
    rw [fromHtml_eq]
    exact Option.some_ne_none _
  have hhtml : ∀ header,
      fromHtml (toHtml rows header) = some (some (rows.map (·.map normalized))) := by
    intro header
    rw [fromHtml_eq, tableOf_toHtml]
  rw [← LosesLast, ← fromTsv_toTsv_iff hrows hne]
  exact ⟨fun h => h.1, fun h => ⟨h, hhtml, hread⟩⟩

theorem pastes_back_table :
    let rows : List (List Text) :=
      [["Q1\t".toList, "<b>&\n".toList], ["\x22".toList, "".toList]]
    fromTsv (toTsv rows) = rows ∧
      (∀ header, fromHtml (toHtml rows header) = some (some (rows.map (·.map normalized)))) ∧
      ∀ text, fromHtml text ≠ none :=
  (pastes_back [["Q1\t".toList, "<b>&\n".toList], ["\x22".toList, "".toList]] 2 (by decide)
    (by decide) (by decide)).mpr (by decide)

/-- The newline before an empty last cell is taken for the end of the row
above. -/
theorem pastes_back_drops_row :
    fromTsv (toTsv [["a".toList], ["".toList]]) = [["a".toList]] ∧
      ¬ ∀ (rows : List (List Text)) (width : Nat), rows ≠ [] → 0 < width →
        (∀ r ∈ rows, r.length = width) → fromTsv (toTsv rows) = rows := by
  have hlost : fromTsv (toTsv [["a".toList], ["".toList]]) = [["a".toList]] := by decide
  refine ⟨hlost, fun h => ?_⟩
  have hkept := h [["a".toList], ["".toList]] 1 (by decide) (by decide) (by decide)
  rw [hlost] at hkept
  exact absurd hkept (by decide)

end Improv.GuiCosmic.Clip
