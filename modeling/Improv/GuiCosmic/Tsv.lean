import Improv.GuiCosmic.Clip
/-!
# Tab-separated text read back

The rows that were written come back, but for a single column whose last cell is
empty: its last row is a newline at the end of the text, which ends the row
before.
-/

namespace Improv.GuiCosmic.Clip

open Improv.Lib

/-! ## Fields -/

namespace Scan

/-- The reader at the start of a cell. -/
def fresh (rows : List (List Text)) (row : List Text) : Scan := ⟨rows, row, [], false, true⟩

/-- One character read. -/
theorem run_cons (c : Char) (cs : Text) (st : Scan) :
    run (c :: cs) st =
      if c = '\x22' ∧ st.atStart = true ∧ st.quoted = false then
        run cs { st with quoted := true, atStart := false }
      else if c = '\x22' ∧ st.quoted = true then
        if cs.head? = some '\x22' then run cs.tail (st.push '\x22')
        else run cs { st with quoted := false, atStart := false }
      else if c = '\t' ∧ st.quoted = false then run cs st.endCell
      else if c = '\r' ∧ st.quoted = false ∧ cs.head? = some '\n' then
        run cs { st with atStart := false }
      else if c = '\n' ∧ st.quoted = false then run cs st.endRow
      else run cs (st.push c) := by
  cases cs with
  | nil => rfl
  | cons d ds =>
      by_cases hd : d = '\x22'
      · rw [hd]
        rfl
      · have hhead : (d :: ds).head? ≠ some '\x22' := fun h => hd (Option.some.inj h)
        have hcons : ∀ cs, d :: ds = '\x22' :: cs → False := fun cs h => hd (List.cons.inj h).1
        rw [if_neg hhead, run]
        exact hcons

theorem run_tab (cs : Text) (rows : List (List Text)) (row : List Text) (cell : Text) (b : Bool) :
    run ('\t' :: cs) ⟨rows, row, cell, false, b⟩ = run cs (fresh rows (row ++ [cell])) := by
  rw [run_cons, if_neg (by simp), if_neg (by simp), if_pos (by simp)]
  rfl

theorem run_newline (cs : Text) (rows : List (List Text)) (row : List Text) (cell : Text)
    (b : Bool) :
    run ('\n' :: cs) ⟨rows, row, cell, false, b⟩ = run cs (fresh (rows ++ [row ++ [cell]]) []) := by
  rw [run_cons, if_neg (by simp), if_neg (by simp), if_neg (by simp), if_neg (by simp),
    if_pos (by simp)]
  rfl

/-- Plain characters are the cell's. -/
theorem run_plain {s : Text} (hs : ∀ c ∈ s, special c = false) (rest : Text)
    (rows : List (List Text)) (row : List Text) (cell : Text) (b : Bool) :
    ∃ b', run (s ++ rest) ⟨rows, row, cell, false, b⟩ =
      run rest ⟨rows, row, cell ++ s, false, b'⟩ := by
  induction s generalizing cell b with
  | nil => exact ⟨b, by simp⟩
  | cons c cs ih =>
      have ⟨hc, hcs⟩ := List.forall_mem_cons.mp hs
      simp only [special, Bool.or_eq_false_iff, decide_eq_false_iff_not] at hc
      obtain ⟨b', hb'⟩ := ih hcs (cell ++ [c]) false
      refine ⟨b', ?_⟩
      rw [List.cons_append, run_cons, if_neg fun h => hc.2 h.1, if_neg fun h => hc.2 h.1,
        if_neg fun h => hc.1.1.1 h.1, if_neg fun h => hc.1.2 h.1, if_neg fun h => hc.1.1.2 h.1]
      show run (cs ++ rest) ⟨rows, row, cell ++ [c], false, false⟩ = _
      rw [hb', List.append_assoc, List.singleton_append]

/-- Inside quotes a doubled quote is one, and every other character stands for
itself. -/
theorem run_quoted (s : Text) {rest : Text} (hrest : rest.head? ≠ some '\x22')
    (rows : List (List Text)) (row : List Text) (cell : Text) :
    run ((s.flatMap fun c => if c = '\x22' then ['\x22', '\x22'] else [c]) ++ '\x22' :: rest)
        ⟨rows, row, cell, true, false⟩ =
      run rest ⟨rows, row, cell ++ s, false, false⟩ := by
  induction s generalizing cell with
  | nil =>
      rw [List.flatMap_nil, List.nil_append, run_cons, if_neg (by simp), if_pos (by simp),
        if_neg hrest, List.append_nil]
  | cons c cs ih =>
      have hassoc : cell ++ c :: cs = (cell ++ [c]) ++ cs := by simp
      rw [List.flatMap_cons, hassoc, ← ih]
      by_cases hc : c = '\x22'
      · rw [if_pos hc, hc]
        rfl
      · rw [if_neg hc, List.singleton_append, List.cons_append, run_cons, if_neg (by simp),
          if_neg (by simp [hc]), if_neg (by simp), if_neg (by simp), if_neg (by simp)]
        rfl

/-- A field that was written is read as its cell. -/
theorem run_field (s : Text) {rest : Text} (hrest : rest.head? ≠ some '\x22')
    (rows : List (List Text)) (row : List Text) :
    ∃ b, run (field s ++ rest) (fresh rows row) = run rest ⟨rows, row, s, false, b⟩ := by
  unfold field
  by_cases hs : s.any special = true
  · rw [if_pos hs]
    refine ⟨false, ?_⟩
    have hbody := run_quoted s hrest rows row []
    rw [List.nil_append] at hbody
    rw [← hbody, List.cons_append, List.cons_append, run_cons, if_pos ⟨rfl, rfl, rfl⟩,
      List.append_assoc]
    rfl
  · rw [if_neg hs]
    rw [Bool.not_eq_true, List.any_eq_false] at hs
    obtain ⟨b, hb⟩ := run_plain (s := s) (fun c hc => by simpa using hs c hc) rest rows row [] true
    exact ⟨b, hb⟩

end Scan

/-! ## Rows -/

def rowText (r : List Text) : Text := ['\t'].intercalate (r.map field)

theorem rowText_cons (s : Text) {r : List Text} (hr : r ≠ []) :
    rowText (s :: r) = field s ++ '\t' :: rowText r := by
  obtain ⟨t, r, rfl⟩ := List.exists_cons_of_ne_nil hr
  unfold rowText
  simp

theorem rowText_singleton (s : Text) : rowText [s] = field s := by
  simp [rowText]

theorem toTsv_cons (r : List Text) {rows : List (List Text)} (hrows : rows ≠ []) :
    toTsv (r :: rows) = rowText r ++ '\n' :: toTsv rows := by
  obtain ⟨t, rows, rfl⟩ := List.exists_cons_of_ne_nil hrows
  unfold toTsv
  simp [rowText]

theorem toTsv_singleton (r : List Text) : toTsv [r] = rowText r := by
  simp [toTsv, rowText]

/-- A row that was written is read up to its last cell. -/
theorem run_rowText {r : List Text} (hr : r ≠ []) {rest : Text} (hrest : rest.head? ≠ some '\x22')
    (rows : List (List Text)) (row : List Text) :
    ∃ init cell b, init ++ [cell] = row ++ r ∧
      Scan.run (rowText r ++ rest) (.fresh rows row) =
        Scan.run rest ⟨rows, init, cell, false, b⟩ := by
  induction r generalizing row with
  | nil => exact absurd rfl hr
  | cons s r ih =>
      by_cases hnil : r = []
      · obtain ⟨b, hb⟩ := Scan.run_field s hrest rows row
        exact ⟨row, s, b, by rw [hnil], by rw [hnil, rowText_singleton, hb]⟩
      · obtain ⟨b, hb⟩ := @Scan.run_field s ('\t' :: (rowText r ++ rest)) (by simp) rows row
        obtain ⟨init, cell, b', hinit, hrun⟩ := ih hnil (row ++ [s])
        refine ⟨init, cell, b', by rw [hinit]; simp, ?_⟩
        rw [rowText_cons s hnil, List.append_assoc, List.cons_append, hb, Scan.run_tab, hrun]

/-- Rows that were written are read as they are. -/
theorem run_toTsv {rows : List (List Text)} (hne : rows ≠ []) (hrows : ∀ r ∈ rows, r ≠ [])
    (before : List (List Text)) :
    Scan.run (toTsv rows) (.fresh before []) = before ++ rows := by
  induction rows generalizing before with
  | nil => exact absurd rfl hne
  | cons r rows ih =>
      have ⟨hr, hrows'⟩ := List.forall_mem_cons.mp hrows
      by_cases hnil : rows = []
      · obtain ⟨init, cell, b, hinit, hrun⟩ := @run_rowText r hr [] (by simp) before []
        rw [List.append_nil] at hrun
        rw [hnil, toTsv_singleton, hrun, Scan.run, hinit, List.nil_append]
      · obtain ⟨init, cell, b, hinit, hrun⟩ :=
          @run_rowText r hr ('\n' :: toTsv rows) (by simp) before []
        rw [toTsv_cons r hnil, hrun, Scan.run_newline, hinit, ih hnil hrows', List.nil_append,
          List.append_assoc, List.singleton_append]

/-! ## The last character -/

/-- No row ends in a line break of its own. -/
theorem getLast?_field (s : Text) {c : Char} (hc : c = '\n' ∨ c = '\r') :
    (field s).getLast? ≠ some c := by
  unfold field
  by_cases hs : s.any special = true
  · rw [if_pos hs, List.getLast?_concat]
    rcases hc with rfl | rfl <;> decide
  · rw [if_neg hs]
    rw [Bool.not_eq_true, List.any_eq_false] at hs
    intro hlast
    refine hs c (List.mem_of_getLast? hlast) ?_
    rcases hc with rfl | rfl <;> decide

theorem getLast?_append_cons (a b : Text) (d : Char) :
    (a ++ d :: b).getLast? = some (b.getLast?.getD d) := by
  rw [List.getLast?_append_of_ne_nil _ (List.cons_ne_nil _ _), List.getLast?_cons]

theorem getLast?_rowText {r : List Text} (hr : r ≠ []) {c : Char} (hc : c = '\n' ∨ c = '\r') :
    (rowText r).getLast? ≠ some c := by
  induction r with
  | nil => exact absurd rfl hr
  | cons s r ih =>
      by_cases hnil : r = []
      · rw [hnil, rowText_singleton]
        exact getLast?_field s hc
      · rw [rowText_cons s hnil, getLast?_append_cons]
        intro h
        cases hlast : (rowText r).getLast? with
        | none =>
            rw [hlast, Option.getD_none, Option.some.injEq] at h
            rw [← h] at hc
            revert hc
            decide
        | some d =>
            rw [hlast] at h
            exact ih hnil (hlast.trans h)

theorem rowText_eq_nil {r : List Text} (hr : r ≠ []) : rowText r = [] ↔ r = [[]] := by
  obtain ⟨s, r, rfl⟩ := List.exists_cons_of_ne_nil hr
  by_cases hnil : r = []
  · rw [hnil, rowText_singleton]
    unfold field
    by_cases hs : s.any special = true
    · rw [if_pos hs]
      refine iff_of_false (by simp) fun h => ?_
      rw [(List.cons.inj h).1] at hs
      cases hs
    · rw [if_neg hs]
      simp
  · rw [rowText_cons s hnil]
    exact iff_of_false (by simp) (by simp [hnil])

/-- A single column of two or more rows whose last cell is empty. -/
def LosesLast (rows : List (List Text)) : Prop := 2 ≤ rows.length ∧ rows.getLast? = some [[]]

instance (rows : List (List Text)) : Decidable (LosesLast rows) :=
  inferInstanceAs (Decidable (_ ∧ _))

theorem toTsv_eq_nil {rows : List (List Text)} (hne : rows ≠ []) (hrows : ∀ r ∈ rows, r ≠ []) :
    toTsv rows = [] ↔ rows = [[[]]] := by
  obtain ⟨r, rows, rfl⟩ := List.exists_cons_of_ne_nil hne
  by_cases hnil : rows = []
  · rw [hnil, toTsv_singleton, rowText_eq_nil (hrows r List.mem_cons_self)]
    simp
  · rw [toTsv_cons r hnil]
    exact iff_of_false (by simp) (by simp [hnil])

theorem getLast?_toTsv_ne_return {rows : List (List Text)} (hne : rows ≠ [])
    (hrows : ∀ r ∈ rows, r ≠ []) : (toTsv rows).getLast? ≠ some '\r' := by
  induction rows with
  | nil => exact absurd rfl hne
  | cons r rows ih =>
      have ⟨hr, hrows'⟩ := List.forall_mem_cons.mp hrows
      by_cases hnil : rows = []
      · rw [hnil, toTsv_singleton]
        exact getLast?_rowText hr (.inr rfl)
      · rw [toTsv_cons r hnil, getLast?_append_cons]
        have hlater := ih hnil hrows'
        cases hlast : (toTsv rows).getLast? with
        | none => decide
        | some d => rwa [hlast] at hlater

/-- The text ends in a newline exactly when the last row is one empty cell. -/
theorem getLast?_toTsv {rows : List (List Text)} (hne : rows ≠ []) (hrows : ∀ r ∈ rows, r ≠ []) :
    (toTsv rows).getLast? = some '\n' ↔ LosesLast rows := by
  induction rows with
  | nil => exact absurd rfl hne
  | cons r rows ih =>
      have ⟨hr, hrows'⟩ := List.forall_mem_cons.mp hrows
      unfold LosesLast
      by_cases hnil : rows = []
      · rw [hnil, toTsv_singleton]
        exact iff_of_false (getLast?_rowText hr (.inl rfl)) (by simp)
      · have hlen := List.length_pos_of_ne_nil hnil
        have hempty := toTsv_eq_nil hnil hrows'
        have hlater := ih hnil hrows'
        unfold LosesLast at hlater
        rw [toTsv_cons r hnil, getLast?_append_cons, List.length_cons,
          List.getLast?_cons_of_ne_nil hnil]
        cases hlast : (toTsv rows).getLast? with
        | none =>
            rw [hempty.mp (List.getLast?_eq_none_iff.mp hlast)]
            simp
        | some d =>
            rw [hlast] at hlater
            rw [Option.getD_some, hlater]
            constructor
            · exact fun h => ⟨by omega, h.2⟩
            · intro h
              refine ⟨?_, h.2⟩
              by_contra hshort
              obtain ⟨t, ht⟩ := List.length_eq_one_iff.mp (show rows.length = 1 by omega)
              rw [ht, List.getLast?_singleton, Option.some.injEq] at h
              rw [ht, h.2] at hlast
              cases hlast

/-! ## The whole text -/

theorem stripSuffix?_newline (s : Text) :
    stripSuffix? ['\n'] s = if s.getLast? = some '\n' then some s.dropLast else none := by
  unfold stripSuffix?
  have hsuffix : ['\n'] <:+ s ↔ s.getLast? = some '\n' := by
    constructor
    · rintro ⟨t, rfl⟩
      exact List.getLast?_concat
    · intro h
      exact ⟨s.dropLast, List.dropLast_append_getLast? _ h⟩
  by_cases h : s.getLast? = some '\n'
  · rw [if_pos (hsuffix.mpr h), if_pos h, List.dropLast_eq_take]
    rfl
  · rw [if_neg fun h' => h (hsuffix.mp h'), if_neg h]

theorem stripSuffix?_return_newline {s : Text} (h : s.getLast? ≠ some '\n') :
    stripSuffix? ['\r', '\n'] s = none := by
  unfold stripSuffix?
  rw [if_neg]
  rintro ⟨t, rfl⟩
  exact h (by simp)

/-- An empty cell written after rows is a newline. -/
theorem toTsv_concat {rows : List (List Text)} (hne : rows ≠ []) :
    toTsv (rows ++ [[[]]]) = toTsv rows ++ ['\n'] := by
  induction rows with
  | nil => exact absurd rfl hne
  | cons r rows ih =>
      rw [List.cons_append, toTsv_cons r (by simp)]
      by_cases hnil : rows = []
      · rw [hnil, toTsv_singleton]
        rfl
      · rw [toTsv_cons r hnil, ih hnil, List.append_assoc, List.cons_append]

/-- Written rows come back exactly when the last is not lost. -/
theorem fromTsv_toTsv_iff {rows : List (List Text)} (hne : rows ≠ [])
    (hrows : ∀ r ∈ rows, r ≠ []) : fromTsv (toTsv rows) = rows ↔ ¬ LosesLast rows := by
  have hlast := getLast?_toTsv hne hrows
  by_cases hlose : LosesLast rows
  · refine iff_of_false ?_ (not_not.mpr hlose)
    obtain ⟨init, rfl⟩ : ∃ init, rows = init ++ [[[]]] :=
      ⟨rows.dropLast, (List.dropLast_append_getLast? _ hlose.2).symm⟩
    have hinit : init ≠ [] := by
      intro hnil
      have hlen := hlose.1
      rw [hnil, List.nil_append, List.length_singleton] at hlen
      omega
    have hinitRows : ∀ r ∈ init, r ≠ [] := fun r hr => hrows r (List.mem_append_left _ hr)
    have hreturn : stripSuffix? ['\r', '\n'] (toTsv init ++ ['\n']) = none := by
      unfold stripSuffix?
      rw [if_neg]
      rintro ⟨t, ht⟩
      have hlast : t ++ ['\r'] = toTsv init := by
        refine List.append_cancel_right (?_ : t ++ ['\r'] ++ ['\n'] = toTsv init ++ ['\n'])
        rw [← ht, List.append_assoc]
        rfl
      refine getLast?_toTsv_ne_return hinit hinitRows ?_
      rw [← hlast, List.getLast?_concat]
    unfold fromTsv
    simp only
    rw [toTsv_concat hinit, hreturn, stripSuffix?_newline, if_pos List.getLast?_concat,
      List.dropLast_concat]
    show Scan.run (toTsv init) (.fresh [] []) ≠ init ++ [[[]]]
    rw [run_toTsv hinit hinitRows, List.nil_append]
    simp
  · refine iff_of_true ?_ hlose
    rw [← hlast] at hlose
    unfold fromTsv
    simp only
    rw [stripSuffix?_return_newline hlose, stripSuffix?_newline, if_neg hlose]
    exact run_toTsv hne hrows []

end Improv.GuiCosmic.Clip
