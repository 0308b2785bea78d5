import Improv.GuiCosmic.Pivot
/-!
# The cells of a grid

Each row and column of a grid meets in one cell of the pinned pages, and each
such cell is met once, as long as the lines can be counted by a machine integer.
-/

namespace Improv.GuiCosmic

open Improv.Lib Improv.CoreModel

/-! ## Lines -/

namespace Stack

variable (model : Model) (cats : List CategoryId)

/-- The lines of a stack, in order. -/
def lines : List (List (CategoryId × ItemId)) := Tuples.tuples (GuiCosmic.items model) cats

/-- The lines are counted modulo a machine integer's range. -/
theorem len_new : (new model cats).len = (lines model cats).length % usize := by
  have hfold : ∀ (lists : List (List ItemId)) (n : Nat),
      lists.foldl (fun n list => n * list.length % usize) (n % usize) =
        n * (lists.map List.length).prod % usize := by
    intro lists
    induction lists with
    | nil =>
        intro n
        rw [List.foldl_nil, List.map_nil, List.prod_nil, Nat.mul_one]
    | cons list lists ih =>
        intro n
        rw [List.foldl_cons, List.map_cons, List.prod_cons, Nat.mod_mul_mod, ih, Nat.mul_assoc]
  unfold lines len new
  rw [Tuples.length_tuples, ← Nat.one_mul (List.prod _), ← Function.comp_def List.length,
    ← List.map_map, ← hfold]
  rfl

/-- A line inside the stack is the one at its number, outside there is none. -/
theorem line_new (i : Nat) :
    ((new model cats).line i).map cats.zip =
      if i < (lines model cats).length % usize then (lines model cats)[i]? else none := by
  unfold line
  rw [len_new]
  by_cases hi : i < (lines model cats).length % usize
  · have hlt : i < (lines model cats).length := lt_of_lt_of_le hi (Nat.mod_le _ _)
    have hdecode := @Tuples.zip_decode _ _ (GuiCosmic.items model) cats
      (lt_of_le_of_lt (Nat.zero_le i) hlt) i
    rw [if_neg (not_le.mpr hi), if_pos hi]
    show (Tuples.decode (cats.map (GuiCosmic.items model)) i).1.map cats.zip = _
    rw [hdecode]
    show (lines model cats)[i % (lines model cats).length]? = _
    rw [Nat.mod_eq_of_lt hlt]
  · rw [if_pos (not_lt.mp hi), if_neg hi]
    rfl

end Stack

/-! ## Keys -/

namespace Grid

variable (model : Model) (l : Layout)

/-- The pages of a layout and the items they are pinned to. -/
def pins : List (CategoryId × ItemId) := l.pages.zip l.pageItems

theorem key_new (row col : Nat) :
    (new model l).key row col =
      ((Stack.new model l.rows).line row |>.map l.rows.zip).bind fun r =>
        ((Stack.new model l.cols).line col |>.map l.cols.zip).map (Tuples.cellAt (pins l) r) := by
  unfold key
  show (((Stack.new model l.rows).line row).bind fun r =>
    ((Stack.new model l.cols).line col).bind fun c => some _) = _
  cases (Stack.new model l.rows).line row with
  | none => rfl
  | some r => cases (Stack.new model l.cols).line col <;> rfl

/-- The key at a row and a column inside the grid is the cell where the two
lines meet. -/
theorem key_of_lines {row col : Nat} {r c : List (CategoryId × ItemId)}
    (hrow : row < (Stack.new model l.rows).len) (hcol : col < (Stack.new model l.cols).len)
    (hr : (Stack.lines model l.rows)[row]? = some r)
    (hc : (Stack.lines model l.cols)[col]? = some c) :
    (new model l).key row col = some (Tuples.cellAt (pins l) r c) := by
  rw [Stack.len_new] at hrow hcol
  rw [key_new, Stack.line_new, Stack.line_new, if_pos hrow, if_pos hcol, hr, hc]
  rfl

/-- A key is that of two lines inside the grid. -/
theorem lines_of_key {row col : Nat} {k : List (CategoryId × ItemId)}
    (hkey : (new model l).key row col = some k) :
    row < (Stack.new model l.rows).len ∧ col < (Stack.new model l.cols).len ∧
      ∃ r c, (Stack.lines model l.rows)[row]? = some r ∧
        (Stack.lines model l.cols)[col]? = some c ∧ k = Tuples.cellAt (pins l) r c := by
  rw [Stack.len_new, Stack.len_new]
  rw [key_new, Stack.line_new, Stack.line_new] at hkey
  by_cases hrow : row < (Stack.lines model l.rows).length % usize
  · by_cases hcol : col < (Stack.lines model l.cols).length % usize
    · rw [if_pos hrow, if_pos hcol] at hkey
      obtain ⟨r, hr, hk⟩ := Option.bind_eq_some_iff.mp hkey
      obtain ⟨c, hc, rfl⟩ := Option.map_eq_some_iff.mp hk
      exact ⟨hrow, hcol, r, c, hr, hc, rfl⟩
    · rw [if_neg hcol] at hkey
      obtain ⟨r, _, hk⟩ := Option.bind_eq_some_iff.mp hkey
      cases hk
  · rw [if_neg hrow] at hkey
    cases hkey

/-- The keys of a grid and the cells of its pages are one to one. -/
structure OneToOne (categories : List CategoryId) : Prop where
  every : ∀ k, Tuples.OnPage (items model) categories (pins l) k ↔
    ∃ row col, (new model l).key row col = some k
  once : ∀ {row col row' col' k}, (new model l).key row col = some k →
    (new model l).key row' col' = some k → row = row' ∧ col = col'
  inside : ∀ row col, ((new model l).key row col).isSome ↔
    row < (new model l).rows.len ∧ col < (new model l).cols.len
  /-- Rows and columns follow the items' order, outer category first. -/
  ordered : ∀ {row col r c}, row < (new model l).rows.len → col < (new model l).cols.len →
    (Tuples.tuples (items model) l.rows)[row]? = some r →
    (Tuples.tuples (items model) l.cols)[col]? = some c →
    (new model l).key row col = some (Tuples.cellAt (pins l) r c)

/-- There are no cells, or the rows and the columns can be counted. -/
def Counted : Prop :=
  (Stack.lines model l.rows).length = 0 ∨ (Stack.lines model l.cols).length = 0 ∨
    (Stack.lines model l.rows).length < usize ∧ (Stack.lines model l.cols).length < usize

variable {model l}

section Pages

variable (hdistinct : Layout.Distinct model) (h : Layout.Fits model l)
  (hpages : ∀ c ∈ l.pages, items model c ≠ [])
include hdistinct h hpages

omit hdistinct hpages in
theorem keys_pins : (pins l).map (·.1) = l.pages := List.map_fst_zip h.pinned.length_eq.le

omit hpages in
theorem nodup_keys : (l.rows ++ l.cols ++ (pins l).map (·.1)).Nodup := by
  rw [keys_pins h]
  exact Axes.nodup_parts (Layout.sound_of_fits hdistinct h)

omit hdistinct in
theorem pins_mem {p : CategoryId × ItemId} (hp : p ∈ pins l) : p.2 ∈ items model p.1 := by
  rcases (List.forall₂_iff_zip.mp h.pinned).2 hp with hin | ⟨hnone, _⟩
  · exact hin
  · exact absurd hnone (hpages p.1 (List.of_mem_zip hp).1)

theorem onPage_iff {categories : List CategoryId} (hperm : l.order.Perm categories)
    (k : List (CategoryId × ItemId)) :
    Tuples.OnPage (items model) categories (pins l) k ↔
      ∃ r ∈ Stack.lines model l.rows, ∃ c ∈ Stack.lines model l.cols,
        k = Tuples.cellAt (pins l) r c := by
  have honpage := Tuples.onPage_iff (nodup_keys hdistinct h)
    (fun p hp => pins_mem h hpages hp) k
  rw [keys_pins h, ← l.order_eq] at honpage
  rw [← Stack.lines, ← Stack.lines] at honpage
  rw [← honpage]
  exact ⟨fun hon => { hon with keys := hon.keys.trans hperm.symm },
    fun hon => { hon with keys := hon.keys.trans hperm }⟩

omit h hpages in
theorem line_inj {cats : List CategoryId} {i j : Nat} {t : List (CategoryId × ItemId)}
    (hi : (Stack.lines model cats)[i]? = some t) (hj : (Stack.lines model cats)[j]? = some t) :
    i = j := by
  have hnodup : (Stack.lines model cats).Nodup := Tuples.nodup_tuples fun c _ => hdistinct.items c
  have hlt := (List.getElem?_eq_some_iff.mp hi).1
  exact (List.getElem?_inj hlt hnodup).mp (hi.trans hj.symm)

omit hpages in
/-- Two places of one key are the same. -/
theorem key_inj {row col row' col' : Nat} {k : List (CategoryId × ItemId)}
    (hkey : (new model l).key row col = some k) (hkey' : (new model l).key row' col' = some k) :
    row = row' ∧ col = col' := by
  obtain ⟨_, _, r, c, hr, hc, rfl⟩ := lines_of_key model l hkey
  obtain ⟨_, _, r', c', hr', hc', heq⟩ := lines_of_key model l hkey'
  have ⟨hrr, hcc⟩ := Tuples.cellAt_inj (nodup_keys hdistinct h)
    (List.mem_of_getElem? hr) (List.mem_of_getElem? hr') (List.mem_of_getElem? hc)
    (List.mem_of_getElem? hc') heq
  exact ⟨line_inj hdistinct hr (hrr ▸ hr'), line_inj hdistinct hc (hcc ▸ hc')⟩

omit hdistinct h hpages in
theorem isSome_key_iff (row col : Nat) : ((new model l).key row col).isSome ↔
    row < (new model l).rows.len ∧ col < (new model l).cols.len := by
  constructor
  · intro hsome
    obtain ⟨k, hk⟩ := Option.isSome_iff_exists.mp hsome
    have ⟨hrow, hcol, _⟩ := lines_of_key model l hk
    exact ⟨hrow, hcol⟩
  · intro ⟨hrow, hcol⟩
    have hlt : ∀ {cats : List CategoryId} {i : Nat}, i < (Stack.new model cats).len →
        i < (Stack.lines model cats).length := by
      intro cats i hi
      rw [Stack.len_new] at hi
      exact lt_of_lt_of_le hi (Nat.mod_le _ _)
    rw [key_of_lines model l hrow hcol (List.getElem?_eq_getElem (hlt hrow))
      (List.getElem?_eq_getElem (hlt hcol))]
    rfl

/-- The keys are one to one with the cells exactly when the lines can be
counted. -/
theorem oneToOne_iff {categories : List CategoryId} (hperm : l.order.Perm categories) :
    OneToOne model l categories ↔ Counted model l := by
  have honpage := onPage_iff hdistinct h hpages hperm
  constructor
  · intro hone
    by_contra hnot
    unfold Counted at hnot
    push Not at hnot
    obtain ⟨hrows, hcols, hlarge⟩ := hnot
    -- the last row and the last column meet in a cell that no number names
    have hr := List.getElem?_eq_getElem (show (Stack.lines model l.rows).length - 1 <
      (Stack.lines model l.rows).length by omega)
    have hc := List.getElem?_eq_getElem (show (Stack.lines model l.cols).length - 1 <
      (Stack.lines model l.cols).length by omega)
    obtain ⟨row, col, hkey⟩ := (hone.every _).mp ((honpage _).mpr
      ⟨_, List.mem_of_getElem? hr, _, List.mem_of_getElem? hc, rfl⟩)
    obtain ⟨hrow, hcol, r', c', hr', hc', heq⟩ := lines_of_key model l hkey
    have ⟨hrr, hcc⟩ := Tuples.cellAt_inj (nodup_keys hdistinct h)
      (List.mem_of_getElem? hr) (List.mem_of_getElem? hr') (List.mem_of_getElem? hc)
      (List.mem_of_getElem? hc') heq
    have hrow' := line_inj hdistinct hr (hrr ▸ hr')
    have hcol' := line_inj hdistinct hc (hcc ▸ hc')
    rw [Stack.len_new] at hrow hcol
    have hpos : 0 < usize := by decide
    have hmodr := Nat.mod_lt (Stack.lines model l.rows).length hpos
    have hmodc := Nat.mod_lt (Stack.lines model l.cols).length hpos
    by_cases hsmall : (Stack.lines model l.rows).length < usize
    · have hlargec := hlarge hsmall
      omega
    · omega
  · intro hcounted
    constructor
    · intro k
      rw [honpage]
      constructor
      · rintro ⟨r, hr, c, hc, rfl⟩
        obtain ⟨row, hrow, hr'⟩ := List.getElem_of_mem hr
        obtain ⟨col, hcol, hc'⟩ := List.getElem_of_mem hc
        have hsmall : (Stack.lines model l.rows).length < usize ∧
            (Stack.lines model l.cols).length < usize := by
          unfold Counted at hcounted
          omega
        refine ⟨row, col, key_of_lines model l ?_ ?_ ?_ ?_⟩
        · rwa [Stack.len_new, Nat.mod_eq_of_lt hsmall.1]
        · rwa [Stack.len_new, Nat.mod_eq_of_lt hsmall.2]
        · rw [List.getElem?_eq_getElem hrow, hr']
        · rw [List.getElem?_eq_getElem hcol, hc']
      · rintro ⟨row, col, hkey⟩
        obtain ⟨_, _, r, c, hr, hc, heq⟩ := lines_of_key model l hkey
        exact ⟨r, List.mem_of_getElem? hr, c, List.mem_of_getElem? hc, heq⟩
    · exact fun hkey hkey' => key_inj hdistinct h hkey hkey'
    · exact isSome_key_iff
    · exact fun hrow hcol hr hc => key_of_lines model l hrow hcol hr hc

end Pages

end Grid

/-! ## Layouts reached -/

namespace Layout

variable (model : Model)

/-- What holds of a layout after any sequence of moves. -/
structure Law (l : Layout) : Prop where
  order : ∃ m, model.measures.get? l.measure = some m ∧ l.order.Perm m.categories
  within : l.nRows + l.nCols ≤ l.order.length
  pinned : List.Forall₂ (fun c i => items model c ≠ [] → i ∈ items model c) l.pages l.pageItems
  placeRefused : ∀ cat axis pos, (l.place model cat axis pos).1 = false →
    (l.place model cat axis pos).2 = l
  setPageRefused : ∀ i item, (l.setPage model i item).1 = false → (l.setPage model i item).2 = l
  saved : ∀ id name, fromView model (l.toView id name) = .ok (some l)

theorem place_refused (l : Layout) (cat : CategoryId) (axis : Axis) (pos : Nat)
    (h : (l.place model cat axis pos).1 = false) : (l.place model cat axis pos).2 = l := by
  unfold place at h ⊢
  by_cases hcat : cat ∈ l.order
  · rw [if_neg (not_not.mpr hcat)] at h ⊢
    simp only at h ⊢
    split at h
    · rename_i hempty
      rw [if_pos hempty]
    · cases h
  · rw [if_pos hcat]

theorem setPage_refused (l : Layout) (i : Nat) (item : ItemId)
    (h : (l.setPage model i item).1 = false) : (l.setPage model i item).2 = l := by
  unfold setPage at h ⊢
  split at h
  · cases h
  · rename_i hno
    rw [if_neg hno]

variable {model}

theorem law_of_reached (hdistinct : Distinct model) {l : Layout} (h : Reached model l) :
    Law model l := by
  have hfits := fits_of_reached hdistinct h
  constructor
  · exact hfits.order
  · exact hfits.within
  · refine hfits.pinned.imp fun c i hpinned hsome => ?_
    rcases hpinned with hin | ⟨hnone, _⟩
    · exact hin
    · exact absurd hnone hsome
  · exact place_refused model l
  · exact setPage_refused model l
  · exact fromView_toView hdistinct hfits

/-- A view's columns do not end before its rows do, once its counts are cut to
its order. -/
def Readable (v : View) : Prop :=
  min v.primary.nRows v.primary.axisOrder.length ≤
    min ((v.primary.nRows + v.primary.nCols) % usize) v.primary.axisOrder.length

instance (v : View) : Decidable (Readable v) := inferInstanceAs (Decidable (_ ≤ _))

theorem fromView_ok_iff (v : View) : (∃ r, fromView model v = .ok r) ↔
    ((model.measures.get? v.primary.measure).isSome → Readable v) := by
  unfold fromView Readable
  cases hm : model.measures.get? v.primary.measure with
  | none =>
      simp only [hm]
      exact iff_of_true ⟨_, rfl⟩ (by simp)
  | some m =>
      simp only [hm, Option.isSome_some, true_imp_iff]
      by_cases hempty : v.primary.axisOrder.isEmpty = true
      · rw [if_pos hempty, List.isEmpty_iff.mp hempty, List.length_nil, Nat.min_zero, Nat.min_zero]
        exact iff_of_true ⟨_, rfl⟩ le_rfl
      · rw [if_neg hempty]
        split
        · rename_i hslice
          exact iff_of_false (by simp) (not_le.mpr hslice)
        · rename_i hslice
          exact iff_of_true ⟨_, rfl⟩ (not_lt.mp hslice)

/-- The pivot decodes every cell once exactly for the views whose counts can be
added and the layouts whose lines can be counted. -/
theorem pivot_decodes_once (hdistinct : Distinct model) {l : Layout} (h : Reached model l)
    {m : Measure} (hm : model.measures.get? l.measure = some m) (v : View) :
    ((∃ r, fromView model v = .ok r) ∧ Law model l ∧
        ((∀ c ∈ l.pages, items model c ≠ []) → Grid.OneToOne model l m.categories)) ↔
      ((model.measures.get? v.primary.measure).isSome → Readable v) ∧
        ((∀ c ∈ l.pages, items model c ≠ []) → Grid.Counted model l) := by
  have hfits := fits_of_reached hdistinct h
  have hperm : l.order.Perm m.categories := by
    obtain ⟨m', hm', hperm⟩ := hfits.order
    rw [hm, Option.some.injEq] at hm'
    exact hm' ▸ hperm
  rw [fromView_ok_iff]
  refine and_congr_right fun _ => ?_
  rw [and_iff_right (law_of_reached hdistinct h)]
  exact forall_congr' fun hpages => Grid.oneToOne_iff hdistinct hfits hpages hperm

/-- A model of one measure over two categories. -/
def sales : Model :=
  { Model.new with
    categories := .ofList [(⟨1⟩, ⟨⟨1⟩, "Time", [⟨10⟩, ⟨11⟩]⟩), (⟨2⟩, ⟨⟨2⟩, "Product", [⟨20⟩]⟩)]
    measures := .ofList [(⟨7⟩, ⟨⟨7⟩, "Sales", .number, [⟨1⟩, ⟨2⟩], .input, none, none⟩)] }

theorem categories_sales {id : MeasureId} {m : Measure} (hm : sales.measures.get? id = some m) :
    m.categories = [⟨1⟩, ⟨2⟩] := by
  have hmem := SortedMap.get?_eq_some_iff.mp hm
  rw [show sales.measures.entries = [(⟨7⟩, ⟨⟨7⟩, "Sales", .number, [⟨1⟩, ⟨2⟩], .input, none,
    none⟩)] from rfl, List.mem_singleton, Prod.mk.injEq] at hmem
  rw [hmem.2]

theorem distinct_sales : Distinct sales where
  categories hm := by
    rw [categories_sales hm]
    decide
  items c := by
    unfold items
    cases hc : sales.categories.get? c with
    | none => exact List.nodup_nil
    | some cat =>
        have hmem := SortedMap.get?_eq_some_iff.mp hc
        rw [show sales.categories.entries = [(⟨1⟩, ⟨⟨1⟩, "Time", [⟨10⟩, ⟨11⟩]⟩),
          (⟨2⟩, ⟨⟨2⟩, "Product", [⟨20⟩]⟩)] from rfl] at hmem
        simp only [List.mem_cons, Prod.mk.injEq, List.not_mem_nil, or_false] at hmem
        rcases hmem with ⟨_, rfl⟩ | ⟨_, rfl⟩ <;> simp
  counted hm := by
    rw [categories_sales hm]
    decide

/-- Its natural layout. -/
def salesLayout : Layout := ⟨⟨[⟨1⟩, ⟨2⟩], 1, 1⟩, ⟨7⟩, []⟩

/-- The keys of the natural layout are one to one with its cells. -/
theorem pivot_decodes_once_natural : Grid.OneToOne sales salesLayout [⟨1⟩, ⟨2⟩] :=
  ((pivot_decodes_once (l := salesLayout) distinct_sales (@Reached.natural sales ⟨7⟩ _ rfl)
    (m := ⟨⟨7⟩, "Sales", .number, [⟨1⟩, ⟨2⟩], .input, none, none⟩) rfl
    (salesLayout.toView ⟨1⟩ "Sales")).mpr
      ⟨fun _ => by decide, fun _ => .inr (.inr (by decide))⟩).2.2 (by decide)

/-- A view whose counts add up to a machine integer's range. -/
def wideView : View where
  id := ⟨1⟩
  name := "Wide"
  primary := ⟨⟨7⟩, [⟨1⟩, ⟨2⟩], usize - 1, 1, [], [], ⟨0, 0, 0, 0⟩⟩
  placements := []

/-- Its rows wrap around and the slice of its columns ends before it starts. -/
theorem fromView_wideView : wideView.primary.axisOrder.Nodup ∧
    wideView.primary.nRows < usize ∧ wideView.primary.nCols < usize ∧
    fromView sales wideView = .error .slice :=
  ⟨by decide, by decide, by decide, by rfl⟩

end Layout

end Improv.GuiCosmic
