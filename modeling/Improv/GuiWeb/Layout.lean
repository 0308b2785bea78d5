import Improv.GuiWeb.Cache
import Improv.Lib.Odometer
import Improv.Lib.Tuples
/-!
# A worksheet's pivot

Which categories are on rows, columns and pages, which page item is picked, and
the cells that layout puts on screen.  A sheet is kept when a new structure is
adopted, and saved to a view and read back from one.
-/

namespace Improv.GuiWeb

open Improv.Lib Improv.CoreModel

/-! ## The structure -/

/-- A category and its visible items, in grid order. -/
structure CategoryOut where
  id : CategoryId
  items : List ItemId
  distinct : items.Nodup

/-- A measure and its categories, in its order. -/
structure MeasureOut where
  id : MeasureId
  categories : List CategoryId
  distinct : categories.Nodup

/-- What the client may see of the model's structure. -/
structure Structure where
  categories : List CategoryOut
  measures : List MeasureOut

namespace Structure

def measure (s : Structure) (id : MeasureId) : Option MeasureOut :=
  s.measures.find? fun m => m.id = id

def category (s : Structure) (id : CategoryId) : Option CategoryOut :=
  s.categories.find? fun c => c.id = id

/-- A measure's categories; none of a measure that is not there. -/
def categoriesOf (s : Structure) (id : MeasureId) : List CategoryId :=
  (s.measure id).elim [] (·.categories)

/-- A category's visible items; none of a category that is not there. -/
def itemsOf (s : Structure) (id : CategoryId) : List ItemId := (s.category id).elim [] (·.items)

theorem nodup_categoriesOf (s : Structure) (id : MeasureId) : (s.categoriesOf id).Nodup := by
  unfold categoriesOf
  cases s.measure id with
  | none => exact List.nodup_nil
  | some m => exact m.distinct

theorem nodup_itemsOf (s : Structure) (id : CategoryId) : (s.itemsOf id).Nodup := by
  unfold itemsOf
  cases s.category id with
  | none => exact List.nodup_nil
  | some c => exact c.distinct

end Structure

/-! ## Sheets -/

/-- Where a category sits in a worksheet. -/
inductive Axis
  | rows
  | columns
  | pages
deriving DecidableEq

/-- One worksheet: a measure and its own pivot, whose order is a permutation of
the measure's categories. -/
structure Sheet extends Axes CategoryId where
  measure : MeasureId
  /-- The picked item per page category (absent: its first). -/
  page : SortedMap CategoryId ItemId
deriving DecidableEq

namespace Sheet

/-- A sheet of a measure in its natural order: its first category on rows, the
second on columns, the rest pages. -/
def new (s : Structure) (measure : MeasureId) : Sheet :=
  let order := s.categoriesOf measure
  let nRows := min order.length 1
  let nCols := min (order.length - nRows) 1
  { measure, order, nRows, nCols, page := .empty }

/-- From a saved view's matrix; its order is kept only when it is a permutation
of the measure's categories. -/
def fromPlacement (s : Structure) (p : MatrixPlacement) : Sheet :=
  let sheet := new s p.measure
  let order := p.axisOrder
  let sheet :=
    if order ≠ [] ∧ order.mergeSort (· ≤ ·) = sheet.order.mergeSort (· ≤ ·) then
      let nRows := min p.nRows order.length
      { sheet with
        order
        nRows
        nCols := min p.nCols (order.length - nRows) }
    else sheet
  { sheet with page := p.pageItems.foldl (fun page q => page.insert q.1 q.2) sheet.page }

variable (sh : Sheet)

/-- The sheet as a saved view's matrix. -/
def toPlacement : MatrixPlacement where
  measure := sh.measure
  axisOrder := sh.order
  nRows := sh.nRows
  nCols := sh.nCols
  pageItems := sh.pages.filterMap fun c => (sh.page.get? c).map fun i => (c, i)
  filters := []
  rect := ⟨0, 0, 0, 0⟩

def axisOf (c : CategoryId) : Option Axis :=
  if c ∈ sh.order then
    let i := sh.order.idxOf c
    some (if i < sh.nRows then .rows else if i < sh.nRows + sh.nCols then .columns else .pages)
  else none

/-- The sheet with these categories on its rows, columns and pages. -/
def withAxes (r k p : List CategoryId) : Sheet :=
  { sh with toAxes := .ofParts r k p }

/-- Drop a category on an axis: it becomes that axis's last. -/
def moveTo (c : CategoryId) (dest : Axis) : Sheet :=
  if sh.axisOf c = none then sh
  else
    let r := sh.rows.filter (· ≠ c)
    let k := sh.cols.filter (· ≠ c)
    let p := sh.pages.filter (· ≠ c)
    match dest with
    | .rows => sh.withAxes (r ++ [c]) k p
    | .columns => sh.withAxes r (k ++ [c]) p
    | .pages => sh.withAxes r k (p ++ [c])

/-- Pick a page's item. -/
def pick (c : CategoryId) (i : ItemId) : Sheet := { sh with page := sh.page.insert c i }

/-- The page item picked for a page category: the one chosen, while it is still
visible, else the first visible item. -/
def pageItem (s : Structure) (c : CategoryId) : Option ItemId :=
  (s.category c).bind fun k =>
    ((sh.page.get? c).filter fun i => k.items.any (· = i)).or k.items.head?

/-- The tuples down one axis: every combination of the axis's categories'
visible items, outer category first. -/
def tuples (s : Structure) (cats : List CategoryId) : List (List (CategoryId × ItemId)) :=
  cats.foldl (fun out c => out.flatMap fun t => (s.itemsOf c).map fun i => t ++ [(c, i)]) [[]]

/-- The window to ask the server for: this page, every row and column. -/
def window (s : Structure) : Window :=
  .ofList (sh.pages.filterMap fun c => (sh.pageItem s c).map fun i => (c, [i]))

/-- The picked items of the page. -/
def picked (s : Structure) : List (CategoryId × ItemId) :=
  sh.pages.filterMap fun c => (sh.pageItem s c).map fun i => (c, i)

/-- The coordinate of the cell at `row` × `col` on this page. -/
def coordAt (s : Structure) (row col : List (CategoryId × ItemId)) : List (CategoryId × ItemId) :=
  Tuples.arrange (row ++ col ++ sh.picked s)

/-- A category dropped where a kept sheet has it. -/
def putBack (keep sheet : Sheet) (c : CategoryId) : Sheet :=
  match keep.axisOf c with
  | some a => sheet.moveTo c a
  | none => sheet

/-- A sheet on a new structure, its categories put back from the last to the
first. -/
def readopt (s : Structure) (keep : Sheet) : Sheet :=
  { keep.order.reverse.foldl (putBack keep) (new s keep.measure) with page := keep.page }

end Sheet

/-- A new structure: keep the windows whose measures are still there. -/
def adopt (s : Structure) (wins : List Sheet) : List Sheet :=
  (wins.filter fun w => (s.measure w.measure).isSome).map (Sheet.readopt s)

/-- The sheets that a structure's worksheets come to show. -/
inductive Reached (s : Structure) : Sheet → Prop
  | new (m : MeasureId) : Reached s (.new s m)
  | fromPlacement (p : MatrixPlacement) : Reached s (.fromPlacement s p)
  | moveTo {sh : Sheet} (h : Reached s sh) (c : CategoryId) (dest : Axis) :
      Reached s (sh.moveTo c dest)
  | pick {sh : Sheet} (h : Reached s sh) (c : CategoryId) (i : ItemId) : Reached s (sh.pick c i)

/-! ## Axes -/

namespace Sheet

/-- The categories on an axis. -/
def cats (sh : Sheet) : Axis → List CategoryId
  | .rows => sh.rows
  | .columns => sh.cols
  | .pages => sh.pages

variable {sh : Sheet}

@[simp] theorem rows_withAxes (r k p : List CategoryId) : (sh.withAxes r k p).rows = r :=
  Axes.rows_ofParts r k p

@[simp] theorem cols_withAxes (r k p : List CategoryId) : (sh.withAxes r k p).cols = k :=
  Axes.cols_ofParts r k p

@[simp] theorem pages_withAxes (r k p : List CategoryId) : (sh.withAxes r k p).pages = p :=
  Axes.pages_ofParts r k p

/-- A sheet is its measure, its axes and its picks. -/
theorem withAxes_self (h : sh.Sound) : sh.withAxes sh.rows sh.cols sh.pages = sh := by
  unfold withAxes
  rw [Axes.ofParts_self h.within]

theorem mem_order_iff {c : CategoryId} : c ∈ sh.order ↔ ∃ a, c ∈ sh.cats a := by
  conv_lhs => rw [Axes.order_eq, List.mem_append, List.mem_append]
  constructor
  · rintro ((h | h) | h)
    · exact ⟨.rows, h⟩
    · exact ⟨.columns, h⟩
    · exact ⟨.pages, h⟩
  · rintro ⟨_ | _ | _, h⟩
    · exact .inl (.inl h)
    · exact .inl (.inr h)
    · exact .inr h

theorem axisOf_of_mem (h : sh.Sound) {c : CategoryId} {a : Axis} (hc : c ∈ sh.cats a) :
    sh.axisOf c = some a := by
  have hnodup := Axes.nodup_parts h
  rw [List.nodup_append, List.nodup_append] at hnodup
  have hrows := Axes.length_rows h.within
  have hcols := Axes.length_cols h.within
  unfold axisOf
  rw [if_pos (mem_order_iff.mpr ⟨a, hc⟩), Axes.order_eq]
  simp only [Option.some.injEq]
  cases a with
  | rows =>
      have hlt := List.idxOf_lt_length_of_mem (show c ∈ sh.rows from hc)
      rw [List.append_assoc, List.idxOf_append_of_mem (show c ∈ sh.rows from hc), if_pos (by omega)]
  | columns =>
      have hlt := List.idxOf_lt_length_of_mem (show c ∈ sh.cols from hc)
      have hnot : c ∉ sh.rows := fun hr => hnodup.1.2.2 c hr c hc rfl
      rw [List.append_assoc, List.idxOf_append_of_notMem hnot,
        List.idxOf_append_of_mem (show c ∈ sh.cols from hc), if_neg (by omega), if_pos (by omega)]
  | pages =>
      have hnot : c ∉ sh.rows ++ sh.cols := fun hr => hnodup.2.2 c hr c hc rfl
      rw [List.idxOf_append_of_notMem hnot, List.length_append, if_neg (by omega),
        if_neg (by omega)]

theorem axisOf_eq_some_iff (h : sh.Sound) {c : CategoryId} {a : Axis} :
    sh.axisOf c = some a ↔ c ∈ sh.cats a := by
  constructor
  · intro ha
    have hmem : c ∈ sh.order := by
      by_contra hnot
      rw [axisOf, if_neg hnot] at ha
      cases ha
    obtain ⟨b, hb⟩ := mem_order_iff.mp hmem
    rw [axisOf_of_mem h hb, Option.some.injEq] at ha
    exact ha ▸ hb
  · exact axisOf_of_mem h

/-! ## Moves -/

/-- A category moved leaves its place and becomes the last of an axis; the
others stay. -/
theorem cats_moveTo (h : sh.Sound) {c : CategoryId} (hc : c ∈ sh.order) (dest a : Axis) :
    (sh.moveTo c dest).cats a =
      (sh.cats a).filter (· ≠ c) ++ if a = dest then [c] else [] := by
  obtain ⟨b, hb⟩ := mem_order_iff.mp hc
  unfold moveTo
  rw [axisOf_of_mem h hb, if_neg (by simp)]
  cases dest <;> cases a <;> simp [cats]

theorem moveTo_of_notMem {c : CategoryId} (hc : c ∉ sh.order) (dest : Axis) :
    sh.moveTo c dest = sh := by
  unfold moveTo axisOf
  rw [if_neg hc, if_pos rfl]

@[simp] theorem measure_moveTo (sh : Sheet) (c : CategoryId) (dest : Axis) :
    (sh.moveTo c dest).measure = sh.measure := by
  unfold moveTo
  split
  · rfl
  · cases dest <;> rfl

@[simp] theorem page_moveTo (sh : Sheet) (c : CategoryId) (dest : Axis) :
    (sh.moveTo c dest).page = sh.page := by
  unfold moveTo
  split
  · rfl
  · cases dest <;> rfl

theorem order_moveTo_perm (h : sh.Sound) (c : CategoryId) (dest : Axis) :
    (sh.moveTo c dest).order.Perm sh.order := by
  by_cases hc : c ∈ sh.order
  · have hmoved := fun a => cats_moveTo h hc dest a
    have hrest : (sh.order.filter (· ≠ c) ++ [c]).Perm sh.order :=
      (List.perm_append_singleton _ _).trans (Axes.perm_cons_filter h.nodup hc)
    refine List.Perm.trans ?_ hrest
    rw [Axes.order_eq (sh.moveTo c dest).toAxes, Axes.order_eq sh.toAxes, List.filter_append,
      List.filter_append]
    have hr : (sh.moveTo c dest).rows = _ := hmoved .rows
    have hk : (sh.moveTo c dest).cols = _ := hmoved .columns
    have hp : (sh.moveTo c dest).pages = _ := hmoved .pages
    rw [hr, hk, hp]
    rw [List.perm_iff_count]
    intro d
    cases dest with
    | rows =>
        simp only [cats, if_true, reduceCtorEq, if_false, List.append_nil, List.count_append]
        omega
    | columns =>
        simp only [cats, if_true, reduceCtorEq, if_false, List.append_nil, List.count_append]
        omega
    | pages =>
        simp only [cats, if_true, reduceCtorEq, if_false, List.append_nil, List.count_append]
        omega
  · rw [moveTo_of_notMem hc]

theorem sound_moveTo (h : sh.Sound) (c : CategoryId) (dest : Axis) :
    (sh.moveTo c dest).Sound := by
  refine ⟨(order_moveTo_perm h c dest).nodup_iff.mpr h.nodup, ?_⟩
  unfold moveTo
  split
  · exact h.within
  · cases dest <;> exact Axes.within_ofParts _ _ _

/-! ## Sheets of a structure -/

/-- A sheet orders the categories of its measure in the structure. -/
structure Fits (s : Structure) (sh : Sheet) : Prop extends Axes.Sound sh.toAxes where
  order : sh.order.Perm (s.categoriesOf sh.measure)

variable {s : Structure}

theorem fits_new (s : Structure) (m : MeasureId) : Fits s (new s m) where
  nodup := s.nodup_categoriesOf m
  within := by
    simp only [new]
    omega
  order := .refl _

theorem fits_fromPlacement (s : Structure) (p : MatrixPlacement) :
    Fits s (fromPlacement s p) := by
  have hnew := fits_new s p.measure
  unfold fromPlacement
  by_cases h : p.axisOrder ≠ [] ∧
      p.axisOrder.mergeSort (· ≤ ·) = (new s p.measure).order.mergeSort (· ≤ ·)
  · simp only [if_pos h]
    have hperm : p.axisOrder.Perm (new s p.measure).order := by
      have hsort := (List.mergeSort_perm p.axisOrder (· ≤ ·)).symm
      rw [h.2] at hsort
      exact hsort.trans (List.mergeSort_perm _ _)
    refine ⟨⟨hperm.nodup_iff.mpr hnew.nodup, ?_⟩, hperm.trans hnew.order⟩
    show min p.nRows p.axisOrder.length + min p.nCols (p.axisOrder.length - _) ≤
      p.axisOrder.length
    omega
  · simp only [if_neg h]
    exact ⟨⟨hnew.nodup, hnew.within⟩, hnew.order⟩

theorem fits_moveTo (h : Fits s sh) (c : CategoryId) (dest : Axis) : Fits s (sh.moveTo c dest) where
  toSound := sound_moveTo h.toSound c dest
  order := by
    rw [measure_moveTo]
    exact (order_moveTo_perm h.toSound c dest).trans h.order

theorem fits_of_reached (h : Reached s sh) : Fits s sh := by
  induction h with
  | new m => exact fits_new s m
  | fromPlacement p => exact fits_fromPlacement s p
  | moveTo _ c dest ih => exact fits_moveTo ih c dest
  | pick _ c i ih => exact ⟨⟨ih.nodup, ih.within⟩, ih.order⟩

/-! ## What a sheet shows -/

/-- The coordinates on screen, row by row. -/
def shown (s : Structure) (sh : Sheet) : List (List (CategoryId × ItemId)) :=
  (tuples s sh.rows).flatMap fun row => (tuples s sh.cols).map fun col => sh.coordAt s row col

theorem tuples_eq (s : Structure) (cats : List CategoryId) :
    tuples s cats = Tuples.tuples s.itemsOf cats := by
  unfold tuples
  rw [Tuples.foldl_tuples, List.flatMap_singleton]
  simp

theorem pageItem_mem {c : CategoryId} {i : ItemId} (h : sh.pageItem s c = some i) :
    i ∈ s.itemsOf c := by
  unfold pageItem at h
  unfold Structure.itemsOf
  cases hc : s.category c with
  | none =>
      rw [hc] at h
      cases h
  | some k =>
      rw [hc, Option.bind_some, Option.or_eq_some_iff] at h
      show i ∈ k.items
      rcases h with h | ⟨_, h⟩
      · rw [Option.filter_eq_some_iff] at h
        simpa using h.2
      · exact List.mem_of_head? h

theorem pageItem_isSome {c : CategoryId} (h : s.itemsOf c ≠ []) : (sh.pageItem s c).isSome := by
  unfold Structure.itemsOf at h
  unfold pageItem
  cases hc : s.category c with
  | none =>
      rw [hc] at h
      exact absurd rfl h
  | some k =>
      rw [hc] at h
      rw [Option.bind_some, Option.isSome_or, Bool.or_eq_true, List.isSome_head?]
      exact .inr (by simpa using h)

theorem mem_picked_iff {p : CategoryId × ItemId} :
    p ∈ sh.picked s ↔ p.1 ∈ sh.pages ∧ sh.pageItem s p.1 = some p.2 := by
  unfold picked
  rw [List.mem_filterMap]
  constructor
  · rintro ⟨c, hc, hp⟩
    obtain ⟨i, hi, rfl⟩ := Option.map_eq_some_iff.mp hp
    exact ⟨hc, hi⟩
  · intro ⟨hc, hi⟩
    exact ⟨p.1, hc, by rw [hi]; rfl⟩

theorem keys_picked (hpages : ∀ c ∈ sh.pages, s.itemsOf c ≠ []) :
    (sh.picked s).map (·.1) = sh.pages := by
  calc
    (sh.picked s).map (·.1) = sh.pages.filter fun c => (sh.pageItem s c).isSome :=
      Tuples.keys_filterMap (sh.pageItem s) id sh.pages
    _ = sh.pages := List.filter_eq_self.mpr fun c hc => pageItem_isSome (hpages c hc)

section Shown

variable (h : Fits s sh) (hpages : ∀ c ∈ sh.pages, s.itemsOf c ≠ [])
include h hpages

theorem keys_shown : (sh.rows ++ sh.cols ++ (sh.picked s).map (·.1)).Nodup := by
  rw [keys_picked hpages]
  exact Axes.nodup_parts h.toSound

/-- The coordinates on screen are those of the measure on the picked page. -/
theorem mem_shown_iff (coord : List (CategoryId × ItemId)) :
    coord ∈ sh.shown s ↔
      Tuples.OnPage s.itemsOf (s.categoriesOf sh.measure) (sh.picked s) coord := by
  have honpage := @Tuples.onPage_iff _ _ s.itemsOf _ _ _ _ _ (keys_shown h hpages)
    (fun p hp => pageItem_mem (mem_picked_iff.mp hp).2) coord
  rw [keys_picked hpages, ← Axes.order_eq] at honpage
  have hkeys : Tuples.OnPage s.itemsOf (s.categoriesOf sh.measure) (sh.picked s) coord ↔
      Tuples.OnPage s.itemsOf sh.order (sh.picked s) coord :=
    ⟨fun hon => { hon with keys := hon.keys.trans h.order.symm },
      fun hon => { hon with keys := hon.keys.trans h.order }⟩
  rw [hkeys, honpage]
  unfold shown coordAt
  simp only [tuples_eq, List.mem_flatMap, List.mem_map, Tuples.cellAt, eq_comm]

theorem nodup_shown : (sh.shown s).Nodup := by
  have hnodup := keys_shown h hpages
  unfold shown
  simp only [tuples_eq]
  rw [List.nodup_flatMap]
  constructor
  · intro row hrow
    refine List.Nodup.map_on ?_ (Tuples.nodup_tuples fun c _ => s.nodup_itemsOf c)
    intro col hcol col' hcol' heq
    exact (Tuples.cellAt_inj hnodup hrow hrow hcol hcol' heq).2
  · refine List.Pairwise.imp_of_mem ?_ (Tuples.nodup_tuples fun c _ => s.nodup_itemsOf c)
    intro row row' hrow hrow' hne
    show List.Disjoint _ _
    rw [List.disjoint_left]
    intro coord hcoord hcoord'
    obtain ⟨col, hcol, rfl⟩ := List.mem_map.mp hcoord
    obtain ⟨col', hcol', heq⟩ := List.mem_map.mp hcoord'
    exact hne (Tuples.cellAt_inj hnodup hrow' hrow hcol' hcol heq).1.symm

/-- What is on screen is inside the window asked for. -/
theorem covers_shown {coord : List (CategoryId × ItemId)} (hcoord : coord ∈ sh.shown s) :
    ∃ k : Coordinate, k.entries = coord ∧ covers (sh.window s) k = true := by
  have hon := (mem_shown_iff h hpages coord).mp hcoord
  refine ⟨⟨coord, hon.sorted⟩, rfl, ?_⟩
  unfold covers
  rw [List.all_eq_true]
  intro p hp
  have hkeys : ((sh.pages.filterMap fun c => (sh.pageItem s c).map fun i => (c, [i])).map
      (·.1)).Nodup := by
    rw [Tuples.keys_filterMap (sh.pageItem s) (fun i => [i])]
    exact (Axes.nodup_pages h.toSound).filter _
  have hwindow := (SortedMap.get?_ofList_of_nodup hkeys).mp (SortedMap.get?_eq_some_iff.mpr hp)
  obtain ⟨c, hc, hi⟩ := List.mem_filterMap.mp hwindow
  obtain ⟨i, hi, heq⟩ := Option.map_eq_some_iff.mp hi
  have hmem : (c, i) ∈ coord := hon.page (mem_picked_iff.mpr ⟨hc, hi⟩)
  rw [List.any_eq_true]
  refine ⟨(c, i), hmem, ?_⟩
  have hc' : c = p.1 := congrArg Prod.fst heq
  have hi' : [i] = p.2 := congrArg Prod.snd heq
  rw [← hc', ← hi']
  simp

end Shown

/-! ## Saved sheets -/

theorem mergeSort_eq_of_perm {cs ds : List CategoryId} (h : cs.Perm ds) :
    cs.mergeSort (· ≤ ·) = ds.mergeSort (· ≤ ·) := by
  refine List.Perm.eq_of_pairwise ?_ (List.pairwise_mergeSort' (· ≤ ·) cs)
    (List.pairwise_mergeSort' (· ≤ ·) ds) ?_
  · intro a b _ _ hab hba
    exact le_antisymm hab hba
  · exact (List.mergeSort_perm _ _).trans (h.trans (List.mergeSort_perm _ _).symm)

theorem ofList_pageItems (h : sh.Sound) :
    SortedMap.ofList sh.toPlacement.pageItems = sh.page.filter fun c _ => c ∈ sh.pages := by
  have hkeys : (sh.toPlacement.pageItems.map (·.1)).Nodup := by
    unfold toPlacement
    rw [Tuples.keys_filterMap sh.page.get? (fun i => i)]
    exact (Axes.nodup_pages h).filter _
  ext c i
  rw [SortedMap.get?_ofList_of_nodup hkeys, SortedMap.get?_filter, Option.filter_eq_some_iff]
  unfold toPlacement
  rw [List.mem_filterMap]
  constructor
  · rintro ⟨d, hd, hi⟩
    obtain ⟨j, hj, heq⟩ := Option.map_eq_some_iff.mp hi
    rw [Prod.mk.injEq] at heq
    rw [heq.1, heq.2] at hj
    exact ⟨hj, by simpa [heq.1] using hd⟩
  · intro ⟨hi, hc⟩
    exact ⟨c, by simpa using hc, by rw [hi]; rfl⟩

/-- A sheet saved and read back has its axes and its page items. -/
theorem fromPlacement_toPlacement (h : Fits s sh) :
    fromPlacement s sh.toPlacement =
      { sh with page := sh.page.filter fun c _ => c ∈ sh.pages } := by
  rw [← ofList_pageItems h.toSound]
  have hwithin := h.within
  by_cases hempty : sh.order = []
  · have hnone : s.categoriesOf sh.measure = [] := (hempty ▸ h.order).nil_eq.symm
    rw [hempty, List.length_nil] at hwithin
    obtain ⟨⟨order, nRows, nCols⟩, measure, page⟩ := sh
    simp only at hempty hnone hwithin
    subst hempty
    obtain rfl : nRows = 0 := by omega
    obtain rfl : nCols = 0 := by omega
    simp [fromPlacement, toPlacement, new, hnone, SortedMap.ofList]
  · have hsort : sh.order.mergeSort (· ≤ ·) = (new s sh.measure).order.mergeSort (· ≤ ·) :=
      mergeSort_eq_of_perm h.order
    have hrows : min sh.nRows sh.order.length = sh.nRows := by omega
    have hcols : min sh.nCols (sh.order.length - sh.nRows) = sh.nCols := by omega
    have hkept := And.intro hempty hsort
    unfold fromPlacement
    simp only [toPlacement]
    simp only [ne_eq, if_pos hkept, hrows, hcols]
    rfl

/-! ## Adopted sheets -/

/-- Each category put back leaves its place and becomes the last of its old
axis. -/
theorem foldl_putBack {keep : Sheet} (hkeep : keep.Sound) {cs : List CategoryId} (hcs : cs.Nodup)
    {w : Sheet} (hw : w.Sound) (hin : ∀ c ∈ cs, c ∈ w.order ∧ c ∈ keep.order) :
    (cs.foldl (putBack keep) w).Sound ∧ (cs.foldl (putBack keep) w).measure = w.measure ∧
      ∀ a, (cs.foldl (putBack keep) w).cats a =
        (w.cats a).filter (· ∉ cs) ++ cs.filter fun c => c ∈ keep.cats a := by
  induction cs generalizing w with
  | nil => exact ⟨hw, rfl, fun a => by simp⟩
  | cons c cs ih =>
      have ⟨hc, hcs'⟩ := List.nodup_cons.mp hcs
      have ⟨⟨hcw, hck⟩, hin'⟩ := List.forall_mem_cons.mp hin
      obtain ⟨b, hb⟩ := mem_order_iff.mp hck
      have hput : putBack keep w c = w.moveTo c b := by
        rw [putBack, axisOf_of_mem hkeep hb]
      have hperm := order_moveTo_perm hw c b
      have ⟨hsound, hmeasure, hcats⟩ := ih hcs' (sound_moveTo hw c b) fun d hd =>
        ⟨hperm.mem_iff.mpr (hin' d hd).1, (hin' d hd).2⟩
      rw [List.foldl_cons, hput]
      refine ⟨hsound, by rw [hmeasure, measure_moveTo], fun a => ?_⟩
      have hat : c ∈ keep.cats a ↔ a = b := by
        rw [← axisOf_eq_some_iff hkeep, axisOf_of_mem hkeep hb, Option.some.injEq, eq_comm]
      rw [hcats, cats_moveTo hw hcw, List.filter_append, List.filter_filter, List.append_assoc]
      congr 1
      · apply List.filter_congr
        intro d _
        simp [Bool.and_comm]
      · rw [List.filter_cons]
        by_cases ha : a = b
        · rw [if_pos ha, if_pos (by simpa using hat.mpr ha)]
          simp [hc]
        · rw [if_neg ha, if_neg (by simpa using fun h => ha (hat.mp h))]
          rfl

/-- The categories of an axis, picked from the order. -/
theorem filter_order (h : sh.Sound) (a : Axis) :
    sh.order.filter (fun c => c ∈ sh.cats a) = sh.cats a := by
  have hall : ∀ (l : List CategoryId), l.filter (fun c => c ∈ l) = l := by
    intro l
    rw [List.filter_eq_self]
    intro c hc
    exact decide_eq_true hc
  have hnone : ∀ (b : Axis), a ≠ b → (sh.cats b).filter (fun c => c ∈ sh.cats a) = [] := by
    intro b hab
    rw [List.filter_eq_nil_iff]
    intro c hb ha
    have heq := axisOf_of_mem h hb
    rw [axisOf_of_mem h (of_decide_eq_true ha), Option.some.injEq] at heq
    exact hab heq
  rw [Axes.order_eq, List.filter_append, List.filter_append]
  cases a with
  | rows =>
      rw [show sh.cols.filter _ = [] from hnone .columns (by decide),
        show sh.pages.filter _ = [] from hnone .pages (by decide), List.append_nil,
        List.append_nil]
      exact hall sh.rows
  | columns =>
      rw [show sh.rows.filter _ = [] from hnone .rows (by decide),
        show sh.pages.filter _ = [] from hnone .pages (by decide), List.append_nil]
      exact hall sh.cols
  | pages =>
      rw [show sh.rows.filter _ = [] from hnone .rows (by decide),
        show sh.cols.filter _ = [] from hnone .columns (by decide)]
      exact hall sh.pages

/-- A sheet put back from the last category to the first has each of its axes
in the reverse order. -/
theorem readopt_eq {s' : Structure} (h : Fits s sh)
    (hsame : (s'.categoriesOf sh.measure).Perm (s.categoriesOf sh.measure)) :
    readopt s' sh = sh.withAxes sh.rows.reverse sh.cols.reverse sh.pages.reverse := by
  have hnew := fits_new s' sh.measure
  have hcats : (s'.categoriesOf sh.measure).Perm sh.order := hsame.trans h.order.symm
  have ⟨hsound, hmeasure, haxes⟩ := foldl_putBack h.toSound
    (List.nodup_reverse.mpr h.nodup) hnew.toSound fun c hc =>
      ⟨hcats.mem_iff.mpr (List.mem_reverse.mp hc), List.mem_reverse.mp hc⟩
  have hreversed : ∀ a, (sh.order.reverse.foldl (putBack sh) (new s' sh.measure)).cats a =
      (sh.cats a).reverse := by
    intro a
    have hleft : ((new s' sh.measure).cats a).filter (· ∉ sh.order.reverse) = [] := by
      rw [List.filter_eq_nil_iff]
      intro c hc hnot
      have hmem : c ∈ sh.order := hcats.mem_iff.mp (mem_order_iff.mpr ⟨a, hc⟩)
      exact of_decide_eq_true hnot (List.mem_reverse.mpr hmem)
    rw [haxes, hleft, List.nil_append, List.filter_reverse, filter_order h.toSound]
  unfold readopt
  rw [← withAxes_self hsound, show Axes.rows _ = _ from hreversed .rows,
    show Axes.cols _ = _ from hreversed .columns, show Axes.pages _ = _ from hreversed .pages]
  unfold withAxes
  rw [hmeasure]
  rfl

theorem reverse_eq_self_iff {cs : List CategoryId} (h : cs.Nodup) :
    cs.reverse = cs ↔ cs.length ≤ 1 := by
  constructor
  · intro heq
    by_contra hlong
    have hlast : cs[0] = cs[cs.length - 1 - 0] := by
      rw [← List.getElem_reverse (by rw [List.length_reverse]; omega)]
      simp only [heq]
    have hindex := (h.getElem_inj_iff).mp hlast
    omega
  · intro hshort
    match cs with
    | [] => rfl
    | [_] => rfl
    | _ :: _ :: _ =>
        rw [List.length_cons, List.length_cons] at hshort
        omega

/-- A sheet is as it was when no axis has two categories to change places. -/
theorem readopt_eq_self_iff {s' : Structure} (h : Fits s sh)
    (hsame : (s'.categoriesOf sh.measure).Perm (s.categoriesOf sh.measure)) :
    readopt s' sh = sh ↔ ∀ a, (sh.cats a).length ≤ 1 := by
  have hnodup := Axes.nodup_parts h.toSound
  rw [List.nodup_append, List.nodup_append] at hnodup
  have hrows := reverse_eq_self_iff hnodup.1.1
  have hcols := reverse_eq_self_iff hnodup.1.2.1
  have hpages := reverse_eq_self_iff hnodup.2.1
  rw [readopt_eq h hsame]
  constructor
  · intro heq a
    cases a with
    | rows =>
        exact hrows.mp ((rows_withAxes _ _ _).symm.trans
          (congrArg (Axes.rows <| Sheet.toAxes ·) heq))
    | columns =>
        exact hcols.mp ((cols_withAxes _ _ _).symm.trans
          (congrArg (Axes.cols <| Sheet.toAxes ·) heq))
    | pages =>
        exact hpages.mp ((pages_withAxes _ _ _).symm.trans
          (congrArg (Axes.pages <| Sheet.toAxes ·) heq))
  · intro hone
    rw [hrows.mpr (hone .rows), hcols.mpr (hone .columns), hpages.mpr (hone .pages)]
    exact withAxes_self h.toSound

end Sheet

end Improv.GuiWeb
