import Improv.CoreModel.Model
import Improv.Lib.Odometer
import Improv.Lib.Tuples
/-!
# The pivot layout of one measure

Which categories run down the rows, across the columns, and which are pinned
pages, and the cell at any row and column of the result.  Lines are never
materialized: a row of a stack of categories is decoded from its number by mixed
radix, the inner category fastest.  Counts and numbers are machine integers,
which wrap around.
-/

namespace Improv.GuiCosmic

open Improv.Lib Improv.CoreModel

/-- The numbers of a machine integer. -/
def usize : Nat := 2 ^ 64

/-- Why an operation did not come back. -/
inductive Panic
  /-- A slice that ends before it starts. -/
  | slice
deriving DecidableEq

/-- A category's items in declared order. -/
def items (model : Model) (cat : CategoryId) : List ItemId :=
  (model.categories.get? cat).elim [] (·.items)

/-! ## Layouts -/

/-- Where a measure's categories sit: on rows (outer first), on columns, or
pages pinned to an item each. -/
@[ext] structure Layout extends Axes CategoryId where
  measure : MeasureId
  /-- One item per page category, in the page order. -/
  pageItems : List ItemId
deriving DecidableEq

/-- An axis or the pages: where a category tile can be dropped. -/
inductive Axis
  | rows
  | cols
  | pages
deriving DecidableEq

namespace Layout

variable (model : Model)

/-- A page's current item if it still has one, else its category's first. -/
def pin (old : List (CategoryId × ItemId)) (c : CategoryId) : ItemId :=
  let items := items model c
  (((old.find? fun p => p.1 = c && p.2 ∈ items).map (·.2)).or items.head?).getD ⟨0⟩

/-- Re-pin each page. -/
def repin (l : Layout) : Layout :=
  { l with pageItems := l.pages.map (pin model (l.pages.zip l.pageItems)) }

/-- The measure's natural layout: its first category on rows, the second on
columns, the rest pages at their first item. -/
def natural (measure : MeasureId) : Option Layout :=
  (model.measures.get? measure).map fun m =>
    let order := m.categories
    let nRows := min order.length 1
    let nCols := min (order.length - 1) 1
    repin model { order, nRows, nCols, measure, pageItems := [] }

/-- The axes with a category moved onto one of them, at a position within it,
clamped. -/
def moved (l : Axes CategoryId) (cat : CategoryId) (axis : Axis) (pos : Nat) : Axes CategoryId :=
  let rows := l.rows.filter (· ≠ cat)
  let cols := l.cols.filter (· ≠ cat)
  let pages := l.pages.filter (· ≠ cat)
  let insert (dest : List CategoryId) := dest.insertIdx (min pos dest.length) cat
  match axis with
  | .rows => .ofParts (insert rows) cols pages
  | .cols => .ofParts rows (insert cols) pages
  | .pages => .ofParts rows cols (insert pages)

/-- Move a category; refuse one not in the layout, or a move that would leave
rows or columns empty while another category sits on the pages. -/
def place (l : Layout) (cat : CategoryId) (axis : Axis) (pos : Nat) : Bool × Layout :=
  if cat ∉ l.order then (false, l)
  else
    let axes := moved l.toAxes cat axis pos
    if (axes.rows.isEmpty || axes.cols.isEmpty) && !axes.pages.isEmpty then (false, l)
    else (true, repin model { l with toAxes := axes })

/-- Swap the row and column stacks. -/
def transpose (l : Layout) : Layout := { l with toAxes := .ofParts l.cols l.rows l.pages }

/-- Pin page `i` to an item, if it belongs to that page's category. -/
def setPage (l : Layout) (i : Nat) (item : ItemId) : Bool × Layout :=
  if l.pages[i]?.any fun c => item ∈ items model c then
    (true, { l with pageItems := l.pageItems.set i item })
  else (false, l)

/-- This layout as a saved view. -/
def toView (l : Layout) (id : ViewId) (name : String) : View where
  id := id
  name := name
  primary :=
    { measure := l.measure
      axisOrder := l.order
      nRows := l.nRows
      nCols := l.nCols
      pageItems := l.pages.zip l.pageItems
      filters := []
      rect := ⟨0, 0, 0, 0⟩ }
  placements := []

/-- A view's order cut into rows and columns, its page items beside them: a
category the measure lost is dropped and one it gained joins the pages. -/
def restored (m : Measure) (p : MatrixPlacement) (rowsEnd colsEnd : Nat) : Layout :=
  let order := p.axisOrder.filter (· ∈ m.categories)
  let keptRows := (p.axisOrder.take rowsEnd).countP (· ∈ order)
  let keptCols := ((p.axisOrder.take colsEnd).drop rowsEnd).countP (· ∈ order)
  let l : Layout :=
    { order := order ++ m.categories.filter (· ∉ p.axisOrder)
      nRows := keptRows
      nCols := keptCols
      measure := p.measure
      pageItems := [] }
  { l with
    pageItems := l.pages.map fun c =>
      ((p.pageItems.find? fun q => q.1 = c).map (·.2)).getD ⟨0⟩ }

/-- The layout a saved view describes, checked against the model as it is now; a
page item that is gone falls back to the first. -/
def fromView (v : View) : Except Panic (Option Layout) :=
  let p := v.primary
  match model.measures.get? p.measure with
  | none => .ok none
  | some m =>
    if p.axisOrder.isEmpty then .ok (natural model p.measure)
    else
      let rowsEnd := min p.nRows p.axisOrder.length
      let colsEnd := min ((p.nRows + p.nCols) % usize) p.axisOrder.length
      if colsEnd < rowsEnd then .error .slice
      else .ok (some (repin model (restored m p rowsEnd colsEnd)))

/-- The layouts that a measure of the model comes to have. -/
inductive Reached : Layout → Prop
  | natural {measure : MeasureId} {l : Layout} (h : natural model measure = some l) : Reached l
  | fromView {v : View} {l : Layout} (hdistinct : v.primary.axisOrder.Nodup)
      (h : fromView model v = .ok (some l)) : Reached l
  | place {l : Layout} (h : Reached l) (cat : CategoryId) (axis : Axis) (pos : Nat) :
      Reached (l.place model cat axis pos).2
  | transpose {l : Layout} (h : Reached l) : Reached l.transpose
  | setPage {l : Layout} (h : Reached l) (i : Nat) (item : ItemId) :
      Reached (l.setPage model i item).2

end Layout

/-! ## Grids -/

/-- One axis's stack of categories, resolved to item lists. -/
structure Stack where
  cats : List CategoryId
  items : List (List ItemId)

namespace Stack

def new (model : Model) (cats : List CategoryId) : Stack where
  cats := cats
  items := cats.map (GuiCosmic.items model)

/-- How many lines the stack has. -/
def len (s : Stack) : Nat := s.items.foldl (fun n list => n * list.length % usize) 1

/-- Line `i`'s item per category, outer first; none past the end. -/
def line (s : Stack) (i : Nat) : Option (List ItemId) :=
  if s.len ≤ i then none else (Tuples.decode s.items i).1

end Stack

/-- A layout resolved against the model, ready to answer cell keys. -/
structure Grid where
  rows : Stack
  cols : Stack
  pages : List (CategoryId × ItemId)

namespace Grid

def new (model : Model) (l : Layout) : Grid where
  rows := .new model l.rows
  cols := .new model l.cols
  pages := l.pages.zip l.pageItems

/-- The engine key of the cell at a row and a column: every category's item,
sorted by category; none outside the grid. -/
def key (g : Grid) (row col : Nat) : Option (List (CategoryId × ItemId)) := do
  let r ← g.rows.line row
  let c ← g.cols.line col
  return Tuples.arrange (g.rows.cats.zip r ++ g.cols.cats.zip c ++ g.pages)

end Grid

/-! ## Pins -/

namespace Layout

/-- The models whose measures name no category twice and whose categories list
no item twice. -/
structure Distinct (model : Model) : Prop where
  categories : ∀ {id m}, model.measures.get? id = some m → m.categories.Nodup
  items : ∀ c, (items model c).Nodup
  /-- A list's length is a machine integer. -/
  counted : ∀ {id m}, model.measures.get? id = some m → m.categories.length < usize

variable {model : Model}

/-- A page's item: one of its category, or the zero item of an empty one. -/
def Pinned (model : Model) (c : CategoryId) (i : ItemId) : Prop :=
  i ∈ items model c ∨ items model c = [] ∧ i = ⟨0⟩

theorem pinned_pin (old : List (CategoryId × ItemId)) (c : CategoryId) :
    Pinned model c (pin model old c) := by
  show Pinned model c ((((old.find? fun p => p.1 = c && p.2 ∈ items model c).map (·.2)).or
    (items model c).head?).getD ⟨0⟩)
  cases hfound : old.find? fun p => p.1 = c && p.2 ∈ items model c with
  | some p =>
      have hp := List.find?_some hfound
      rw [Bool.and_eq_true] at hp
      exact .inl (of_decide_eq_true hp.2)
  | none =>
      show Pinned model c ((items model c).head?.getD ⟨0⟩)
      cases hitems : items model c with
      | nil => exact .inr ⟨hitems, rfl⟩
      | cons i is =>
          refine .inl ?_
          rw [hitems]
          exact List.mem_cons_self

theorem pinned_pageItems_repin (l : Layout) :
    List.Forall₂ (Pinned model) (repin model l).pages (repin model l).pageItems := by
  show List.Forall₂ (Pinned model) l.pages (l.pages.map (pin model _))
  rw [List.forall₂_map_right_iff]
  exact List.forall₂_same.mpr fun c _ => pinned_pin _ c

theorem find?_zip {cs : List CategoryId} {is : List ItemId} (hnodup : cs.Nodup)
    (hlen : cs.length = is.length) {q : CategoryId × ItemId} (hq : q ∈ cs.zip is)
    (keep : CategoryId × ItemId → Bool) (hkeep : keep q = true) :
    (cs.zip is).find? (fun p => p.1 = q.1 && keep p) = some q := by
  have hkeys : ((cs.zip is).map (·.1)).Nodup := by
    rw [List.map_fst_zip hlen.le]
    exact hnodup
  cases hfound : (cs.zip is).find? fun p => p.1 = q.1 && keep p with
  | none =>
      rw [List.find?_eq_none] at hfound
      exact absurd (by simp [hkeep]) (hfound q hq)
  | some p =>
      have hp := List.find?_some hfound
      rw [Bool.and_eq_true] at hp
      rw [List.inj_on_of_nodup_map hkeys (List.mem_of_find?_eq_some hfound) hq
        (of_decide_eq_true hp.1)]

theorem map_eq_of_zip {cs : List CategoryId} {is : List ItemId} (hlen : cs.length = is.length)
    {f : CategoryId → ItemId} (hf : ∀ q ∈ cs.zip is, f q.1 = q.2) : cs.map f = is := by
  calc
    cs.map f = ((cs.zip is).map (·.1)).map f := by rw [List.map_fst_zip hlen.le]
    _ = (cs.zip is).map (·.2) := by
      rw [List.map_map]
      exact List.map_congr_left hf
    _ = is := List.map_snd_zip hlen.ge

theorem pin_zip {cs : List CategoryId} {is : List ItemId} (hnodup : cs.Nodup)
    (hpinned : List.Forall₂ (Pinned model) cs is) {q : CategoryId × ItemId} (hq : q ∈ cs.zip is) :
    pin model (cs.zip is) q.1 = q.2 := by
  unfold pin
  rcases (List.forall₂_iff_zip.mp hpinned).2 hq with hin | ⟨hnone, hzero⟩
  · simp only
    rw [find?_zip hnodup hpinned.length_eq hq _ (decide_eq_true hin)]
    rfl
  · have hgone : ((cs.zip is).find? fun p => p.1 = q.1 && p.2 ∈ items model q.1) = none := by
      rw [List.find?_eq_none]
      intro p _
      simp [hnone]
    simp only
    rw [hgone, hnone, hzero]
    rfl

/-- Pins that are right stay. -/
theorem repin_eq_self {l : Layout} (hnodup : l.pages.Nodup)
    (hpinned : List.Forall₂ (Pinned model) l.pages l.pageItems) : repin model l = l := by
  unfold repin
  rw [map_eq_of_zip hpinned.length_eq fun q hq => pin_zip hnodup hpinned hq]

/-- A layout orders the categories of its measure and pins each page. -/
structure Fits (model : Model) (l : Layout) : Prop where
  order : ∃ m, model.measures.get? l.measure = some m ∧ l.order.Perm m.categories
  within : l.nRows + l.nCols ≤ l.order.length
  pinned : List.Forall₂ (Pinned model) l.pages l.pageItems

variable (hdistinct : Distinct model) {l : Layout}
include hdistinct

theorem sound_of_fits (h : Fits model l) : l.Sound := by
  obtain ⟨m, hm, hperm⟩ := h.order
  exact ⟨hperm.nodup_iff.mpr (hdistinct.categories hm), h.within⟩

omit hdistinct in
theorem fits_repin
    (horder : ∃ m, model.measures.get? l.measure = some m ∧ l.order.Perm m.categories)
    (hwithin : l.nRows + l.nCols ≤ l.order.length) : Fits model (repin model l) where
  order := horder
  within := hwithin
  pinned := pinned_pageItems_repin l

omit hdistinct in
theorem fits_natural {measure : MeasureId} (h : natural model measure = some l) : Fits model l := by
  unfold natural at h
  obtain ⟨m, hm, rfl⟩ := Option.map_eq_some_iff.mp h
  refine fits_repin ⟨m, hm, .refl _⟩ ?_
  simp only
  omega

omit hdistinct in
theorem order_moved_perm {l : Axes CategoryId} (h : l.Sound) {cat : CategoryId}
    (hcat : cat ∈ l.order) (axis : Axis) (pos : Nat) :
    (moved l cat axis pos).order.Perm l.order := by
  refine List.Perm.trans ?_ (Axes.perm_cons_filter h.nodup hcat)
  have hinsert : ∀ (dest : List CategoryId),
      (dest.insertIdx (min pos dest.length) cat).Perm (cat :: dest) := fun dest =>
    List.perm_insertIdx cat dest (min_le_right _ _)
  rw [l.order_eq, List.filter_append, List.filter_append, List.perm_iff_count]
  intro d
  have hcount := fun dest => (hinsert dest).count_eq d
  cases axis with
  | rows =>
      simp only [moved, Axes.order_ofParts, List.count_append, hcount, List.count_cons]
      omega
  | cols =>
      simp only [moved, Axes.order_ofParts, List.count_append, hcount, List.count_cons]
      omega
  | pages =>
      simp only [moved, Axes.order_ofParts, List.count_append, hcount, List.count_cons]
      omega

omit hdistinct in
theorem within_moved (l : Axes CategoryId) (cat : CategoryId) (axis : Axis) (pos : Nat) :
    (moved l cat axis pos).nRows + (moved l cat axis pos).nCols ≤
      (moved l cat axis pos).order.length := by
  cases axis <;> exact Axes.within_ofParts _ _ _

theorem fits_place (h : Fits model l) (cat : CategoryId) (axis : Axis) (pos : Nat) :
    Fits model (l.place model cat axis pos).2 := by
  unfold place
  by_cases hcat : cat ∈ l.order
  · rw [if_neg (not_not.mpr hcat)]
    simp only
    split
    · exact h
    · obtain ⟨m, hm, hperm⟩ := h.order
      have hmoved := order_moved_perm (sound_of_fits hdistinct h) hcat axis pos
      exact fits_repin ⟨m, hm, hmoved.trans hperm⟩ (within_moved _ _ _ _)
  · rw [if_pos hcat]
    exact h

omit hdistinct in
theorem fits_transpose (h : Fits model l) : Fits model l.transpose where
  order := by
    obtain ⟨m, hm, hperm⟩ := h.order
    refine ⟨m, hm, List.Perm.trans ?_ hperm⟩
    rw [l.order_eq]
    exact List.perm_append_comm.append_right _
  within := Axes.within_ofParts _ _ _
  pinned := by
    have hpages : l.transpose.pages = l.pages := Axes.pages_ofParts _ _ _
    rw [hpages]
    exact h.pinned

omit hdistinct in
theorem forall₂_set {r : CategoryId → ItemId → Prop} {cs : List CategoryId} {is : List ItemId}
    (h : List.Forall₂ r cs is) {k : Nat} {c : CategoryId} {i : ItemId} (hc : cs[k]? = some c)
    (hr : r c i) : List.Forall₂ r cs (is.set k i) := by
  induction h generalizing k with
  | nil => cases hc
  | cons hhead htail ih =>
      cases k with
      | zero =>
          rw [List.getElem?_cons_zero, Option.some.injEq] at hc
          exact .cons (hc ▸ hr) htail
      | succ k => exact .cons hhead (ih hc)

omit hdistinct in
theorem fits_setPage (h : Fits model l) (i : Nat) (item : ItemId) :
    Fits model (l.setPage model i item).2 := by
  unfold setPage
  by_cases hitem : (l.pages[i]?.any fun c => item ∈ items model c) = true
  · rw [if_pos hitem]
    refine ⟨h.order, h.within, ?_⟩
    show List.Forall₂ (Pinned model) l.pages (l.pageItems.set i item)
    obtain ⟨c, hc, hin⟩ := (Option.any_eq_true _ _).mp hitem
    exact forall₂_set h.pinned hc (.inl (of_decide_eq_true hin))
  · rw [if_neg hitem]
    exact h

omit hdistinct in
theorem order_restored_perm {m : Measure} {p : MatrixPlacement} (hm : m.categories.Nodup)
    (hp : p.axisOrder.Nodup) (rowsEnd colsEnd : Nat) :
    (restored m p rowsEnd colsEnd).order.Perm m.categories := by
  show (p.axisOrder.filter (· ∈ m.categories) ++ m.categories.filter (· ∉ p.axisOrder)).Perm _
  rw [List.perm_ext_iff_of_nodup ?_ hm]
  · intro c
    simp only [List.mem_append, List.mem_filter, decide_eq_true_eq]
    tauto
  · rw [List.nodup_append]
    refine ⟨hp.filter _, hm.filter _, fun a ha b hb heq => ?_⟩
    rw [List.mem_filter, decide_eq_true_eq] at hb
    exact hb.2 (heq ▸ (List.mem_filter.mp ha).1)

omit hdistinct in
theorem within_restored (m : Measure) (p : MatrixPlacement) {rowsEnd colsEnd : Nat}
    (h : rowsEnd ≤ colsEnd) :
    (restored m p rowsEnd colsEnd).nRows + (restored m p rowsEnd colsEnd).nCols ≤
      (restored m p rowsEnd colsEnd).order.length := by
  have htake : p.axisOrder.take rowsEnd = (p.axisOrder.take colsEnd).take rowsEnd := by
    rw [List.take_take, min_eq_left h]
  calc
    (restored m p rowsEnd colsEnd).nRows + (restored m p rowsEnd colsEnd).nCols =
        (p.axisOrder.take colsEnd).countP (· ∈ p.axisOrder.filter (· ∈ m.categories)) := by
      show List.countP _ (p.axisOrder.take rowsEnd) + List.countP _ _ = _
      rw [htake, ← List.countP_append, List.take_append_drop]
    _ ≤ p.axisOrder.countP (· ∈ p.axisOrder.filter (· ∈ m.categories)) :=
      (List.take_sublist _ _).countP_le
    _ ≤ p.axisOrder.countP (· ∈ m.categories) := by
      apply List.countP_mono_left
      intro c _ hc
      exact (List.mem_filter.mp (of_decide_eq_true hc)).2
    _ = (p.axisOrder.filter (· ∈ m.categories)).length := List.countP_eq_length_filter
    _ ≤ (restored m p rowsEnd colsEnd).order.length := by
      show _ ≤ (p.axisOrder.filter (· ∈ m.categories) ++ m.categories.filter _).length
      rw [List.length_append]
      exact Nat.le_add_right _ _

theorem fits_fromView {v : View} (hv : v.primary.axisOrder.Nodup)
    (h : fromView model v = .ok (some l)) : Fits model l := by
  unfold fromView at h
  cases hm : model.measures.get? v.primary.measure with
  | none =>
      simp only [hm] at h
      cases h
  | some m =>
      simp only [hm] at h
      split at h
      · rw [Except.ok.injEq] at h
        exact fits_natural h
      · split at h
        · cases h
        · rename_i hslice
          rw [Except.ok.injEq, Option.some.injEq] at h
          rw [← h]
          exact fits_repin ⟨m, hm, order_restored_perm (hdistinct.categories hm) hv _ _⟩
            (within_restored m _ (not_lt.mp hslice))

theorem fits_of_reached (h : Reached model l) : Fits model l := by
  induction h with
  | natural h => exact fits_natural h
  | fromView hv h => exact fits_fromView hdistinct hv h
  | place _ cat axis pos ih => exact fits_place hdistinct ih cat axis pos
  | transpose _ ih => exact fits_transpose ih
  | setPage _ i item ih => exact fits_setPage ih i item

omit hdistinct in
/-- A layout's own order and counts restore it. -/
theorem restored_toView (hnodup : l.order.Nodup) (h : Fits model l) {m : Measure}
    (hperm : l.order.Perm m.categories) (id : ViewId) (name : String) :
    restored m (l.toView id name).primary l.nRows (l.nRows + l.nCols) = l := by
  have hin : ∀ c ∈ l.order, c ∈ m.categories := fun c hc => hperm.mem_iff.mp hc
  have hkept : l.order.filter (· ∈ m.categories) = l.order := by
    rw [List.filter_eq_self]
    exact fun c hc => decide_eq_true (hin c hc)
  have hgained : m.categories.filter (· ∉ l.order) = [] := by
    rw [List.filter_eq_nil_iff]
    intro c hc hnot
    exact of_decide_eq_true hnot (hperm.mem_iff.mpr hc)
  have hall : ∀ cs ⊆ l.order, cs.countP (· ∈ l.order) = cs.length := by
    intro cs hcs
    rw [List.countP_eq_length]
    exact fun c hc => decide_eq_true (hcs hc)
  have horder : (restored m (l.toView id name).primary l.nRows (l.nRows + l.nCols)).order =
      l.order := by
    show l.order.filter (· ∈ m.categories) ++ m.categories.filter (· ∉ l.order) = l.order
    rw [hkept, hgained, List.append_nil]
  have hrows : (restored m (l.toView id name).primary l.nRows (l.nRows + l.nCols)).nRows =
      l.nRows := by
    show (l.order.take l.nRows).countP (· ∈ l.order.filter (· ∈ m.categories)) = l.nRows
    rw [hkept, hall _ (List.take_subset _ _)]
    exact Axes.length_rows h.within
  have hcols : (restored m (l.toView id name).primary l.nRows (l.nRows + l.nCols)).nCols =
      l.nCols := by
    show ((l.order.take (l.nRows + l.nCols)).drop l.nRows).countP
      (· ∈ l.order.filter (· ∈ m.categories)) = l.nCols
    rw [hkept, List.drop_take, Nat.add_sub_cancel_left]
    rw [hall _ (List.Subset.trans (List.take_subset _ _) (List.drop_subset _ _))]
    exact Axes.length_cols h.within
  have hpages : (restored m (l.toView id name).primary l.nRows (l.nRows + l.nCols)).pages =
      l.pages := by
    unfold Axes.pages
    rw [horder, hrows, hcols]
  have hsound : l.pages.Nodup := Axes.nodup_pages ⟨hnodup, h.within⟩
  have hpins : (restored m (l.toView id name).primary l.nRows (l.nRows + l.nCols)).pageItems =
      l.pageItems := by
    show (restored m (l.toView id name).primary l.nRows (l.nRows + l.nCols)).pages.map
      (fun c => (((l.pages.zip l.pageItems).find? fun q => q.1 = c).map (·.2)).getD ⟨0⟩) = _
    rw [hpages]
    refine map_eq_of_zip h.pinned.length_eq fun q hq => ?_
    have hfound := find?_zip hsound h.pinned.length_eq hq (fun _ => true) rfl
    simp only [Bool.and_true] at hfound
    rw [hfound]
    rfl
  exact Layout.ext horder hrows hcols rfl hpins

/-- A layout saved and read back is as it was. -/
theorem fromView_toView (h : Fits model l) (id : ViewId) (name : String) :
    fromView model (l.toView id name) = .ok (some l) := by
  have hsound := sound_of_fits hdistinct h
  have hwithin := h.within
  obtain ⟨m, hm, hperm⟩ := h.order
  have hm' : model.measures.get? (l.toView id name).primary.measure = some m := hm
  have horder : (l.toView id name).primary.axisOrder = l.order := rfl
  unfold fromView
  simp only [hm', horder]
  by_cases hempty : l.order = []
  · rw [hempty, List.length_nil] at hwithin
    rw [if_pos (by rw [hempty]; rfl), Except.ok.injEq]
    unfold natural
    rw [hm']
    have hnone : m.categories = [] := (hempty ▸ hperm).nil_eq.symm
    have hpages : l.pages = [] := by
      unfold Axes.pages
      rw [hempty, List.drop_nil]
    have hpins : l.pageItems = [] := by
      have hpinned := h.pinned
      rw [hpages] at hpinned
      exact List.forall₂_nil_left_iff.mp hpinned
    rw [Option.map_some, Option.some.injEq]
    refine Layout.ext ?_ ?_ ?_ rfl ?_
    · exact hnone.trans hempty.symm
    · show min m.categories.length 1 = l.nRows
      rw [hnone, List.length_nil]
      omega
    · show min (m.categories.length - 1) 1 = l.nCols
      rw [hnone, List.length_nil]
      omega
    · rw [hpins]
      show List.map _ (List.drop _ m.categories) = []
      rw [hnone, List.drop_nil, List.map_nil]
  · have hsmall : l.nRows + l.nCols < usize := by
      have hlen := hperm.length_eq
      have hcounted := hdistinct.counted hm
      omega
    have hrows : min (l.toView id name).primary.nRows l.order.length = l.nRows :=
      min_eq_left (by show l.nRows ≤ _; omega)
    have hcols : min (((l.toView id name).primary.nRows + (l.toView id name).primary.nCols) % usize)
        l.order.length = l.nRows + l.nCols := by
      show min ((l.nRows + l.nCols) % usize) l.order.length = l.nRows + l.nCols
      rw [Nat.mod_eq_of_lt hsmall, min_eq_left hwithin]
    rw [if_neg (by simpa using hempty), hrows, hcols, if_neg (by omega),
      restored_toView hsound.nodup h hperm, repin_eq_self (Axes.nodup_pages hsound) h.pinned]

end Layout

end Improv.GuiCosmic
