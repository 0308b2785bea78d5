import Improv.GuiWeb.Layout
/-!
# What the browser shows

The cells a sheet puts on screen, the sheets that stay when a structure is
adopted, and what the cache tells of a cell after any history of answers, single
cells and reloads.
-/

namespace Improv.GuiWeb

open Improv.Lib Improv.CoreModel

/-! ## The cache's history -/

variable {V : Type}

/-- What happens to a cache. -/
inductive CacheStep (V : Type)
  | fill (m : MeasureId) (w : Window) (cells : List (Coordinate × V))
  | set (k : Cell) (v : Option V)
  | clear

namespace CacheStep

def run (c : Cache V) : CacheStep V → Cache V
  | .fill m w cells => c.fill m w cells
  | .set k v => c.set k v
  | .clear => c.clear

/-- An answer's cells lie in the window asked for. -/
def Inside : CacheStep V → Prop
  | .fill _ w cells => ∀ p ∈ cells, covers w p.1 = true
  | _ => True

/-- What the last step that was about a cell left there; the newest step comes
first. -/
def left : List (CacheStep V) → Cell → Option V
  | [], _ => none
  | .fill m w cells :: past, k =>
    if k.measure = m ∧ covers w k.coord = true then
      (cells.reverse.find? fun p => p.1 = k.coord).map (·.2)
    else left past k
  | .set j v :: past, k => if k = j then v else left past k
  | .clear :: _, _ => none

/-- Whether a window read since the last reload covers a cell. -/
def read : List (CacheStep V) → Cell → Bool
  | [], _ => false
  | .fill m w _ :: past, k => (m = k.measure && covers w k.coord) || read past k
  | .set _ _ :: past, k => read past k
  | .clear :: _, _ => false

/-- What a history tells of a cell. -/
def told (past : List (CacheStep V)) (k : Cell) : Known V :=
  match left past k with
  | some v => .value v
  | none => if read past k then .blank else .notLoaded

theorem get?_answered (m : MeasureId) (cells : List (Coordinate × V)) (k : Cell) :
    (Cache.answered m cells).get? k =
      if k.measure = m then (cells.reverse.find? fun p => p.1 = k.coord).map (·.2) else none := by
  unfold Cache.answered
  induction cells using List.reverseRecOn with
  | nil => simp
  | append_singleton cells p ih =>
      rw [List.foldl_append, List.foldl_cons, List.foldl_nil, SortedMap.get?_insert, ih,
        List.reverse_append, List.reverse_singleton, List.singleton_append, List.find?_cons]
      obtain ⟨measure, coord⟩ := k
      by_cases hm : measure = m
      · by_cases hc : coord = p.1
        · simp [hm, hc]
        · simp [hm, hc, eq_comm]
      · simp [hm]

/-- One step changes what is told as the history says. -/
theorem get?_run {c : Cache V} {past : List (CacheStep V)}
    (hcells : ∀ k, c.cells.get? k = left past k) {step : CacheStep V} (hinside : step.Inside)
    (k : Cell) :
    (run c step).cells.get? k = left (step :: past) k := by
  cases step with
  | fill m w cells =>
      rw [run, Cache.get?_fill, get?_answered, left, ← hcells]
      by_cases hm : k.measure = m
      · rw [if_pos hm]
        by_cases hcover : covers w k.coord = true
        · rw [if_pos ⟨hm, hcover⟩, if_pos ⟨hm, hcover⟩, Option.or_none]
        · have hnone : (cells.reverse.find? fun p => p.1 = k.coord) = none := by
            rw [List.find?_eq_none]
            intro p hp heq
            have hcell := hinside p (List.mem_reverse.mp hp)
            rw [of_decide_eq_true heq] at hcell
            exact hcover hcell
          rw [hnone, if_neg fun h => hcover h.2, if_neg fun h => hcover h.2]
          rfl
      · rw [if_neg hm, if_neg fun h => hm h.1, if_neg fun h => hm h.1, Option.none_or]
  | set j v => rw [run, Cache.get?_set, left, hcells]
  | clear => rfl

theorem any_run {c : Cache V} {past : List (CacheStep V)}
    (hloaded : ∀ k, (c.loaded.any fun l => l.1 = k.measure && covers l.2 k.coord) = read past k)
    (step : CacheStep V) (k : Cell) :
    ((run c step).loaded.any fun l => l.1 = k.measure && covers l.2 k.coord) =
      read (step :: past) k := by
  cases step with
  | fill m w cells =>
      have hafter : (run c (.fill m w cells)).loaded =
          if (m, w) ∈ c.loaded then c.loaded else c.loaded ++ [(m, w)] := rfl
      rw [read, ← hloaded, hafter]
      by_cases hmem : (m, w) ∈ c.loaded
      · rw [if_pos hmem]
        rw [Bool.eq_iff_iff, Bool.or_eq_true]
        constructor
        · exact .inr
        · rintro (h | h)
          · exact List.any_eq_true.mpr ⟨(m, w), hmem, h⟩
          · exact h
      · rw [if_neg hmem, List.any_append, Bool.or_comm]
        simp
  | set j v => exact hloaded k
  | clear => rfl

/-- After any history whose answers lie in their windows, the cache tells of a
cell what the history does. -/
theorem get_foldl {steps : List (CacheStep V)} (hinside : ∀ step ∈ steps, step.Inside) (k : Cell) :
    (steps.foldl run .empty).get k = told steps.reverse k := by
  have hrun : (∀ k, (steps.foldl run .empty).cells.get? k = left steps.reverse k) ∧
      ∀ k, ((steps.foldl run .empty).loaded.any fun l =>
        l.1 = k.measure && covers l.2 k.coord) = read steps.reverse k := by
    induction steps using List.reverseRecOn with
    | nil => exact ⟨fun _ => rfl, fun _ => rfl⟩
    | append_singleton steps step ih =>
        rw [List.foldl_append, List.reverse_append]
        have ⟨hcells, hloaded⟩ := ih fun st hst => hinside st (List.mem_append_left _ hst)
        have hlast := hinside step (List.mem_append_right _ (List.mem_singleton_self step))
        exact ⟨get?_run hcells hlast, any_run hloaded step⟩
  unfold Cache.get told
  cases hleft : left steps.reverse k with
  | some v => simp only [(hrun.1 k).trans hleft]
  | none => simp only [(hrun.1 k).trans hleft, hrun.2 k]

end CacheStep

/-! ## Sheets on screen -/

/-- A sheet shows each cell of its measure on the picked page once, inside the
window it asks for, and is read back as it was saved. -/
structure ShownOnce (s : Structure) (sh : Sheet) : Prop where
  order : sh.order.Perm (s.categoriesOf sh.measure)
  within : sh.nRows + sh.nCols ≤ sh.order.length
  once : (sh.shown s).Nodup
  every : ∀ coord, coord ∈ sh.shown s ↔
    Tuples.OnPage s.itemsOf (s.categoriesOf sh.measure) (sh.picked s) coord
  window : ∀ coord ∈ sh.shown s, ∃ k : Coordinate, k.entries = coord ∧ covers (sh.window s) k
  saved : Sheet.fromPlacement s sh.toPlacement =
    { sh with page := sh.page.filter fun c _ => c ∈ sh.pages }

theorem shownOnce {s : Structure} {sh : Sheet} (h : Reached s sh)
    (hpages : ∀ c ∈ sh.pages, s.itemsOf c ≠ []) : ShownOnce s sh := by
  have hfits := Sheet.fits_of_reached h
  constructor
  · exact hfits.order
  · exact hfits.within
  · exact Sheet.nodup_shown hfits hpages
  · exact Sheet.mem_shown_iff hfits hpages
  · intro coord hcoord
    exact Sheet.covers_shown hfits hpages hcoord
  · exact Sheet.fromPlacement_toPlacement hfits

/-- The new structure still has the categories of each sheet's measure. -/
def SameCategories (s s' : Structure) (wins : List Sheet) : Prop :=
  ∀ sh ∈ wins, ∃ m, s'.measure sh.measure = some m ∧
    m.categories.Perm (s.categoriesOf sh.measure)

theorem adopt_eq_self_iff {s s' : Structure} {wins : List Sheet}
    (hreached : ∀ sh ∈ wins, Reached s sh) (hsame : SameCategories s s' wins) :
    adopt s' wins = wins ↔ ∀ sh ∈ wins, ∀ a, (sh.cats a).length ≤ 1 := by
  have hstay : wins.filter (fun w => (s'.measure w.measure).isSome) = wins := by
    rw [List.filter_eq_self]
    intro sh hsh
    obtain ⟨m, hm, _⟩ := hsame sh hsh
    rw [hm]
    rfl
  unfold adopt
  rw [hstay]
  calc
    wins.map (Sheet.readopt s') = wins ↔ wins.map (Sheet.readopt s') = wins.map id := by
      rw [List.map_id]
    _ ↔ ∀ sh ∈ wins, Sheet.readopt s' sh = id sh := List.map_inj_left
    _ ↔ ∀ sh ∈ wins, ∀ a, (sh.cats a).length ≤ 1 := by
      refine forall₂_congr fun sh hsh => Sheet.readopt_eq_self_iff
        (Sheet.fits_of_reached (hreached sh hsh)) ?_
      obtain ⟨m, hm, hperm⟩ := hsame sh hsh
      unfold Structure.categoriesOf at hperm ⊢
      rw [hm]
      exact hperm

/-- A measure of two categories. -/
def sales : Structure where
  categories := [⟨⟨1⟩, [⟨10⟩, ⟨11⟩], by decide⟩, ⟨⟨2⟩, [⟨20⟩], by decide⟩]
  measures := [⟨⟨7⟩, [⟨1⟩, ⟨2⟩], by decide⟩]

/-- Its natural sheet. -/
def salesSheet : Sheet := .new sales ⟨7⟩

theorem cats_salesSheet {sh : Sheet} (h : sh ∈ [salesSheet]) (a : Axis) :
    (sh.cats a).length ≤ 1 := by
  rw [List.mem_singleton.mp h]
  cases a <;> decide

theorem sameCategories_sales (sh : Sheet) (h : sh.measure = ⟨7⟩) :
    SameCategories sales sales [sh] := by
  intro w hw
  rw [List.mem_singleton.mp hw, h]
  exact ⟨⟨⟨7⟩, [⟨1⟩, ⟨2⟩], by decide⟩, rfl, .refl _⟩

end Improv.GuiWeb
