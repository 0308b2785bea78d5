import Improv.Policy.RowChecks
/-!
# Row checks are right

What a row check is built from, and what its answers say: that no row can be
shown, that rows are shown exactly when they name no hidden item, and one
decision for each combination of classes.
-/

namespace Improv.Policy.Restricted

open Improv.Lib Improv.CoreModel Improv.Service
open Improv.Lib.Cached (Yields)

variable {r : Restricted} {m : MeasureId} {rows : Rows}
  {K : SortedMap MeasureId Rows → SortedMap MeasureId (Option HideLists) → Prop}

/-! ## A new row check -/

/-- The row check of a measure before any row. -/
def freshRows (r : Restricted) (m : MeasureId) : Option Rows :=
  (r.model.measures.get? m).map fun measure =>
    let radices := measure.categories.map fun c => (r.namedOf c).length + 1
    { measure := m
      cats := measure.categories
      dims := measure.categories.map fun c => SortedMap.ofList (r.classed c)
      strides := Odometer.strides u64Max 1 radices
      decided := List.replicate
        (min (radices.foldl (fun total n => min (total * n) u64Max) 1) dense) none
      noRow := measure.categories.any fun c =>
        !(r.classed c).any fun p => r.session.itemVisible p.2.2 }

theorem Built.itemVisible_yields (h : r.Built) (i : ItemId) :
    Yields (r.Inv K) (r.itemVisible i) (.ok (r.session.itemVisible i)) :=
  h.allowed_yields .readItem fun _ _ heq => by cases heq

theorem Built.newRows_yields (h : r.Built) (m : MeasureId) :
    Yields (r.Inv K) (r.newRows m) (.ok (r.freshRows m)) := by
  unfold newRows freshRows
  cases r.model.measures.get? m with
  | none => exact Yields.pure none
  | some measure =>
      refine Yields.bind (Yields.anyM fun c _ => ?_) (Yields.pure _)
      exact Yields.bind (Yields.anyM fun p _ => h.itemVisible_yields p.2.2) (Yields.pure _)

/-- The row check's classes and items of a row. -/
def Found (r : Restricted) (cats : List CategoryId) (found : List (Nat × ItemId)) : Prop :=
  List.Forall₂ (fun p c => ∃ x, r.InNumber c p.1 x ∧ x.id = p.2) found cats

theorem Built.ofCategories_of_found (h : r.Built) {cats : List CategoryId}
    {found : List (Nat × ItemId)} (hfound : r.Found cats found) :
    r.OfCategories cats (found.map (·.2)) := by
  unfold OfCategories
  rw [List.forall₂_map_left_iff]
  refine hfound.imp fun p c hp => ?_
  obtain ⟨x, hx, hid⟩ := hp
  have ⟨hget, hc⟩ := h.mem_itemsOf.mp hx.1
  rw [h.shape_items, ← hid, hget, ← hc]
  rfl

/-- Rows of one combination of classes name twins. -/
theorem Found.twins {cats : List CategoryId} {found found' : List (Nat × ItemId)}
    (hf : r.Found cats found) (hf' : r.Found cats found')
    (hclass : found.map (·.1) = found'.map (·.1)) :
    r.Twins (found.map (·.2)) (found'.map (·.2)) := by
  induction hf generalizing found' with
  | nil =>
      cases hf'
      exact .nil
  | @cons p c found cats hp _ ih =>
      cases hf' with
      | @cons p' _ found' _ hp' hf' =>
          have ⟨hpk, hrest⟩ := List.cons.inj hclass
          obtain ⟨x, hx, hxi⟩ := hp
          obtain ⟨y, hy, hyi⟩ := hp'
          refine .cons ?_ (ih hf' hrest)
          show p.2 = p'.2 ∨ (p.2 ∉ r.named ∧ p'.2 ∉ r.named)
          rw [show p.1 = p'.1 from hpk] at hx
          rw [← hxi, ← hyi]
          exact hx.twins hy

theorem Found.inRange {cats : List CategoryId} {found : List (Nat × ItemId)}
    (hf : r.Found cats found) :
    Odometer.InRange (cats.map fun c => (r.namedOf c).length + 1) (found.map (·.1)) := by
  unfold Odometer.InRange
  rw [List.forall₂_map_left_iff, List.forall₂_map_right_iff]
  exact hf.imp fun p c ⟨x, hx, _⟩ => hx.lt

/-! ## Representatives -/

theorem get?_byClass_foldl (found : List (Nat × ItemId)) (k : Nat) (i : ItemId) :
    ∀ kept : SortedMap Nat ItemId,
      ((found.foldl (fun by_ p => by_.insert p.1 ((by_.get? p.1).elim p.2 (min · p.2))) kept).get? k
          = some i → (k, i) ∈ found ∨ kept.get? k = some i) ∧
        ((k, i) ∈ found ∨ (kept.get? k).isSome → ((found.foldl (fun by_ p =>
          by_.insert p.1 ((by_.get? p.1).elim p.2 (min · p.2))) kept).get? k).isSome) := by
  induction found with
  | nil =>
      intro kept
      exact ⟨.inr, fun h => h.elim (fun hmem => absurd hmem List.not_mem_nil) id⟩
  | cons p found ih =>
      intro kept
      have ⟨hfrom, hsome⟩ := ih (kept.insert p.1 ((kept.get? p.1).elim p.2 (min · p.2)))
      rw [List.foldl_cons]
      constructor
      · intro hget
        rcases hfrom hget with hmem | hkept
        · exact .inl (List.mem_cons_of_mem p hmem)
        · rw [SortedMap.get?_insert] at hkept
          split at hkept
          · rename_i hk
            subst hk
            cases hp : kept.get? p.1 with
            | none =>
                rw [hp] at hkept
                rw [← Option.some.inj hkept]
                exact .inl List.mem_cons_self
            | some j =>
                rw [hp] at hkept
                have hmin : min j p.2 = i := Option.some.inj hkept
                rcases min_choice j p.2 with hj | hj
                · exact .inr (by rw [← hmin, hj])
                · rw [← hmin, hj]
                  exact .inl List.mem_cons_self
          · exact .inr hkept
      · intro hany
        refine hsome ?_
        rw [SortedMap.get?_insert]
        by_cases hk : k = p.1
        · exact .inr (by simp [hk])
        · rw [if_neg hk]
          rcases hany with hmem | hkept
          · rcases List.mem_cons.mp hmem with heq | hmem
            · exact absurd (congrArg Prod.fst heq) hk
            · exact .inl hmem
          · exact .inr hkept

theorem mem_of_get?_byClass {found : List (Nat × ItemId)} {k : Nat} {i : ItemId}
    (h : (byClass found).get? k = some i) : (k, i) ∈ found := by
  rcases (get?_byClass_foldl found k i .empty).1 h with hmem | hempty
  · exact hmem
  · cases hempty

theorem exists_get?_byClass {found : List (Nat × ItemId)} {k : Nat} {i : ItemId}
    (h : (k, i) ∈ found) : ∃ j, (byClass found).get? k = some j :=
  Option.isSome_iff_exists.mp ((get?_byClass_foldl found k i .empty).2 (.inl h))

/-- A dimension's representatives, one item of each class. -/
def repsOf (r : Restricted) (c : CategoryId) : List ItemId :=
  (byClass (SortedMap.ofList (r.classed c)).values).values

theorem Built.mem_names_values (h : r.Built) {c : CategoryId} {p : Nat × ItemId} :
    p ∈ (SortedMap.ofList (r.classed c)).values ↔ ∃ x, r.InNumber c p.1 x ∧ x.id = p.2 := by
  rw [SortedMap.mem_values_iff]
  constructor
  · intro ⟨n, hn⟩
    obtain ⟨x, hx, _, hid⟩ := mem_classed.mp (h.get?_names.mp hn)
    exact ⟨x, hx, hid⟩
  · intro ⟨x, hx, hid⟩
    exact ⟨x.name, h.get?_names.mpr (mem_classed.mpr ⟨x, hx, rfl, hid⟩)⟩

theorem Built.of_mem_repsOf (h : r.Built) {c : CategoryId} {i : ItemId} (hi : i ∈ r.repsOf c) :
    ∃ k x, r.InNumber c k x ∧ x.id = i := by
  obtain ⟨k, hk⟩ := SortedMap.mem_values_iff.mp hi
  obtain ⟨x, hx, hid⟩ := h.mem_names_values.mp (mem_of_get?_byClass hk)
  exact ⟨k, x, hx, hid⟩

/-- Each class of a category has a representative. -/
theorem Built.exists_rep (h : r.Built) {c : CategoryId} {k : Nat} {x : Item}
    (hx : r.InNumber c k x) : ∃ y, r.InNumber c k y ∧ y.id ∈ r.repsOf c := by
  obtain ⟨j, hj⟩ := exists_get?_byClass (h.mem_names_values.mpr ⟨x, hx, rfl⟩)
  obtain ⟨y, hy, hid⟩ := h.mem_names_values.mp (mem_of_get?_byClass hj)
  exact ⟨y, hy, SortedMap.mem_values_iff.mpr ⟨k, hid ▸ hj⟩⟩

theorem Built.repsOf_eq_nil_iff (h : r.Built) {c : CategoryId} :
    r.repsOf c = [] ↔ r.itemsOf c = [] := by
  constructor
  · intro hnil
    rw [List.eq_nil_iff_forall_not_mem]
    intro x hx
    obtain ⟨k, hk⟩ := exists_number hx
    obtain ⟨y, _, hmem⟩ := h.exists_rep hk
    rw [hnil] at hmem
    cases hmem
  · intro hnil
    rw [List.eq_nil_iff_forall_not_mem]
    intro i hi
    obtain ⟨k, x, hx, _⟩ := h.of_mem_repsOf hi
    have hmem := hx.1
    rw [hnil] at hmem
    cases hmem

/-- A row's items have twins among the representatives. -/
theorem Built.exists_reps (h : r.Built) {cats : List CategoryId} {found : List (Nat × ItemId)}
    (hfound : r.Found cats found) : ∃ is, List.Forall₂ (fun i reps => i ∈ reps) is
      (cats.map r.repsOf) ∧ r.OfCategories cats is ∧ r.Twins (found.map (·.2)) is := by
  induction hfound with
  | nil => exact ⟨[], .nil, .nil, .nil⟩
  | @cons p c found cats hp _ ih =>
      obtain ⟨is, hmem, hcats, htwins⟩ := ih
      obtain ⟨x, hx, hid⟩ := hp
      obtain ⟨y, hy, hrep⟩ := h.exists_rep hx
      have ⟨hget, hc⟩ := h.mem_itemsOf.mp hy.1
      refine ⟨y.id :: is, .cons hrep hmem, .cons ?_ hcats, .cons ?_ htwins⟩
      · rw [h.shape_items, hget, ← hc]
        rfl
      · show p.2 = y.id ∨ (p.2 ∉ r.named ∧ y.id ∉ r.named)
        rw [← hid]
        exact hx.twins hy

/-! ## Combinations -/

/-- The items at a position within range. -/
def itemsAt (reps : List (List ItemId)) (pos : List Nat) : List ItemId :=
  (reps.zip pos).map fun p => (p.1[p.2]?).getD ⟨0⟩

theorem pick_yields {Right : Caches → Prop} {reps : List (List ItemId)} {pos : List Nat}
    (hpos : Odometer.InRange (reps.map List.length) pos) :
    Yields Right (pick reps pos) (.ok (itemsAt reps pos)) := by
  refine Yields.mapM fun p hp => ?_
  have hlt : p.2 < p.1.length := by
    unfold Odometer.InRange at hpos
    rw [List.forall₂_map_right_iff] at hpos
    exact (List.forall₂_iff_zip.mp hpos.flip).2 hp
  rw [List.getElem?_eq_getElem hlt]
  exact Yields.pure _

theorem exists_itemsAt {reps : List (List ItemId)} {is : List ItemId} :
    List.Forall₂ (fun i reps => i ∈ reps) is reps ↔
      ∃ pos, Odometer.InRange (reps.map List.length) pos ∧ itemsAt reps pos = is := by
  constructor
  · intro h
    induction h with
    | nil => exact ⟨[], .nil, rfl⟩
    | @cons i members is reps hi _ ih =>
        obtain ⟨pos, hpos, hitems⟩ := ih
        obtain ⟨n, hn, hget⟩ := List.mem_iff_getElem.mp hi
        refine ⟨n :: pos, .cons hn hpos, ?_⟩
        show (members[n]?).getD ⟨0⟩ :: itemsAt reps pos = _
        rw [List.getElem?_eq_getElem hn, hget, hitems]
        rfl
  · rintro ⟨pos, hpos, rfl⟩
    induction reps generalizing pos with
    | nil =>
        cases hpos
        exact .nil
    | cons members reps ih =>
        cases hpos with
        | @cons n _ pos _ hn hpos =>
            refine .cons ?_ (ih pos hpos)
            show (members[n]?).getD ⟨0⟩ ∈ members
            rw [List.getElem?_eq_getElem hn]
            exact List.getElem_mem hn

/-- Where every dimension has a representative, the answer for all
combinations. -/
theorem everyCombination_yields {Right : Caches → Prop} {reps : List (List ItemId)}
    (hreps : ∀ is ∈ reps, is ≠ []) {test : List ItemId → Ask Bool} {Passes : List ItemId → Bool}
    (htest : ∀ is, List.Forall₂ (fun i reps => i ∈ reps) is reps →
      Yields Right (test is) (.ok (Passes is))) {b : Bool}
    (hb : b = true ↔ ∀ is, List.Forall₂ (fun i reps => i ∈ reps) is reps → Passes is = true) :
    Yields Right (everyCombination reps test) (.ok b) := by
  have hall : b = true ↔ ∀ pos, Odometer.InRange (reps.map List.length) pos →
      Passes (itemsAt reps pos) = true := by
    rw [hb]
    constructor
    · intro h pos hpos
      exact h _ (exists_itemsAt.mpr ⟨pos, hpos, rfl⟩)
    · intro h is his
      obtain ⟨pos, hpos, rfl⟩ := exists_itemsAt.mp his
      exact h pos hpos
  refine Odometer.sweep_zeros_yields ?_ (fun pos hpos => ?_) hall (by omega)
  · intro n hn
    obtain ⟨is, his, rfl⟩ := List.mem_map.mp hn
    exact List.length_pos_iff.mpr (hreps is his)
  · exact (pick_yields hpos).bind (htest _ (exists_itemsAt.mpr ⟨pos, hpos, rfl⟩))

theorem pick_panics {Right : Caches → Prop} {reps : List (List ItemId)} (hreps : [] ∈ reps) :
    Yields Right (pick reps ((reps.map List.length).map fun _ => 0)) (.error .indexOutOfRange) := by
  induction reps with
  | nil => cases hreps
  | cons members reps ih =>
      unfold pick
      rw [List.map_cons, List.map_cons, List.zip_cons_cons, List.mapM_cons]
      cases members with
      | nil => exact Yields.bind_error (Yields.throw _)
      | cons i members =>
          have hrest : [] ∈ reps := (List.mem_cons.mp hreps).resolve_left fun heq => by cases heq
          exact Yields.bind (Yields.pure i) (Yields.bind_error (ih hrest))

/-- A dimension without representatives is out of range at once. -/
theorem everyCombination_panics {Right : Caches → Prop} {reps : List (List ItemId)}
    (hreps : [] ∈ reps) (test : List ItemId → Ask Bool) :
    Yields Right (everyCombination reps test) (.error .indexOutOfRange) := by
  have hprod : (reps.map List.length).prod = 0 :=
    Odometer.prod_eq_zero (List.mem_map.mpr ⟨[], hreps, rfl⟩)
  unfold everyCombination
  simp only [hprod]
  exact Yields.bind_error (Yields.bind_error (pick_panics hreps))

/-! ## Whether no row is shown -/

/-- The role may open the model and read the measure. -/
def Viewable (r : Restricted) (m : MeasureId) : Prop :=
  r.session.allowed .viewModel .model = true ∧ r.session.measureVisible m = true

theorem Built.viewable_of_cellVisible (h : r.Built) {x : MeasureShape}
    (hx : r.session.shape.measures.get? m = some x) {is : List ItemId}
    (his : r.OfCategories x.categories is)
    (hshown : r.session.cellVisible m (Coordinate.fromPairs (x.categories.zip is)) = true) :
    r.Viewable m := by
  have ⟨hmodel, hmeasure, _⟩ := h.readable_of_cellVisible hx rfl his hshown
  obtain ⟨ask, hans, _⟩ := h.alike
  unfold Viewable Session.measureVisible Session.allowed
  rw [hans]
  simp [Session.steps, Session.needs, bind, Except.bind, pure, Except.pure, hmodel, hmeasure]

theorem of_freshRows (hrows : r.freshRows m = some rows) : ∃ measure,
    r.model.measures.get? m = some measure ∧ rows.measure = m ∧ rows.cats = measure.categories ∧
      rows.dims = rows.cats.map (fun c => SortedMap.ofList (r.classed c)) ∧
      rows.noRow = rows.cats.any fun c =>
        !(r.classed c).any fun p => r.session.itemVisible p.2.2 := by
  obtain ⟨measure, hm, rfl⟩ := Option.map_eq_some_iff.mp hrows
  exact ⟨measure, hm, rfl, rfl, rfl, rfl⟩

theorem representatives_eq (hrows : r.freshRows m = some rows) :
    rows.representatives = none ∨ rows.representatives = some (rows.cats.map r.repsOf) := by
  obtain ⟨_, _, _, _, hdims, _⟩ := of_freshRows hrows
  unfold Rows.representatives
  have hreps : rows.dims.map (fun names => (byClass names.values).values) =
      rows.cats.map r.repsOf := by
    rw [hdims, List.map_map]
    rfl
  simp only [hreps]
  split
  · exact .inr rfl
  · exact .inl rfl

theorem Built.cell_yields (h : r.Built) (hrows : r.freshRows m = some rows) {is : List ItemId}
    (hlen : is.length = rows.cats.length) :
    Yields (r.Inv K) (r.cellVisible rows.measure (rows.coord is))
      (.ok (r.session.cellVisible rows.measure (rows.coord is))) := by
  obtain ⟨measure, hm, hrm, hcats, _⟩ := of_freshRows hrows
  refine h.cellVisible_yields fun x hx c hc => ?_
  rw [h.shape_measures, hrm, hm] at hx
  rw [← Option.some.inj hx]
  show c ∈ measure.categories
  rw [← hcats]
  exact (keys_fromPairs hlen c).mp hc

/-- A row's cell is decided as one at representatives. -/
theorem Built.exists_reps_visible (h : r.Built) (hrows : r.freshRows m = some rows)
    {found : List (Nat × ItemId)} (hfound : r.Found rows.cats found) :
    ∃ is, List.Forall₂ (fun i reps => i ∈ reps) is (rows.cats.map r.repsOf) ∧
      (found.map (·.2)).map r.session.itemVisible = is.map r.session.itemVisible ∧
        r.session.cellVisible m (rows.coord (found.map (·.2))) =
          r.session.cellVisible m (rows.coord is) := by
  obtain ⟨measure, hm, _, hcats, _⟩ := of_freshRows hrows
  obtain ⟨is, his, hof, htwins⟩ := h.exists_reps hfound
  have hfoundOf := h.ofCategories_of_found hfound
  refine ⟨is, his, htwins.map_eq (fun i j c hi hj hij => h.itemVisible_twin hi hj hij) hfoundOf hof,
    ?_⟩
  refine h.cellVisible_twins (x := shapeOf measure) ?_ hcats.symm hfoundOf hof htwins
  rw [h.shape_measures, hm]
  rfl

/-- A shown row's measure is viewable and its items readable. -/
theorem Built.of_row_visible (h : r.Built) (hrows : r.freshRows m = some rows)
    {found : List (Nat × ItemId)} (hfound : r.Found rows.cats found)
    (hshown : r.session.cellVisible m (rows.coord (found.map (·.2))) = true) :
    r.Viewable m ∧ ∀ p ∈ found, r.session.itemVisible p.2 = true := by
  obtain ⟨measure, hm, _, hcats, _⟩ := of_freshRows hrows
  have hx : r.session.shape.measures.get? m = some (shapeOf measure) := by
    rw [h.shape_measures, hm]
    rfl
  have hof := h.ofCategories_of_found hfound
  unfold Rows.coord at hshown
  rw [hcats] at hof hshown
  refine ⟨h.viewable_of_cellVisible hx hof hshown, fun p hp => ?_⟩
  exact (h.readable_of_cellVisible hx rfl hof hshown).2.2 p.2 (List.mem_map.mpr ⟨p, hp, rfl⟩)

theorem itemsOf_ne_nil_of_noRow (hrows : r.freshRows m = some rows) (hno : rows.noRow = false)
    {c : CategoryId} (hc : c ∈ rows.cats) : r.itemsOf c ≠ [] := by
  obtain ⟨_, _, _, _, _, hnoRow⟩ := of_freshRows hrows
  rw [hnoRow, List.any_eq_false] at hno
  have hany := hno c hc
  intro hnil
  simp [classed, namedOf, hnil] at hany

/-- A category without an item the role may read has no row it may read. -/
theorem hidden_of_noRow (hrows : r.freshRows m = some rows)
    (hno : rows.noRow = true) {found : List (Nat × ItemId)} (hfound : r.Found rows.cats found) :
    ∃ p ∈ found, r.session.itemVisible p.2 = false := by
  obtain ⟨_, _, _, _, _, hnoRow⟩ := of_freshRows hrows
  rw [hnoRow, List.any_eq_true] at hno
  obtain ⟨c, hc, hany⟩ := hno
  rw [Bool.not_eq_true', List.any_eq_false] at hany
  have hsnd : (found.zip rows.cats).map (·.2) = rows.cats :=
    List.map_snd_zip (by rw [hfound.length_eq])
  rw [← hsnd] at hc
  obtain ⟨⟨p, c⟩, hmem, rfl⟩ := List.mem_map.mp hc
  obtain ⟨x, hx, hid⟩ := (List.forall₂_iff_zip.mp hfound).2 hmem
  have hhidden := hany (x.name, (p.1, x.id)) (mem_classed.mpr ⟨x, hx, rfl, rfl⟩)
  refine ⟨p, (List.of_mem_zip hmem).1, ?_⟩
  rw [← hid]
  simpa using hhidden

theorem exists_bool (p : Prop) : ∃ b : Bool, b = true ↔ p := by
  by_cases hp : p
  · exact ⟨true, iff_of_true rfl hp⟩
  · exact ⟨false, iff_of_false Bool.false_ne_true hp⟩

/-- A measure none of whose rows can be shown, as far as the check tells. -/
theorem Built.noneShown_yields (h : r.Built) (hrows : r.freshRows m = some rows) :
    ∃ b, (∀ K, Yields (r.Inv K) (r.noneShown rows) (.ok b)) ∧
      (b = true → ∀ found, r.Found rows.cats found →
        r.session.cellVisible m (rows.coord (found.map (·.2))) = false) ∧
      (b = false → ∀ c ∈ rows.cats, r.itemsOf c ≠ []) := by
  obtain ⟨measure, hm, hrm, hcats, hdims, hnoRow⟩ := of_freshRows hrows
  have hmodel : ∀ K, Yields (r.Inv K) (r.allowed .viewModel .model)
      (.ok (r.session.allowed .viewModel .model)) :=
    fun K => h.allowed_yields .viewModel fun _ _ heq => by cases heq
  have hmeasure : ∀ K, Yields (r.Inv K) (r.measureVisible rows.measure)
      (.ok (r.session.measureVisible m)) := by
    intro K
    rw [hrm]
    exact h.allowed_yields .readMeasure fun _ _ heq => by cases heq
  have hhidden : ¬(rows.noRow = false ∧ r.Viewable m) → ∀ found, r.Found rows.cats found →
      r.session.cellVisible m (rows.coord (found.map (·.2))) = false := by
    intro hnot found hfound
    by_contra hshown
    have ⟨hview, hitems⟩ := h.of_row_visible hrows hfound (by simpa using hshown)
    refine hnot ⟨?_, hview⟩
    by_contra hno
    obtain ⟨p, hp, hfalse⟩ := hidden_of_noRow hrows (by simpa using hno) hfound
    rw [hitems p hp] at hfalse
    cases hfalse
  unfold noneShown
  by_cases hno : rows.noRow = true
  · refine ⟨true, fun K => ?_, fun _ => hhidden fun hv => ?_, fun hb => nomatch hb⟩
    · rw [if_pos hno]
      exact Yields.pure true
    · rw [hno] at hv
      cases hv.1
  · simp only [hno, Bool.false_eq_true, if_false]
    have hitems : ∀ c ∈ rows.cats, r.itemsOf c ≠ [] :=
      fun c hc => itemsOf_ne_nil_of_noRow hrows (by simpa using hno) hc
    cases hv : r.session.allowed .viewModel .model with
    | false =>
        refine ⟨true, fun K => (hmodel K).bind ?_, fun _ => hhidden fun hview => ?_,
          fun _ => hitems⟩
        · rw [hv]
          exact Yields.pure true
        · rw [hview.2.1] at hv
          cases hv
    | true =>
        cases hr : r.session.measureVisible m with
        | false =>
            refine ⟨true, fun K => (hmodel K).bind ?_, fun _ => hhidden fun hview => ?_,
              fun _ => hitems⟩
            · rw [hv]
              exact (hmeasure K).bind (by rw [hr]; exact Yields.pure true)
            · rw [hview.2.2] at hr
              cases hr
        | true =>
            rcases representatives_eq hrows with hreps | hreps
            · refine ⟨false, fun K => (hmodel K).bind ?_, (fun hb => nomatch hb), fun _ => hitems⟩
              rw [hv]
              refine (hmeasure K).bind ?_
              rw [hr, hreps]
              exact Yields.pure false
            · have hne : ∀ is ∈ rows.cats.map r.repsOf, is ≠ [] := by
                intro is his
                obtain ⟨c, hc, rfl⟩ := List.mem_map.mp his
                rw [Ne, h.repsOf_eq_nil_iff]
                exact hitems c hc
              obtain ⟨b, hb⟩ := exists_bool (∀ is, List.Forall₂ (fun i reps => i ∈ reps) is
                (rows.cats.map r.repsOf) →
                  (!r.session.cellVisible rows.measure (rows.coord is)) = true)
              refine ⟨b, fun K => (hmodel K).bind ?_, fun htrue found hfound => ?_, fun _ => hitems⟩
              · rw [hv]
                refine (hmeasure K).bind ?_
                rw [hr, hreps]
                refine everyCombination_yields hne (fun is his => ?_) hb
                have hlen := his.length_eq
                rw [List.length_map] at hlen
                exact (h.cell_yields hrows hlen).bind (Yields.pure _)
              · obtain ⟨is, his, _, heq⟩ := h.exists_reps_visible hrows hfound
                have hcell := hb.mp htrue is his
                rw [hrm] at hcell
                rw [heq]
                simpa using hcell

/-! ## Hidden names -/

/-- The names a category's items are hidden by. -/
def HidesIn (r : Restricted) (c : CategoryId) (names : List String) : Prop :=
  names.length ≤ slots ∧ ∀ x ∈ r.itemsOf c, x.name ∈ names ↔ r.session.itemVisible x.id = false

/-- The names of the first hidden ones of some items. -/
def firstHidden (r : Restricted) (n : Nat) (items : List Item) : List String :=
  ((items.filter fun i => !r.session.itemVisible i.id).map Item.name).take n

theorem Built.hiddenNames_yields (h : r.Built) (items : List Item) :
    ∀ n, Yields (r.Inv K) (r.hiddenNames n items)
      (.ok (r.firstHidden n items)) := by
  unfold firstHidden
  induction items with
  | nil =>
      intro n
      rw [List.filter_nil, List.map_nil, List.take_nil]
      cases n <;> exact Yields.pure []
  | cons i items ih =>
      intro n
      cases n with
      | zero => exact Yields.pure []
      | succ n =>
          refine (h.itemVisible_yields i.id).bind ?_
          cases hi : r.session.itemVisible i.id with
          | true =>
              rw [List.filter_cons_of_neg (by simp [hi])]
              exact ih (n + 1)
          | false =>
              rw [List.filter_cons_of_pos (by simp [hi])]
              exact (ih n).bind (Yields.pure _)

theorem Built.contains_names (h : r.Built) {c : CategoryId} {x : Item} (hx : x ∈ r.itemsOf c) :
    (SortedMap.ofList (r.classed c)).contains x.name = true := by
  obtain ⟨k, hk⟩ := exists_number hx
  exact SortedMap.contains_of_get? (h.get?_names.mpr (mem_classed.mpr ⟨x, hk, rfl, rfl⟩))

/-- The first hidden names of a category, one more than the slots hold, are all
of them where the slots hold them. -/
theorem Built.hidesIn_of_length (h : r.Built) {c : CategoryId}
    (hlen : (r.firstHidden (slots + 1) (r.itemsOf c)).length ≤ slots) :
    r.HidesIn c (r.firstHidden (slots + 1) (r.itemsOf c)).mergeSort := by
  refine ⟨by rw [List.length_mergeSort]; exact hlen, fun x hx => ?_⟩
  unfold firstHidden at hlen ⊢
  rw [List.length_take] at hlen
  rw [List.mem_mergeSort, List.take_of_length_le (by omega), List.mem_map]
  constructor
  · intro ⟨y, hy, hname⟩
    have ⟨hyc, hhidden⟩ := List.mem_filter.mp hy
    have ⟨hxi, hxc⟩ := h.mem_itemsOf.mp hx
    have ⟨hyi, hyc'⟩ := h.mem_itemsOf.mp hyc
    rw [← h.unique y.id x.id y x hyi hxi (hyc'.trans hxc.symm) hname]
    simpa using hhidden
  · intro hhidden
    exact ⟨x, List.mem_filter.mpr ⟨hx, by simp [hhidden]⟩, rfl⟩

theorem Built.listsOf_yields (h : r.Built) (cats : List CategoryId) :
    ∃ F, (∀ K, Yields (r.Inv K)
        (r.listsOf (cats.zip (cats.map fun c => SortedMap.ofList (r.classed c)))) (.ok F)) ∧
      ∀ lists, F = some lists → List.Forall₂ r.HidesIn cats lists := by
  induction cats with
  | nil => exact ⟨some [], fun K => Yields.pure _, fun lists heq => by cases heq; exact .nil⟩
  | cons c cats ih =>
      obtain ⟨F, hF, hlists⟩ := ih
      have hfilter : (r.itemsOf c).filter
          (fun i => (SortedMap.ofList (r.classed c)).contains i.name) = r.itemsOf c :=
        List.filter_eq_self.mpr fun x hx => h.contains_names hx
      rw [List.map_cons, List.zip_cons_cons]
      unfold listsOf
      rw [hfilter]
      by_cases hlen : (r.firstHidden (slots + 1) (r.itemsOf c)).length ≤ slots
      · cases F with
        | none =>
            refine ⟨none, fun K => (h.hiddenNames_yields _ _).bind ?_, fun _ heq => by cases heq⟩
            rw [if_neg (by omega)]
            exact (hF K).bind (Yields.pure none)
        | some lists =>
            refine ⟨some ((r.firstHidden (slots + 1) (r.itemsOf c)).mergeSort :: lists),
              fun K => (h.hiddenNames_yields _ _).bind ?_, fun lists' heq => ?_⟩
            · rw [if_neg (by omega)]
              exact (hF K).bind (Yields.pure _)
            · cases heq
              exact .cons (h.hidesIn_of_length hlen) (hlists lists rfl)
      · refine ⟨none, fun K => (h.hiddenNames_yields _ _).bind ?_, fun lists heq => by cases heq⟩
        rw [if_pos (by omega)]
        exact Yields.pure none

/-! ## Hide lists -/

theorem representatives_of_nil (hrows : r.freshRows m = some rows)
    (hnil : [] ∈ rows.cats.map r.repsOf) :
    rows.representatives = some (rows.cats.map r.repsOf) := by
  obtain ⟨_, _, _, _, hdims, _⟩ := of_freshRows hrows
  have hreps : rows.dims.map (fun names => (byClass names.values).values) =
      rows.cats.map r.repsOf := by
    rw [hdims, List.map_map]
    rfl
  have hzero : ∀ (reps : List (List ItemId)) total, total = 0 ∨ [] ∈ reps →
      reps.foldl (fun total is => min (total * is.length) u64Max) total = 0 := by
    intro reps
    induction reps with
    | nil =>
        intro total htotal
        exact htotal.resolve_right List.not_mem_nil
    | cons is reps ih =>
        intro total htotal
        refine ih _ ?_
        rcases htotal with rfl | hmem
        · exact .inl (by simp)
        · rcases List.mem_cons.mp hmem with rfl | hmem
          · exact .inl (by simp)
          · exact .inr hmem
  unfold Rows.representatives
  simp only [hreps]
  rw [hzero _ 1 (.inr hnil), if_pos (Nat.zero_le _)]

theorem Built.opened_yields (h : r.Built) :
    Yields (r.Inv K) (r.allowed .viewModel .model) (.ok (r.session.allowed .viewModel .model)) :=
  h.allowed_yields .viewModel fun _ _ heq => by cases heq

theorem Built.measureVisible_yields (h : r.Built) (m : MeasureId) :
    Yields (r.Inv K) (r.measureVisible m) (.ok (r.session.measureVisible m)) :=
  h.allowed_yields .readMeasure fun _ _ heq => by cases heq

/-- A role that may open the model and read the measure. -/
theorem Built.hideLists_viewable (h : r.Built) (hrows : r.freshRows m = some rows)
    (hview : r.Viewable m) {x : Except Panic (Option HideLists)}
    (hx : Yields (r.Inv K) (match rows.representatives with
      | none => pure none
      | some reps => do
          let same ← everyCombination reps fun items => do
            let each ← items.allM r.itemVisible
            let shown ← r.cellVisible rows.measure (rows.coord items)
            return shown == each
          if !same then return none
          r.listsOf (rows.cats.zip rows.dims)) x) :
    Yields (r.Inv K) (r.hideLists rows) x := by
  obtain ⟨_, _, hrm, _⟩ := of_freshRows hrows
  refine h.opened_yields.bind ?_
  rw [hview.1]
  refine (h.measureVisible_yields _).bind ?_
  rw [hrm, hview.2]
  rw [hrm] at hx
  exact hx

/-- A category without items is out of range. -/
theorem Built.hideLists_panics (h : r.Built) (hrows : r.freshRows m = some rows)
    (hview : r.Viewable m) {c : CategoryId} (hc : c ∈ rows.cats) (hnil : r.itemsOf c = []) :
    Yields (r.Inv K) (r.hideLists rows) (.error .indexOutOfRange) := by
  have hmem : [] ∈ rows.cats.map r.repsOf :=
    List.mem_map.mpr ⟨c, hc, h.repsOf_eq_nil_iff.mpr hnil⟩
  refine h.hideLists_viewable hrows hview ?_
  rw [representatives_of_nil hrows hmem]
  exact Yields.bind_error (everyCombination_panics hmem _)

/-- What hide lists say of rows. -/
def Hides (r : Restricted) (m : MeasureId) (rows : Rows) (lists : HideLists) : Prop :=
  List.Forall₂ r.HidesIn rows.cats lists ∧ ∀ found, r.Found rows.cats found →
    (r.session.cellVisible m (rows.coord (found.map (·.2))) = true ↔
      ∀ p ∈ found, r.session.itemVisible p.2 = true)

theorem Built.hideLists_yields (h : r.Built) (hrows : r.freshRows m = some rows)
    (hitems : r.Viewable m → ∀ c ∈ rows.cats, r.itemsOf c ≠ []) :
    ∃ F, (∀ K, Yields (r.Inv K) (r.hideLists rows) (.ok F)) ∧
      ∀ lists, F = some lists → r.Hides m rows lists := by
  obtain ⟨measure, hm, hrm, hcats, hdims, _⟩ := of_freshRows hrows
  by_cases hview : r.Viewable m
  · rcases representatives_eq hrows with hreps | hreps
    · refine ⟨none, fun K => h.hideLists_viewable hrows hview ?_, fun _ heq => by cases heq⟩
      rw [hreps]
      exact Yields.pure none
    · have hne : ∀ is ∈ rows.cats.map r.repsOf, is ≠ [] := by
        intro is his
        obtain ⟨c, hc, rfl⟩ := List.mem_map.mp his
        rw [Ne, h.repsOf_eq_nil_iff]
        exact hitems hview c hc
      obtain ⟨same, hsame⟩ := exists_bool (∀ is, List.Forall₂ (fun i reps => i ∈ reps) is
        (rows.cats.map r.repsOf) → (r.session.cellVisible rows.measure (rows.coord is) ==
          is.all r.session.itemVisible) = true)
      have hcombos : ∀ K, Yields (r.Inv K) (everyCombination (rows.cats.map r.repsOf)
          fun items => do
            let each ← items.allM r.itemVisible
            let shown ← r.cellVisible rows.measure (rows.coord items)
            return shown == each) (.ok same) := by
        intro K
        refine everyCombination_yields hne (fun is his => ?_) hsame
        have hlen := his.length_eq
        rw [List.length_map] at hlen
        refine Yields.bind (Yields.allM fun i _ => h.itemVisible_yields i) ?_
        exact (h.cell_yields hrows hlen).bind (Yields.pure _)
      cases same with
      | false =>
          refine ⟨none, fun K => h.hideLists_viewable hrows hview ?_, fun _ heq => by cases heq⟩
          rw [hreps]
          exact (hcombos K).bind (Yields.pure none)
      | true =>
          obtain ⟨F, hF, hlists⟩ := h.listsOf_yields rows.cats
          refine ⟨F, fun K => h.hideLists_viewable hrows hview ?_,
            fun lists heq => ⟨hlists lists heq, fun found hfound => ?_⟩⟩
          · rw [hreps]
            refine (hcombos K).bind ?_
            rw [hdims]
            exact hF K
          · obtain ⟨is, his, hmap, hcell⟩ := h.exists_reps_visible hrows hfound
            have hall := hsame.mp rfl is his
            rw [hrm, beq_iff_eq] at hall
            have heach : (is.all r.session.itemVisible = true) ↔
                ∀ p ∈ found, r.session.itemVisible p.2 = true := by
              have hid : is.all r.session.itemVisible = (is.map r.session.itemVisible).all id := by
                rw [List.all_map]
                rfl
              rw [hid, ← hmap]
              simp
            rw [hcell, hall, heach]
  · refine ⟨none, fun K => h.opened_yields.bind ?_, fun _ heq => by cases heq⟩
    cases hv : r.session.allowed .viewModel .model with
    | false => exact Yields.pure none
    | true =>
        refine (h.measureVisible_yields _).bind ?_
        cases hr : r.session.measureVisible rows.measure with
        | false => exact Yields.pure none
        | true =>
            rw [hrm] at hr
            exact absurd ⟨hv, hr⟩ hview

end Improv.Policy.Restricted
