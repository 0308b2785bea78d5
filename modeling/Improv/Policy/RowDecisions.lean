import Improv.Policy.RowFilter
import Improv.Service.Keyed
/-!
# A session's cache is right

Where the policy engine decides alike the items that no policy names, and the
cells at them, a decision kept by class is the decision of every resource of the
class.  So a session's answers do not depend on what it was asked before.
-/

namespace Improv.Policy

open Improv.Lib Improv.CoreModel Improv.Service
open Improv.Lib.Cached (Yields)

/-- A cell's value may be shown. -/
def Session.cellVisible (s : Session) (m : MeasureId) (coord : Coordinate) : Bool :=
  s.allowed .readCell (.cell m coord)

namespace Restricted

/-- The engine decides alike the items of a category that no policy names, and
the cells that share the items some policy names. -/
structure Alike (r : Restricted) (ask : Action → Resource → Bool) : Prop where
  items : ∀ a i j c, r.session.shape.items.get? i = some c → r.session.shape.items.get? j = some c →
    i ∉ r.named → j ∉ r.named → ask a (.item i) = ask a (.item j)
  cells : ∀ a m x y is js, r.session.shape.cellItems m x = .ok is →
    r.session.shape.cellItems m y = .ok js → (∀ i ∈ r.named, i ∈ is ↔ i ∈ js) →
      ask a (.cell m x) = ask a (.cell m y)

/-- A session as it is built over a model with policies. -/
structure Built (r : Restricted) : Prop where
  shape : r.session.shape = Structure.of r.model
  keyed : Keyed r.model
  unique : ∀ i j x y, r.model.items.get? i = some x → r.model.items.get? j = some y →
    x.category = y.category → x.name = y.name → i = j
  alike : ∃ ask, r.session.answers = some ask ∧ r.Alike ask

variable {r : Restricted}

/-! ## Classes -/

/-- The resource is of the class.  A cell is, whatever the order its class names
the items in. -/
def InClass (r : Restricted) : Class → Resource → Prop
  | .cell m named, .cell m' coord =>
      m' = m ∧ ∃ items, r.session.shape.cellItems m coord = .ok items ∧
        ∀ i ∈ r.named, i ∈ items ↔ i ∈ named
  | c, resource => r.classOf resource = some c

theorem of_cellItems {s : Structure} {m : MeasureId} {coord : Coordinate} {items : List ItemId}
    (h : s.cellItems m coord = .ok items) : ∃ x, s.measures.get? m = some x ∧
      coord.size = x.categories.length ∧ items = x.categories.filterMap coord.get? ∧
      ∀ c ∈ x.categories, ∃ i, coord.get? c = some i ∧ s.items.get? i = some c := by
  unfold Structure.cellItems at h
  cases hm : s.measures.get? m with
  | none =>
      rw [hm] at h
      cases h
  | some x =>
      simp only [hm] at h
      split at h
      · rename_i hfits
        refine ⟨x, rfl, hfits.1, (Except.ok.inj h).symm, fun c hc => ?_⟩
        have hany := List.all_eq_true.mp hfits.2 c hc
        rw [Option.any_eq_true] at hany
        obtain ⟨i, hi, hic⟩ := hany
        exact ⟨i, hi, of_decide_eq_true hic⟩
      · cases h

/-- A cell's items can be asked about when its measure's categories can. -/
theorem slices_cell {s : Structure} {m : MeasureId} {coord : Coordinate} {items : List ItemId}
    (h : s.cellItems m coord = .ok items) {x : MeasureShape} (hx : s.measures.get? m = some x) :
    s.slices (.cell m coord) = x.categories.all s.categories.contains := by
  obtain ⟨y, hy, _, hitems, hall⟩ := of_cellItems h
  cases hx.symm.trans hy
  rw [Structure.slices, h, Bool.eq_iff_iff, List.all_eq_true, List.all_eq_true, hitems]
  constructor
  · intro hsl c hc
    obtain ⟨i, hi, hic⟩ := hall c hc
    have hone := hsl i (List.mem_filterMap.mpr ⟨c, hc, hi⟩)
    simpa [Structure.slicesItem, hic] using hone
  · intro hcat i hi
    obtain ⟨c, hc, hic⟩ := List.mem_filterMap.mp hi
    obtain ⟨j, hj, hjc⟩ := hall c hc
    cases hic.symm.trans hj
    simpa [Structure.slicesItem, hjc] using hcat c hc

theorem ownClass_eq_iff {i j : ItemId} :
    r.ownClass i = r.ownClass j ↔ i = j ∨ (i ∉ r.named ∧ j ∉ r.named) := by
  unfold ownClass
  by_cases hi : i ∈ r.named <;> by_cases hj : j ∈ r.named <;> simp [hi, hj]
  · intro heq
    exact hj (heq ▸ hi)
  · intro heq
    exact hi (heq ▸ hj)

section

variable {ask : Action → Resource → Bool}

theorem decide_eq (hans : r.session.answers = some ask) (a : Action) (x : Resource) :
    r.session.decide a x = (r.session.shape.slices x && ask a x) := by
  rw [Session.decide, hans]

/-- A class's resources are decided alike. -/
theorem decide_congr (hans : r.session.answers = some ask) (halike : r.Alike ask) {c : Class}
    {x y : Resource} (hx : r.InClass c x) (hy : r.InClass c y) (a : Action) :
    r.session.decide a x = r.session.decide a y := by
  rw [decide_eq hans, decide_eq hans]
  cases c with
  | cell m named =>
      cases x <;> cases y <;> simp only [InClass, classOf, reduceCtorEq, Option.map_eq_some_iff,
        Option.some.injEq, and_false, exists_false] at hx hy
      rename_i mx cx my cy
      obtain ⟨rfl, is, his, hisn⟩ := hx
      obtain ⟨rfl, js, hjs, hjsn⟩ := hy
      obtain ⟨shape, hshape, _⟩ := of_cellItems his
      rw [slices_cell his hshape, slices_cell hjs hshape,
        halike.cells a _ _ _ _ _ his hjs fun i hi => (hisn i hi).trans (hjsn i hi).symm]
  | item c named =>
      cases x <;> cases y <;> simp only [InClass, classOf, reduceCtorEq, Option.map_eq_some_iff,
        Option.some.injEq, Class.item.injEq] at hx hy
      rename_i i j
      obtain ⟨_, hi, rfl, hin⟩ := hx
      obtain ⟨_, hj, rfl, hjn⟩ := hy
      have hslices : r.session.shape.slices (.item i) = r.session.shape.slices (.item j) := by
        simp [Structure.slices, Structure.slicesItem, hi, hj]
      rcases ownClass_eq_iff.mp (hin.trans hjn.symm) with heq | ⟨hi', hj'⟩
      · rw [heq]
      · rw [hslices, halike.items a i j _ hi hj hi' hj']
  | _ =>
      cases x <;> cases y <;> simp only [InClass, classOf, reduceCtorEq, Option.map_eq_some_iff,
        Option.some.injEq, Class.category.injEq, Class.measure.injEq, Class.view.injEq,
        and_false, exists_false] at hx hy
      all_goals simp [hx, hy]

theorem decide_of_classOf_none (hans : r.session.answers = some ask) {x : Resource} {a : Action}
    (hx : r.classOf x = none) : r.session.decide a x = false := by
  rw [decide_eq hans]
  cases x <;> simp only [classOf, reduceCtorEq, Option.map_eq_none_iff] at hx
  simp [Structure.slices, Structure.slicesItem, hx]

end

theorem Built.decide_congr (h : r.Built) {c : Class} {x y : Resource} (hx : r.InClass c x)
    (hy : r.InClass c y) (a : Action) : r.session.decide a x = r.session.decide a y := by
  obtain ⟨ask, hans, halike⟩ := h.alike
  exact Restricted.decide_congr hans halike hx hy a

/-! ## Cached questions -/

/-- The kept decisions are right; `K` is about the rest of the caches, which no
question to the session touches. -/
structure Inv (r : Restricted)
    (K : SortedMap MeasureId Rows → SortedMap MeasureId (Option HideLists) → Prop)
    (s : Caches) : Prop where
  decisions : ∀ a c d, s.decisions.lookup (a, c) = some d → ∀ x, r.InClass c x →
    r.session.decide a x = d
  kept : K s.rows s.fast

variable {K : SortedMap MeasureId Rows → SortedMap MeasureId (Option HideLists) → Prop}

theorem Built.answers_isNone (h : r.Built) : r.session.answers.isNone = false := by
  obtain ⟨ask, hans, _⟩ := h.alike
  rw [hans]
  rfl

theorem Built.decide_yields (h : r.Built) (a : Action) {x : Resource}
    (hx : ∀ c, r.classOf x = some c → r.InClass c x) :
    Yields (r.Inv K) (r.decide a x) (.ok (r.session.decide a x)) := by
  obtain ⟨ask, hans, _⟩ := h.alike
  unfold Restricted.decide
  rw [h.answers_isNone]
  cases hc : r.classOf x with
  | none =>
      rw [decide_of_classOf_none hans hc]
      exact Yields.pure false
  | some c =>
      refine Yields.get_bind fun s hs => ?_
      cases hl : s.decisions.lookup (a, c) with
      | some d =>
          rw [hs.decisions a c d hl x (hx c hc)]
          exact Yields.pure d
      | none =>
          refine Yields.bind (Yields.modify fun t ht => ?_) (Yields.pure _)
          refine ⟨fun a' c' d hd y hy => ?_, ht.kept⟩
          rw [List.lookup_cons] at hd
          split at hd
          · rename_i heq
            have hpair := Prod.mk.inj (eq_of_beq heq)
            rw [← Option.some.inj hd, hpair.1]
            exact h.decide_congr (hpair.2 ▸ hy) (hx c hc) a
          · exact ht.decisions a' c' d hd y hy

/-- The class of a resource that is no cell. -/
theorem inClass_of_classOf {x : Resource} {c : Class} (hx : ∀ m coord, x ≠ .cell m coord)
    (h : r.classOf x = some c) : r.InClass c x := by
  cases x with
  | cell m coord => exact absurd rfl (hx m coord)
  | _ =>
      simp only [classOf, Option.some.injEq, Option.map_eq_some_iff] at h
      first
        | (subst h; rfl)
        | (obtain ⟨_, hi, rfl⟩ := h; simp [InClass, classOf, hi])

/-- The coordinate is one of the measure, and names none but its categories. -/
def Fits (r : Restricted) (m : MeasureId) (coord : Coordinate) (items : List ItemId) : Prop :=
  r.session.shape.cellItems m coord = .ok items ∧
    ∀ x, r.session.shape.measures.get? m = some x → ∀ c ∈ coord.keys, c ∈ x.categories

theorem inClass_of_fits {m : MeasureId} {coord : Coordinate} {items : List ItemId}
    (h : r.Fits m coord items) {named : List ItemId}
    (hnamed : ∀ i ∈ r.named, i ∈ coord.values ↔ i ∈ named) :
    r.InClass (.cell m named) (.cell m coord) := by
  refine ⟨rfl, items, h.1, fun i hi => ?_⟩
  obtain ⟨x, hx, _, rfl, hcats⟩ := of_cellItems h.1
  rw [← hnamed i hi, SortedMap.mem_values_iff, List.mem_filterMap]
  constructor
  · intro ⟨c, _, hc⟩
    exact ⟨c, hc⟩
  · intro ⟨c, hc⟩
    exact ⟨c, h.2 x hx c (SortedMap.mem_keys_of_get? hc), hc⟩

theorem mem_values_of_fits {m : MeasureId} {coord : Coordinate} {items : List ItemId}
    (h : r.Fits m coord items) (i : ItemId) : i ∈ coord.values ↔ i ∈ items := by
  obtain ⟨x, hx, _, rfl, hcats⟩ := of_cellItems h.1
  rw [SortedMap.mem_values_iff, List.mem_filterMap]
  constructor
  · intro ⟨c, hc⟩
    exact ⟨c, h.2 x hx c (SortedMap.mem_keys_of_get? hc), hc⟩
  · intro ⟨c, _, hc⟩
    exact ⟨c, hc⟩

theorem inClass_classOf_cell {m : MeasureId} {coord : Coordinate} {items : List ItemId}
    (h : r.Fits m coord items) {c : Class} (hc : r.classOf (.cell m coord) = some c) :
    r.InClass c (.cell m coord) := by
  cases hc
  refine inClass_of_fits h fun i hi => ?_
  rw [List.mem_filter]
  simp [hi]

/-! ## The composite rules -/

/-- Raw questions are answered rightly, about what is of the class it is kept
under. -/
def Decides (r : Restricted) {ε σ : Type} (Right : σ → Prop)
    (ask : Action → Resource → Cached ε σ Bool) : Prop :=
  ∀ a x, (∀ c, r.classOf x = some c → r.InClass c x) →
    Yields Right (ask a x) (.ok (r.session.decide a x))

theorem Built.decides (h : r.Built) : r.Decides (r.Inv K) r.decide :=
  fun a _ hx => h.decide_yields a hx

section

variable {ε σ : Type} {Right : σ → Prop} {ask : Action → Resource → Cached ε σ Bool}

theorem Decides.steps_yields (h : r.Decides Right ask) {steps : List (Action × Resource)}
    (hsteps : ∀ p ∈ steps, ∀ c, r.classOf p.2 = some c → r.InClass c p.2) :
    Yields Right (steps.allM fun p => ask p.1 p.2)
      (.ok (steps.all fun p => r.session.decide p.1 p.2)) :=
  Yields.allM fun p hp => h p.1 p.2 (hsteps p hp)

end

/-- Only a question about a cell needs an answer about one. -/
theorem ne_cell_of_steps {a : Action} {x : Resource} (hx : ∀ m coord, x ≠ .cell m coord)
    {steps : List (Action × Resource)} (h : r.session.steps a x = .ok steps) :
    ∀ p ∈ steps, ∀ m coord, p.2 ≠ .cell m coord := by
  unfold Session.steps at h
  rw [bind_eq_ok_iff] at h
  obtain ⟨needs, hneeds, h⟩ := h
  have hall : ∀ p ∈ needs, ∀ m coord, p.2 ≠ .cell m coord := by
    unfold Session.needs at hneeds
    split at hneeds
    · exact absurd rfl (hx _ _)
    · exact absurd rfl (hx _ _)
    · cases hneeds
      simp
    · cases hneeds
      simp
    · split at hneeds
      · cases hneeds
      · cases hneeds
        simp
    · cases hneeds
      simp
  have hsteps := Except.ok.inj h
  intro p hp m coord
  have hcases : p = (.viewModel, .model) ∨ p ∈ needs ∨ p = (a, x) := by
    rw [← hsteps] at hp
    split at hp <;> simp at hp <;> tauto
  rcases hcases with rfl | hp | rfl
  · simp
  · exact hall p hp m coord
  · exact hx m coord

/-- A question that is not about a cell. -/
theorem Built.allowed_yields (h : r.Built) (a : Action) {x : Resource}
    (hx : ∀ m coord, x ≠ .cell m coord) :
    Yields (r.Inv K) (r.allowed a x) (.ok (r.session.allowed a x)) := by
  obtain ⟨ask, hans, _⟩ := h.alike
  unfold Restricted.allowed Session.allowed
  rw [hans]
  by_cases hedit : (a = .editCell && !r.session.isInput x) = true
  · simp only [Option.isNone_some, Bool.false_eq_true, if_false, hedit, if_true]
    exact Yields.pure false
  · simp only [Option.isNone_some, Bool.false_eq_true, if_false, hedit]
    have hhit : Yields (r.Inv K) (r.hit a x) (.ok none) := by
      cases x with
      | cell m coord => exact absurd rfl (hx m coord)
      | _ => cases a <;> exact Yields.pure none
    refine hhit.bind ?_
    · cases hsteps : r.session.steps a x with
      | error e => exact Yields.pure false
      | ok steps =>
          exact h.decides.steps_yields fun p hp c hc =>
            inClass_of_classOf (ne_cell_of_steps hx hsteps p hp) hc

/-- What the cell rule asks of a cell. -/
def cellSteps (a : Action) (m : MeasureId) (coord : Coordinate) (items : List ItemId) :
    List (Action × Resource) :=
  (.viewModel, .model) :: (.readMeasure, .measure m) ::
    (items.map fun i => (.readItem, .item i)) ++ (.readCell, .cell m coord) ::
      if a = .editCell then [(.editCell, .cell m coord)] else []

theorem steps_cell {a : Action} (ha : a = .readCell ∨ a = .editCell) (m : MeasureId)
    (coord : Coordinate) :
    r.session.steps a (.cell m coord) =
      match r.session.shape.cellItems m coord with
      | .ok items => .ok (cellSteps a m coord items)
      | .error e => .error e := by
  unfold Session.steps Session.needs cellSteps
  rcases ha with rfl | rfl
  · cases h : r.session.shape.cellItems m coord with
    | error e => simp [h, bind, Except.bind]
    | ok items => simp [h, bind, Except.bind, pure, Except.pure]
  · cases h : r.session.shape.cellItems m coord with
    | error e => simp [h, bind, Except.bind]
    | ok items => simp [h, bind, Except.bind, pure, Except.pure]

/-- The cell rule's answer. -/
def cellAnswer (r : Restricted) (a : Action) (m : MeasureId) (coord : Coordinate) : Bool :=
  match r.session.shape.cellItems m coord with
  | .ok items => (cellSteps a m coord items).all fun p => r.session.decide p.1 p.2
  | .error _ => false

theorem allowed_cell_eq {ask : Action → Resource → Bool} (hans : r.session.answers = some ask)
    {a : Action} (ha : a = .readCell ∨ a = .editCell) (m : MeasureId) (coord : Coordinate) :
    r.session.allowed a (.cell m coord) =
      if a = .editCell && !r.session.isInput (.cell m coord) then false
      else r.cellAnswer a m coord := by
  unfold Session.allowed cellAnswer
  rw [hans]
  simp only [steps_cell ha]
  cases r.session.shape.cellItems m coord with
  | error e => rfl
  | ok items => rfl

theorem Built.cellVisible_eq (h : r.Built) (m : MeasureId) (coord : Coordinate) :
    r.session.cellVisible m coord = r.cellAnswer .readCell m coord := by
  obtain ⟨ask, hans, _⟩ := h.alike
  exact allowed_cell_eq hans (.inl rfl) m coord

/-- What the cache says of questions whose classes are those of some steps. -/
theorem cachedAll_eq {decisions : List ((Action × Class) × Bool)}
    (hs : ∀ a c d, decisions.lookup (a, c) = some d → ∀ x, r.InClass c x →
      r.session.decide a x = d) {qs : List (Action × Class)} {steps : List (Action × Resource)}
    (h : List.Forall₂ (fun q p => q.1 = p.1 ∧ r.InClass q.2 p.2) qs steps) {d : Bool}
    (hd : cachedAll decisions qs = some d) :
    d = steps.all fun p => r.session.decide p.1 p.2 := by
  induction h with
  | nil => exact (Option.some.inj hd).symm
  | @cons q p qs steps hq _ ih =>
      unfold cachedAll at hd
      rw [List.all_cons]
      cases hl : decisions.lookup q with
      | none =>
          rw [hl] at hd
          cases hd
      | some d' =>
          have heq := hs q.1 q.2 d' hl p.2 hq.2
          rw [← hq.1, heq]
          rw [hl] at hd
          cases d' with
          | false => exact (Option.some.inj hd).symm
          | true => exact ih hd

theorem fits_cellClasses {m : MeasureId} {coord : Coordinate} {items : List ItemId}
    (h : r.Fits m coord items) (a : Action) :
    List.Forall₂ (fun q p => q.1 = p.1 ∧ r.InClass q.2 p.2) (r.cellClasses a m items)
      (cellSteps a m coord items) := by
  have hcell : r.InClass (.cell m (items.filter (· ∈ r.named))) (.cell m coord) := by
    refine inClass_of_fits h fun i hi => ?_
    rw [mem_values_of_fits h, List.mem_filter]
    simp [hi]
  obtain ⟨x, hx, _, rfl, hcats⟩ := of_cellItems h.1
  unfold cellClasses cellSteps
  refine .cons ⟨rfl, rfl⟩ (.cons ⟨rfl, rfl⟩ (List.rel_append ?_ (.cons ⟨rfl, hcell⟩ ?_)))
  · rw [List.forall₂_map_left_iff, List.forall₂_map_right_iff, List.forall₂_same]
    intro i hi
    obtain ⟨c, hc, hic⟩ := List.mem_filterMap.mp hi
    obtain ⟨j, hj, hjc⟩ := hcats c hc
    cases hic.symm.trans hj
    refine ⟨rfl, ?_⟩
    rw [hjc]
    simp [InClass, classOf, hjc]
  · split
    · exact .cons ⟨rfl, hcell⟩ .nil
    · exact .nil

/-- The coordinate names no category but the measure's. -/
def OwnKeys (r : Restricted) (m : MeasureId) (coord : Coordinate) : Prop :=
  ∀ x, r.session.shape.measures.get? m = some x → ∀ c ∈ coord.keys, c ∈ x.categories

/-- The cell rule from the cache, or else from some other right source. -/
theorem cellCached_yields {m : MeasureId} {coord : Coordinate} {slow : Ask Bool} {a : Action}
    (hkeys : r.OwnKeys m coord) (hslow : Yields (r.Inv K) slow (.ok (r.cellAnswer a m coord))) :
    Yields (r.Inv K) (r.cellCached a m coord >>= fun hit =>
      match hit with
      | some d => pure d
      | none => slow) (.ok (r.cellAnswer a m coord)) := by
  unfold cellCached
  cases hitems : r.session.shape.cellItems m coord with
  | error e => exact Yields.bind (Yields.pure none) hslow
  | ok items =>
      rw [bind_assoc]
      refine Yields.get_bind fun s hs => ?_
      rw [pure_bind]
      cases hd : cachedAll s.decisions (r.cellClasses a m items) with
      | none => exact hslow
      | some d =>
          unfold cellAnswer
          rw [hitems, cachedAll_eq hs.decisions (fits_cellClasses ⟨hitems, hkeys⟩ a) hd]
          exact Yields.pure _

/-- The steps of a question about a cell, one after the other. -/
theorem Decides.steps_cell_yields {ε σ : Type} {Right : σ → Prop}
    {ask : Action → Resource → Cached ε σ Bool} (h : r.Decides Right ask) {a : Action}
    (ha : a = .readCell ∨ a = .editCell) {m : MeasureId} {coord : Coordinate}
    (hkeys : ∀ items, r.session.shape.cellItems m coord = .ok items → r.OwnKeys m coord) :
    Yields Right
      (match r.session.steps a (.cell m coord) with
      | .ok steps => steps.allM fun p => ask p.1 p.2
      | .error _ => pure false) (.ok (r.cellAnswer a m coord)) := by
  unfold cellAnswer
  rw [steps_cell ha]
  cases hitems : r.session.shape.cellItems m coord with
  | error e => exact Yields.pure false
  | ok items =>
      refine h.steps_yields fun p hp c hc => ?_
      have hcases : (∀ m' coord', p.2 ≠ .cell m' coord') ∨ p.2 = .cell m coord := by
        rcases List.mem_append.mp hp with hp | hp
        · refine .inl fun m' coord' heq => ?_
          simp only [List.mem_cons, List.mem_map] at hp
          rcases hp with rfl | rfl | ⟨i, _, rfl⟩ <;> cases heq
        · right
          split at hp <;> simp at hp
          · rcases hp with rfl | rfl <;> rfl
          · rw [hp]
      rcases hcases with hother | hcell
      · exact inClass_of_classOf hother hc
      · rw [hcell] at hc ⊢
        exact inClass_classOf_cell ⟨hitems, hkeys items hitems⟩ hc

/-- A question about a cell. -/
theorem Built.allowed_cell_yields (h : r.Built) {a : Action} (ha : a = .readCell ∨ a = .editCell)
    {m : MeasureId} {coord : Coordinate} (hkeys : r.OwnKeys m coord) :
    Yields (r.Inv K) (r.allowed a (.cell m coord)) (.ok (r.session.allowed a (.cell m coord))) := by
  obtain ⟨ask, hans, _⟩ := h.alike
  have hsteps := (h.decides (K := K)).steps_cell_yields ha fun _ _ => hkeys
  rw [allowed_cell_eq hans ha]
  unfold allowed
  rw [h.answers_isNone]
  by_cases hedit : (a = .editCell && !r.session.isInput (.cell m coord)) = true
  · rw [if_pos hedit]
    simp only [Bool.false_eq_true, if_false, hedit, if_true]
    exact Yields.pure false
  · rw [if_neg hedit]
    simp only [Bool.false_eq_true, if_false, hedit]
    rcases ha with rfl | rfl
    · exact cellCached_yields hkeys hsteps
    · exact cellCached_yields hkeys hsteps

/-- Whether a cell is shown, whatever was asked before. -/
theorem Built.cellVisible_yields (h : r.Built) {m : MeasureId} {coord : Coordinate}
    (hkeys : r.OwnKeys m coord) :
    Yields (r.Inv K) (r.cellVisible m coord) (.ok (r.session.cellVisible m coord)) := by
  have hallowed : Yields (r.Inv K) (r.allowed .readCell (.cell m coord))
      (.ok (r.session.cellVisible m coord)) := h.allowed_cell_yields (.inl rfl) hkeys
  unfold cellVisible
  rw [h.answers_isNone]
  rw [h.cellVisible_eq] at hallowed ⊢
  exact cellCached_yields hkeys hallowed

end Restricted

end Improv.Policy
