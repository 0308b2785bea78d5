import Improv.PgModel.Batches
import Improv.PgModel.FoldRows
/-!
# Changes lead the folds on

A change leads every aggregated binding's folds and cells from those of the rows
before it to those of the rows after it, or leaves them where their seed saw it
already.  It touches nothing else, and it never finds a fold out of step.
-/

namespace Improv.PgModel

open Improv.Lib Improv.CoreModel Improv.Engine

/-! ## Rows without an aggregate -/

/-- An error of anything but a fold. -/
def InStep (e : Rebuild) : Prop := e ≠ outOfStep

section Rows

variable {cal : Calendar} {items : Items} {r : Relation} {b : Binding} {vt : ValueType}
  {m : Model} {touched : Touched}

theorem valueType_inStep (m : Model) (measure : MeasureId) :
    Outcome (fun vt => valueType m measure = .ok vt) InStep (valueType m measure) := by
  apply Outcome.of
  · exact fun vt hvt => hvt
  · intro e he
    unfold valueType at he
    cases hx : m.measures.get? measure with
    | none =>
        rw [hx] at he
        cases he
        exact (by decide : (⟨"unknown measure"⟩ : Rebuild) ≠ outOfStep)
    | some x =>
        rw [hx] at he
        cases he

theorem coord_inStep (t : Tuple) : Outcome (fun _ => True) InStep (coord items r b t) :=
  .of (fun _ _ => trivial) fun _ he => (coord_error he).ne

theorem value_inStep (t : Tuple) : Outcome (fun _ => True) InStep (value cal r b t vt) := by
  apply Outcome.of
  · exact fun _ _ => trivial
  · intro e he
    unfold value at he
    rw [bind_eq_error_iff] at he
    rcases he with he | ⟨x, _, he⟩
    · exact (text_error he).ne
    · cases x with
      | none => cases he
      | some s =>
          dsimp only at he
          cases hp : parse cal vt s (decide (valueOid r b = BPCHAR)) with
          | ok v =>
              rw [hp] at he
              cases he
          | error e' =>
              rw [hp] at he
              cases he
              exact ReadError.ne (.inl (parse_error hp))

theorem oldRow_inStep (old : Option (Option Tuple)) (new : Option Tuple) :
    Outcome (fun _ => True) InStep (oldRow r b old new) := by
  unfold oldRow
  cases old with
  | none => trivial
  | some t =>
      dsimp only
      split
      · cases t with
        | none => exact (by decide : (⟨"old row not replicated"⟩ : Rebuild) ≠ outOfStep)
        | some t => trivial
      · split
        · cases t.or new with
          | none => exact (by decide : (⟨"no row"⟩ : Rebuild) ≠ outOfStep)
          | some t => trivial
        · exact (by decide : (⟨"old row not replicated"⟩ : Rebuild) ≠ outOfStep)

theorem retract_touches (old : Option (Tuple × Bool)) :
    Outcome (fun s => Touches b.measure m s.1) InStep
      (retract cal items r b vt old m touched) := by
  unfold retract
  cases old with
  | none => exact .refl _ _
  | some o =>
      apply (coord_inStep o.1).bind
      intro c _
      cases c with
      | none => exact Touches.refl _ _
      | some c =>
          have htaken : ∀ gone : Bool, Outcome (fun s => Touches b.measure m s.1) InStep
              (if gone then
                .ok ({ m with inputs := m.inputs.erase ⟨b.measure, c⟩ },
                  touched.orInsert ⟨b.measure, c⟩ (m.inputs.get? ⟨b.measure, c⟩))
              else .ok (m, touched)) := by
            intro gone
            split
            · exact Touches.erase m ⟨b.measure, c⟩
            · exact Touches.refl _ _
          dsimp only
          split
          · have hsome : Outcome (fun _ => True) InStep
                ((value cal r b o.1 vt).map Option.isSome) :=
              (value_inStep o.1).bind fun _ _ => trivial
            exact hsome.bind fun gone _ => htaken gone
          · exact htaken true

theorem assert_touches (replay : Bool) (new : Option Tuple) :
    Outcome (fun s => Touches b.measure m s.1) InStep
      (assert cal items r b vt replay new m touched) := by
  unfold assert
  cases new with
  | none => exact .refl _ _
  | some t =>
      apply (coord_inStep t).bind
      intro c _
      apply (value_inStep t).bind
      intro v _
      cases c with
      | none => exact Touches.refl _ _
      | some c =>
          cases v with
          | none => exact Touches.refl _ _
          | some v =>
              dsimp only
              split
              · exact (by decide : (⟨"two rows on one coordinate"⟩ : Rebuild) ≠ outOfStep)
              · exact Touches.insert m ⟨b.measure, c⟩ v

/-- A row change through a binding without an aggregate changes only its
measure's cells. -/
theorem row_touches (old : Option (Option Tuple)) (new : Option Tuple) (replay : Bool) :
    Outcome (fun s => Touches b.measure m s.1) InStep
      (row cal items r b old new replay m touched) := by
  unfold row
  apply (valueType_inStep m b.measure).bind
  intro vt _
  apply (oldRow_inStep old new).bind
  intro o _
  apply (retract_touches o).bind
  intro s hs
  exact (assert_touches replay new).mono fun s' hs' => hs.trans hs'

end Rows

/-! ## One binding -/

namespace Mapper

variable {cal : Calendar} {describe : Nat → Relation} {rels : SortedMap Nat Relation}
  {replay : Bool} {xid : UInt32} {mp : Mapper} {m : Model} {touched : Touched} {rel : Nat}
  {b : Binding} {agg : Agg} {rows rows' : List Tuple}

/-- How the mapper folds a binding's rows. -/
def folder (mp : Mapper) (describe : Nat → Relation) (m : Model) (rel : Nat) (b : Binding)
    (agg : Agg) : Folder :=
  ⟨mp.items, describe rel, b, agg, vtOf m b, textCmp (mp.collations.get? b.measure)⟩

/-- A measure's folds, by coordinate. -/
def foldsOf (mp : Mapper) (measure : MeasureId) : SortedMap Coordinate Fold :=
  (mp.folds.get? measure).getD .empty

/-- An aggregated binding's folds and cells are those of some rows, once they
are seeded; there are none before. -/
structure FoldAt (cal : Calendar) (describe : Nat → Relation) (mp : Mapper) (m : Model)
    (rel : Nat) (b : Binding) (agg : Agg) (rows : List Tuple) : Prop where
  unseeded : mp.seeded.get? b.measure = none → mp.folds.get? b.measure = none
  typed : mp.seeded.get? b.measure ≠ none → valueType m b.measure = .ok (vtOf m b)
  folded : mp.seeded.get? b.measure ≠ none →
    (mp.folder describe m rel b agg).Folded cal (mp.foldsOf b.measure) m.inputs rows

/-- A step that changes the folds and the cells of some measures only. -/
structure Within (ms : List MeasureId) (mp : Mapper) (m : Model) (s : State) : Prop where
  names : SameNames mp s.1
  rest : s.2.1 = { m with inputs := s.2.1.inputs }
  folds : ∀ measure, measure ∉ ms → s.1.folds.get? measure = mp.folds.get? measure
  cells : ∀ k : Cell, k.measure ∉ ms → s.2.1.inputs.get? k = m.inputs.get? k

theorem Within.refl (ms : List MeasureId) (mp : Mapper) (m : Model) (touched : Touched) :
    Within ms mp m (mp, m, touched) :=
  ⟨.refl mp, rfl, fun _ _ => rfl, fun _ _ => rfl⟩

theorem Within.trans {ms ms' : List MeasureId} {s s' : State} (h : Within ms mp m s)
    (h' : Within ms' s.1 s.2.1 s') : Within (ms ++ ms') mp m s' := by
  refine ⟨h.names.trans h'.names, ?_, ?_, ?_⟩
  · rw [h'.rest, h.rest]
  · intro measure hmeasure
    rw [List.mem_append, not_or] at hmeasure
    exact (h'.folds measure hmeasure.2).trans (h.folds measure hmeasure.1)
  · intro k hk
    rw [List.mem_append, not_or] at hk
    exact (h'.cells k hk.2).trans (h.cells k hk.1)

theorem Within.of_touches {s : State} (hmp : s.1 = mp) (h : Touches b.measure m s.2.1) :
    Within [b.measure] mp m s := by
  refine ⟨?_, h.rest, ?_, ?_⟩
  · rw [hmp]
    exact .refl mp
  · intro measure _
    rw [hmp]
  · intro k hk
    exact h.others k fun heq => hk (List.mem_singleton.mpr heq)

theorem vtOf_of_rest {m' : Model} (h : m' = { m with inputs := m'.inputs }) (b : Binding) :
    vtOf m' b = vtOf m b := by
  unfold vtOf
  rw [h]

theorem valueType_of_rest {m' : Model} (h : m' = { m with inputs := m'.inputs })
    (measure : MeasureId) : valueType m' measure = valueType m measure := by
  unfold valueType
  rw [h]

theorem folder_eq {mp' : Mapper} {m' : Model} (hitems : mp'.items = mp.items)
    (hcollation : mp'.collations.get? b.measure = mp.collations.get? b.measure)
    (hrest : m' = { m with inputs := m'.inputs }) :
    mp'.folder describe m' rel b agg = mp.folder describe m rel b agg := by
  unfold folder
  rw [hitems, hcollation, vtOf_of_rest hrest]

/-- What leaves a binding's names, folds and cells leaves what they stand for. -/
theorem FoldAt.congr {mp' : Mapper} {m' : Model} (h : FoldAt cal describe mp m rel b agg rows)
    (hitems : mp'.items = mp.items)
    (hcollation : mp'.collations.get? b.measure = mp.collations.get? b.measure)
    (hseeded : mp'.seeded.get? b.measure = mp.seeded.get? b.measure)
    (hfolds : mp'.folds.get? b.measure = mp.folds.get? b.measure)
    (hrest : m' = { m with inputs := m'.inputs })
    (hcells : ∀ c, m'.inputs.get? ⟨b.measure, c⟩ = m.inputs.get? ⟨b.measure, c⟩) :
    FoldAt cal describe mp' m' rel b agg rows := by
  refine ⟨?_, ?_, ?_⟩
  · intro hnone
    rw [hfolds]
    exact h.unseeded (hseeded ▸ hnone)
  · intro hsome
    rw [valueType_of_rest hrest, vtOf_of_rest hrest]
    exact h.typed (hseeded ▸ hsome)
  · intro hsome
    have hfolded := h.folded (hseeded ▸ hsome)
    have hfoldsOf : mp'.foldsOf b.measure = mp.foldsOf b.measure := by
      unfold foldsOf
      rw [hfolds]
    rw [folder_eq hitems hcollation hrest, hfoldsOf]
    exact ⟨hfolded.readable, hfolded.fold, hfolded.absent,
      fun c => (hcells c).trans (hfolded.cell c)⟩

/-- What a step leaves of the other measures' folds. -/
theorem FoldAt.frame {ms : List MeasureId} {s : State}
    (h : FoldAt cal describe mp m rel b agg rows) (hw : Within ms mp m s)
    (hb : b.measure ∉ ms) : FoldAt cal describe s.1 s.2.1 rel b agg rows :=
  h.congr hw.names.items.symm (by rw [hw.names.collations]) (by rw [hw.names.seeded])
    (hw.folds b.measure hb) hw.rest fun _ => hw.cells _ hb

/-- A step through one binding leads its folds from some rows to others, or
fails in step. -/
def Leads (cal : Calendar) (describe : Nat → Relation) (mp : Mapper) (m : Model) (rel : Nat)
    (b : Binding) (rows : List Tuple) : Except Rebuild State → Prop :=
  Outcome (fun s => Within [b.measure] mp m s ∧
    ∀ agg, b.agg = some agg → FoldAt cal describe s.1 s.2.1 rel b agg rows) InStep

/-- A transaction that a measure's seed saw. -/
def saw (mp : Mapper) (xid : UInt32) (measure : MeasureId) : Bool :=
  (mp.seeded.get? measure).any fun snap => snap.sees xid

theorem unfoldable_inStep {vt : ValueType} {c : Option Collation} {e : Rebuild}
    (h : unfoldable agg vt c = some e) : InStep e := by
  have hreason : e = ⟨"nondeterministic collation"⟩ ∨ e = ⟨"min or max of text"⟩ := by
    unfold unfoldable at h
    grind
  rcases hreason with rfl | rfl
  · exact (by decide : (⟨"nondeterministic collation"⟩ : Rebuild) ≠ outOfStep)
  · exact (by decide : (⟨"min or max of text"⟩ : Rebuild) ≠ outOfStep)

theorem loaded_inStep (mp : Mapper) (m : Model) (b : Binding) (xid : UInt32) :
    Outcome (fun saw => mp.seeded.get? b.measure ≠ none ∧ saw = mp.saw xid b.measure) InStep
      (mp.loaded m b xid) := by
  unfold loaded saw
  cases mp.seeded.get? b.measure with
  | some snap => exact ⟨Option.some_ne_none snap, rfl⟩
  | none =>
      dsimp only
      cases hreason : b.agg.bind fun agg =>
          unfoldable agg (vtOf m b) (mp.collations.get? b.measure) with
      | none => exact (by decide : (⟨"fold not seeded"⟩ : Rebuild) ≠ outOfStep)
      | some e =>
          obtain ⟨agg, _, he⟩ := Option.bind_eq_some_iff.mp hreason
          exact unfoldable_inStep he

theorem keeps_outcome {x : Folder}
    {step : Except Rebuild (SortedMap Coordinate Fold × Model × Touched)}
    (h : x.Keeps cal m rows step) :
    Outcome (fun s => x.Folded cal s.1 s.2.1.inputs rows ∧ Touches x.b.measure m s.2.1) InStep
      step := by
  cases step with
  | ok s => exact h
  | error e => exact h

/-- A seeded binding's folds set to those of other rows. -/
theorem FoldAt.set (h : FoldAt cal describe mp m rel b agg rows) {m' : Model}
    (hrest : m' = { m with inputs := m'.inputs }) {folds : SortedMap Coordinate Fold}
    (hseeded : mp.seeded.get? b.measure ≠ none)
    (hfolded : (mp.folder describe m rel b agg).Folded cal folds m'.inputs rows')
    {folds' : Folds} (hfolds : (folds'.get? b.measure).getD .empty = folds) :
    FoldAt cal describe { mp with folds := folds' } m' rel b agg rows' := by
  refine ⟨fun hnone => absurd hnone hseeded, fun _ => ?_, fun _ => ?_⟩
  · rw [valueType_of_rest hrest, vtOf_of_rest hrest]
    exact h.typed hseeded
  · have hfolder : ({ mp with folds := folds' } : Mapper).folder describe m' rel b agg =
        mp.folder describe m rel b agg := folder_eq rfl rfl hrest
    unfold foldsOf
    rw [hfolder, hfolds]
    exact hfolded

/-- A row change through a binding leads its folds to the rows after it. -/
theorem changeRow_leads (hlawful : Lawful (textCmp (mp.collations.get? b.measure)))
    {old : Option (Option Tuple)} {new : Option Tuple}
    (htook : if mp.saw xid b.measure then rows' = rows
      else Folder.RowTook (describe rel) old new rows rows')
    (h : ∀ agg, b.agg = some agg → FoldAt cal describe mp m rel b agg rows) :
    Leads cal describe mp m rel b rows'
      (changeRow cal (describe rel) old new replay xid b (mp, m, touched)) := by
  cases hagg : b.agg with
  | none =>
      rw [changeRow_of_none hagg]
      apply (row_touches old new replay).bind
      intro s hs
      exact ⟨.of_touches rfl hs, fun agg hsome => nomatch hagg.symm.trans hsome⟩
  | some agg =>
      have hat := h agg hagg
      unfold changeRow
      simp only [hagg, reduceCtorEq, if_false]
      apply (loaded_inStep mp m b xid).bind
      rintro saw ⟨hseeded, rfl⟩
      cases hsaw : mp.saw xid b.measure with
      | true =>
          rw [if_pos hsaw] at htook
          subst htook
          exact ⟨.refl _ _ _ _, fun agg' hagg' => Option.some.inj (hagg.symm.trans hagg') ▸ hat⟩
      | false =>
          rw [if_neg (by simp [hsaw])] at htook
          have hkeeps : (mp.folder describe m rel b agg).Keeps cal m rows'
              (foldRow cal mp.items (textCmp (mp.collations.get? b.measure)) (describe rel) b old
                new (mp.foldsOf b.measure, m, touched)) :=
            Folder.foldRow_keeps hlawful hagg (hat.typed hseeded) (hat.folded hseeded) htook
          apply (keeps_outcome hkeeps).bind
          intro s hs
          refine ⟨⟨⟨rfl, rfl, rfl, rfl⟩, hs.2.rest, ?_, ?_⟩, ?_⟩
          · intro measure hmeasure
            rw [SortedMap.get?_insert, if_neg fun heq => hmeasure (List.mem_singleton.mpr heq)]
          · intro k hk
            exact hs.2.others k fun heq => hk (List.mem_singleton.mpr heq)
          · intro agg' hagg'
            obtain rfl : agg = agg' := Option.some.inj (hagg.symm.trans hagg')
            refine hat.set hs.2.rest hseeded hs.1 ?_
            rw [SortedMap.get?_insert_self]
            rfl

/-- TRUNCATE through a binding leads its folds to those of no rows. -/
theorem truncateBinding_leads (htook : rows' = if mp.saw xid b.measure then rows else [])
    (h : ∀ agg, b.agg = some agg → FoldAt cal describe mp m rel b agg rows) :
    Leads cal describe mp m rel b rows' (truncateBinding replay xid b (mp, m, touched)) := by
  unfold truncateBinding
  cases hagg : b.agg with
  | none =>
      simp only [ne_eq, not_true_eq_false, if_false]
      split
      · exact (by decide : (⟨"truncate"⟩ : Rebuild) ≠ outOfStep)
      · exact ⟨.of_touches rfl (clear_touches m touched b.measure),
          fun agg hsome => nomatch hagg.symm.trans hsome⟩
  | some agg =>
      have hat := h agg hagg
      simp only [ne_eq, reduceCtorEq, not_false_eq_true, if_true]
      apply (loaded_inStep mp m b xid).bind
      rintro saw ⟨hseeded, rfl⟩
      cases hsaw : mp.saw xid b.measure with
      | true =>
          rw [if_pos hsaw] at htook
          subst htook
          exact ⟨.refl _ _ _ _, fun agg' hagg' => Option.some.inj (hagg.symm.trans hagg') ▸ hat⟩
      | false =>
          rw [if_neg (by simp [hsaw])] at htook
          subst htook
          have htouches := clear_touches m touched b.measure
          refine ⟨⟨⟨rfl, rfl, rfl, rfl⟩, htouches.rest, ?_, ?_⟩, ?_⟩
          · intro measure hmeasure
            rw [SortedMap.get?_erase, if_neg fun heq => hmeasure (List.mem_singleton.mpr heq)]
          · intro k hk
            exact htouches.others k fun heq => hk (List.mem_singleton.mpr heq)
          · intro agg' hagg'
            obtain rfl : agg = agg' := Option.some.inj (hagg.symm.trans hagg')
            refine hat.set htouches.rest hseeded ?_ rfl
            rw [SortedMap.get?_erase, if_pos rfl]
            refine ⟨fun t ht => absurd ht List.not_mem_nil, fun c f hf => ?_, fun c _ => rfl, ?_⟩
            · cases hf
            · intro c
              rw [get?_clear]
              exact if_pos rfl

/-! ## The bindings of a relation -/

/-- A step through each of some bindings of different measures. -/
theorem leads_foldlM {f : State → Binding → Except Rebuild State} {bs : List Binding}
    (hbs : (bs.map Binding.measure).Nodup) {rows rows' : Binding → List Tuple}
    (hf : ∀ b ∈ bs, ∀ mp' m touched, SameNames mp mp' →
      (∀ agg, b.agg = some agg → FoldAt cal describe mp' m rel b agg (rows b)) →
        Leads cal describe mp' m rel b (rows' b) (f (mp', m, touched) b))
    (h : ∀ b ∈ bs, ∀ agg, b.agg = some agg → FoldAt cal describe mp m rel b agg (rows b)) :
    Outcome (fun s => Within (bs.map Binding.measure) mp m s ∧
      ∀ b ∈ bs, ∀ agg, b.agg = some agg → FoldAt cal describe s.1 s.2.1 rel b agg (rows' b))
      InStep (bs.foldlM f (mp, m, touched)) := by
  induction bs generalizing mp m touched with
  | nil => exact ⟨.refl _ _ _ _, fun b hb => absurd hb List.not_mem_nil⟩
  | cons b bs ih =>
      rw [List.map_cons, List.nodup_cons] at hbs
      rw [List.foldlM_cons]
      apply (hf b List.mem_cons_self mp m touched (.refl mp) (h b List.mem_cons_self)).bind
      rintro ⟨mp1, m1, touched1⟩ ⟨hw, hb⟩
      have hne : ∀ c ∈ bs, c.measure ∉ [b.measure] := by
        intro c hc hmem
        exact hbs.1 (List.mem_singleton.mp hmem ▸ List.mem_map_of_mem hc)
      refine Outcome.mono (ih hbs.2 ?_ ?_) ?_
      · intro c hc mp' m' touched' hnames
        exact hf c (List.mem_cons_of_mem b hc) mp' m' touched' (hw.names.trans hnames)
      · intro c hc agg hagg
        exact (h c (List.mem_cons_of_mem b hc) agg hagg).frame hw (hne c hc)
      · rintro s ⟨hrest, hbs'⟩
        refine ⟨hw.trans hrest, ?_⟩
        intro c hc agg hagg
        rcases List.mem_cons.mp hc with rfl | hc
        · exact (hb agg hagg).frame hrest hbs.1
        · exact hbs' c hc agg hagg

/-! ## Changes -/

variable {T T' : Tables} {frozen : MeasureId → Tables}

/-- The tables that each measure's folds stand for: those its seed saw, while
it skips the transaction under way, else those that the changes led to. -/
def behind (mp : Mapper) (xid : UInt32) (frozen : MeasureId → Tables) (T : Tables)
    (measure : MeasureId) : Tables :=
  if mp.saw xid measure then frozen measure else T

/-- Every aggregated binding's folds are those of the rows they stand for. -/
def FoldsFollow (cal : Calendar) (describe : Nat → Relation) (mp : Mapper) (m : Model)
    (standing : MeasureId → Tables) : Prop :=
  ∀ rel, ∀ b ∈ mp.bound rel, ∀ agg, b.agg = some agg →
    FoldAt cal describe mp m rel b agg (standing b.measure rel)

/-- What a mapper needs to follow its tables: each measure bound once, and
texts compared in order. -/
structure Ordered (mp : Mapper) : Prop where
  once : ((allBound mp.bindings).map fun p => p.2.measure).Nodup
  lawful : ∀ measure, Lawful (textCmp (mp.collations.get? measure))

/-- A step of the mapper that leads its folds to other rows. -/
structure Followed (cal : Calendar) (describe : Nat → Relation) (mp : Mapper) (m : Model)
    (standing : MeasureId → Tables) (s : State) : Prop where
  names : SameNames mp s.1
  rest : s.2.1 = { m with inputs := s.2.1.inputs }
  folds : FoldsFollow cal describe s.1 s.2.1 standing

theorem Ordered.of_sameNames {mp' : Mapper} (h : Ordered mp) (hnames : SameNames mp mp') :
    Ordered mp' := ⟨hnames.bindings ▸ h.once, hnames.collations ▸ h.lawful⟩

theorem Ordered.injective (h : Ordered mp) {q : Nat} {c : Binding} (hb : b ∈ mp.bound rel)
    (hc : c ∈ mp.bound q) (heq : b.measure = c.measure) : rel = q ∧ b = c :=
  Prod.mk.inj (List.inj_on_of_nodup_map h.once (mem_allBound_iff.mpr hb) (mem_allBound_iff.mpr hc)
    heq)

theorem Ordered.nodup (h : Ordered mp) (rel : Nat) :
    ((mp.bound rel).map Binding.measure).Nodup := by
  have hsub : ((mp.bound rel).map fun b => (rel, b)).Sublist (allBound mp.bindings) := by
    unfold bound
    cases hget : mp.bindings.get? rel with
    | none => exact List.nil_sublist _
    | some bs =>
        unfold allBound
        rw [List.flatMap_def]
        apply List.sublist_flatten_of_mem
        exact List.mem_map.mpr ⟨(rel, bs), SortedMap.get?_eq_some_iff.mp hget, rfl⟩
  have hnodup := (hsub.map fun p => p.2.measure).nodup h.once
  rw [List.map_map] at hnodup
  exact hnodup

/-- One relation's bindings led to other rows, the other relations' left. -/
theorem followed_of_foldlM {f : State → Binding → Except Rebuild State}
    {standing standing' : MeasureId → Tables} (ho : Ordered mp)
    (hothers : ∀ measure q, q ≠ rel → standing' measure q = standing measure q)
    (hf : ∀ b ∈ mp.bound rel, ∀ mp' m touched, SameNames mp mp' →
      (∀ agg, b.agg = some agg →
        FoldAt cal describe mp' m rel b agg (standing b.measure rel)) →
        Leads cal describe mp' m rel b (standing' b.measure rel) (f (mp', m, touched) b))
    (h : FoldsFollow cal describe mp m standing) :
    Outcome (Followed cal describe mp m standing') InStep
      ((mp.bound rel).foldlM f (mp, m, touched)) := by
  apply (leads_foldlM (ho.nodup rel) hf (h rel)).mono
  rintro s ⟨hw, hs⟩
  refine ⟨hw.names, hw.rest, ?_⟩
  intro q b hb agg hagg
  have hbound : b ∈ mp.bound q := by
    unfold bound at hb ⊢
    rw [hw.names.bindings]
    exact hb
  by_cases hq : q = rel
  · subst hq
    exact hs b hbound agg hagg
  · rw [hothers b.measure q hq]
    apply (h q b hbound agg hagg).frame hw
    intro hmem
    obtain ⟨c, hc, heq⟩ := List.mem_map.mp hmem
    exact hq (ho.injective hc hbound heq).1.symm

theorem Followed.refl {standing : MeasureId → Tables}
    (h : FoldsFollow cal describe mp m standing) (touched : Touched) :
    Followed cal describe mp m standing (mp, m, touched) := ⟨.refl mp, rfl, h⟩

theorem Followed.trans {standing standing' : MeasureId → Tables} {s s' : State}
    (h : Followed cal describe mp m standing s)
    (h' : Followed cal describe s.1 s.2.1 standing' s') :
    Followed cal describe mp m standing' s' := by
  refine ⟨h.names.trans h'.names, ?_, h'.folds⟩
  rw [h'.rest, h.rest]

theorem saw_sameNames {mp' : Mapper} (hnames : SameNames mp mp') (measure : MeasureId) :
    mp'.saw xid measure = mp.saw xid measure := by
  unfold saw
  rw [hnames.seeded]

theorem behind_sameNames {mp' : Mapper} (hnames : SameNames mp mp') :
    mp'.behind xid frozen T = mp.behind xid frozen T := by
  ext measure : 1
  unfold behind
  rw [saw_sameNames hnames]

/-- A row change of one relation leads every binding's folds on. -/
theorem changeRel_follows (hrels : Described rels describe) (ho : Ordered mp)
    {old : Option (Option Tuple)} {new : Option Tuple}
    (htook : Folder.RowTook (describe rel) old new (T rel) (T' rel))
    (hT : ∀ q, q ≠ rel → T' q = T q)
    (h : FoldsFollow cal describe mp m (mp.behind xid frozen T)) :
    Outcome (Followed cal describe mp m (mp.behind xid frozen T')) InStep
      (changeRel cal rels replay xid rel old new (mp, m, touched)) := by
  have hothers : ∀ measure q, q ≠ rel →
      mp.behind xid frozen T' measure q = mp.behind xid frozen T measure q := by
    intro measure q hq
    unfold behind
    split
    · rfl
    · exact hT q hq
  unfold changeRel
  cases hbs : mp.bindings.get? rel with
  | none =>
      refine Followed.refl ?_ touched
      intro q b hb agg hagg
      have hq : q ≠ rel := by
        rintro rfl
        unfold bound at hb
        rw [hbs] at hb
        cases hb
      rw [hothers b.measure q hq]
      exact h q b hb agg hagg
  | some bs =>
      dsimp only
      cases hr : rels.get? rel with
      | none => exact (by decide : (⟨"undescribed relation"⟩ : Rebuild) ≠ outOfStep)
      | some r =>
          obtain rfl : describe rel = r := (hrels rel r hr).symm
          have hbound : mp.bound rel = bs := by
            unfold bound
            rw [hbs]
            rfl
          rw [← hbound]
          refine followed_of_foldlM ho hothers ?_ h
          intro b _ mp' m' touched' hnames hb
          refine changeRow_leads (hnames.collations ▸ ho.lawful b.measure) ?_ hb
          rw [saw_sameNames hnames]
          unfold behind
          split
          · rfl
          · exact htook

theorem truncate_follows (ho : Ordered mp) (hT : ∀ q, T' q = if q = rel then [] else T q)
    (h : FoldsFollow cal describe mp m (mp.behind xid frozen T)) :
    Outcome (Followed cal describe mp m (mp.behind xid frozen T')) InStep
      (truncate replay xid (mp, m, touched) rel) := by
  refine followed_of_foldlM ho ?_ ?_ h
  · intro measure q hq
    unfold behind
    split
    · rfl
    · rw [hT, if_neg hq]
  · intro b _ mp' m' touched' hnames hb
    refine truncateBinding_leads ?_ hb
    rw [saw_sameNames hnames]
    unfold behind
    split
    · rfl
    · rw [hT, if_pos rfl]

theorem truncates_follow {gone : List Nat} (ho : Ordered mp)
    (hT : ∀ q, T' q = if q ∈ gone then [] else T q)
    (h : FoldsFollow cal describe mp m (mp.behind xid frozen T)) :
    Outcome (Followed cal describe mp m (mp.behind xid frozen T')) InStep
      (gone.foldlM (truncate replay xid) (mp, m, touched)) := by
  induction gone generalizing mp m T touched with
  | nil =>
      have heq : T' = T := funext fun q => by rw [hT, if_neg List.not_mem_nil]
      rw [heq]
      exact .refl h touched
  | cons rel gone ih =>
      rw [List.foldlM_cons]
      refine Outcome.bind (truncate_follows ho (fun _ => rfl) h) ?_
      rintro ⟨mp1, m1, touched1⟩ h1
      refine Outcome.mono (ih (ho.of_sameNames h1.names) ?_
        (behind_sameNames h1.names ▸ h1.folds)) ?_
      · intro q
        rw [hT]
        by_cases hq : q = rel
        · simp [hq]
        · simp [hq]
      · intro s hs
        exact h1.trans (behind_sameNames h1.names ▸ hs)

/-- One decoded change leads every binding's folds on. -/
theorem change_follows (hrels : Described rels describe) (ho : Ordered mp) {c : Message}
    (htook : Took describe T T' c)
    (h : FoldsFollow cal describe mp m (mp.behind xid frozen T)) :
    Outcome (Followed cal describe mp m (mp.behind xid frozen T')) InStep
      (change cal rels replay xid (mp, m, touched) c) := by
  cases c with
  | insert rel new =>
      obtain ⟨row, hsent, hperm, hT⟩ := htook
      exact changeRel_follows hrels ho ⟨row, hsent, hperm⟩ hT h
  | update rel old new =>
      obtain ⟨before, after, rest, hsent, hold, hperm, hperm', hT⟩ := htook
      exact changeRel_follows hrels ho ⟨before, after, rest, hsent, hold, hperm, hperm'⟩ hT h
  | delete rel old =>
      obtain ⟨row, rest, hold, hperm, hperm', hT⟩ := htook
      exact changeRel_follows hrels ho ⟨row, rest, hold, hperm, hperm'⟩ hT h
  | truncate gone => exact truncates_follow ho htook h
  | control =>
      obtain rfl : T' = T := htook
      exact .refl h touched

/-- The tables before and after some changes. -/
def Passed (describe : Nat → Relation) : List Message → Tables → Tables → Prop
  | [], T, T' => T' = T
  | c :: cs, T, T' => ∃ T1, Took describe T T1 c ∧ Passed describe cs T1 T'

theorem changes_follow (hrels : Described rels describe) (ho : Ordered mp) {cs : List Message}
    (hpassed : Passed describe cs T T')
    (h : FoldsFollow cal describe mp m (mp.behind xid frozen T)) :
    Outcome (Followed cal describe mp m (mp.behind xid frozen T')) InStep
      (cs.foldlM (change cal rels replay xid) (mp, m, touched)) := by
  induction cs generalizing mp m T touched with
  | nil =>
      obtain rfl : T' = T := hpassed
      exact .refl h touched
  | cons c cs ih =>
      obtain ⟨T1, htook, hpassed⟩ := hpassed
      rw [List.foldlM_cons]
      refine Outcome.bind (change_follows hrels ho htook h) ?_
      rintro ⟨mp1, m1, touched1⟩ h1
      refine Outcome.mono (ih (ho.of_sameNames h1.names) hpassed
        (behind_sameNames h1.names ▸ h1.folds)) ?_
      intro s hs
      exact h1.trans (behind_sameNames h1.names ▸ hs)

end Mapper

end Improv.PgModel
