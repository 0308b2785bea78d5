import Improv.PgModel.Writes
/-!
# Transactions mapped again

A load may already hold transactions the slot has yet to deliver; mapped again
they write their cells once more.  The cells end as loaded where no cell that
has a value was last taken away.
-/

namespace Improv.PgModel

open Improv.Lib Improv.CoreModel Improv.Engine

/-! ## What the last write tells -/

section Told

variable {cal : Calendar} {read : Loader} {items : Items} {r : Relation} {b : Binding}
  {vt : ValueType} {old : Option (Option Tuple)} {new : Option Tuple} {k : Coordinate} {v : Value}

theorem lastValue_taken (o : Option Coordinate) (k : Coordinate) :
    WriteBatch.lastValue (o.toList.map fun c => ((⟨b.measure, c⟩ : Cell), (none : Option Value)))
      ⟨b.measure, k⟩ = if o = some k then some none else none := by
  cases o with
  | none => rfl
  | some c =>
      unfold WriteBatch.lastValue
      rw [Option.toList_some, List.map_singleton, WriteBatch.valuesOf_cons]
      by_cases hc : c = k
      · simp [hc]
      · simp [hc]

theorem lastValue_put (o : Option (Coordinate × Value)) (k : Coordinate) :
    WriteBatch.lastValue (o.toList.map fun p => ((⟨b.measure, p.1⟩ : Cell), some p.2))
      ⟨b.measure, k⟩ = (o.filter fun p => p.1 = k).map fun p => some p.2 := by
  cases o with
  | none => rfl
  | some p =>
      unfold WriteBatch.lastValue
      rw [Option.toList_some, List.map_singleton, WriteBatch.valuesOf_cons]
      by_cases hp : p.1 = k
      · simp [hp, Option.filter]
      · simp [hp, Option.filter]

/-- A value last written is the new row's. -/
theorem putAt_of_lastValue
    (h : WriteBatch.lastValue (rowWrites cal items r b vt old new) ⟨b.measure, k⟩ =
      some (some v)) : putAt cal items r b vt new = some (k, v) := by
  unfold rowWrites at h
  rw [WriteBatch.lastValue_append, lastValue_put, lastValue_taken] at h
  cases hput : putAt cal items r b vt new with
  | none =>
      rw [hput] at h
      split at h <;> cases h
  | some p =>
      rw [hput] at h
      by_cases hp : p.1 = k
      · simp only [Option.filter, hp, decide_true, if_true, Option.map_some, Option.some_or,
          Option.some.injEq] at h
        rw [← h, ← hp]
      · simp only [Option.filter, hp, decide_false, Bool.false_eq_true, if_false, Option.map_none,
          Option.none_or] at h
        split at h <;> cases h

/-- Where nothing is written, no old row is taken from. -/
theorem takenFrom_of_lastValue
    (h : WriteBatch.lastValue (rowWrites cal items r b vt old new) ⟨b.measure, k⟩ = none) :
    takenFrom cal items r b vt (oldRow r b old new).toOption.join ≠ some k := by
  intro htaken
  unfold rowWrites at h
  rw [WriteBatch.lastValue_append, lastValue_taken, if_pos htaken] at h
  rw [Option.or_eq_none_iff] at h
  cases h.2

theorem toOption_join_eq_some_iff {ε α : Type} {x : Except ε (Option α)} {a : α} :
    x.toOption.join = some a ↔ x = .ok (some a) := by
  cases x with
  | error e => simp [Except.toOption]
  | ok o => simp [Except.toOption]

/-- The row a change puts has the cell it writes. -/
theorem rowCell_of_putAt (ag : read.Agrees cal) {t stored : Tuple} (hsent : Sent t stored)
    (h : putAt cal items r b vt (some t) = some (k, v)) :
    rowCell cal items b.cats (read r b vt stored) = some (k, v) := by
  unfold putAt at h
  dsimp only at h
  split at h
  · rename_i c w hc hw
    rw [Option.some.injEq, Prod.mk.injEq] at h
    obtain ⟨rfl, rfl⟩ := h
    rw [toOption_join_eq_some_iff] at hc hw
    obtain ⟨_, hcoord⟩ := coord_read ag vt hc fun d _ x hx => dimName_of_sent hsent hx
    obtain ⟨hvalue, _⟩ := value_read ag (value_of_sent hsent hw)
    rcases hcoord with ⟨hnone, _⟩ | ⟨ns, k', hnames, heq, hk⟩
    · cases hnone
    · cases heq
      unfold rowCell
      rw [hnames, hvalue]
      simp only [hk, Option.map_some]
  · cases h

/-- An old row's cell is where the change takes it from. -/
theorem takenFrom_of_rowCell (ag : read.Agrees cal) {t stored : Tuple} {known : Bool}
    {m m' : Model} {touched touched' : Touched}
    (hdims : ∀ d ∈ b.dims, ∀ y, dimName r d.2 t = .ok y → dimName r d.2 stored = .ok y)
    (hwhole : known = true → Sent t stored)
    (h : retract cal items r b vt (some (t, known)) m touched = .ok (m', touched'))
    (hcell : rowCell cal items b.cats (read r b vt stored) = some (k, v)) :
    takenFrom cal items r b vt (some (t, known)) = some k := by
  unfold retract at h
  simp only [bind_eq_ok_iff] at h
  obtain ⟨c, hc, h⟩ := h
  obtain ⟨_, hcoord⟩ := coord_read ag vt hc hdims
  rcases hcoord with ⟨_, hnames⟩ | ⟨ns, k', hnames, rfl, hk⟩
  · unfold rowCell at hcell
    rw [hnames] at hcell
    cases hcell
  · have hread : (read r b vt stored).2.bind (toValue cal) = some v ∧ k' = k := by
      unfold rowCell at hcell
      rw [hnames] at hcell
      cases hv : (read r b vt stored).2.bind (toValue cal) with
      | none =>
          rw [hv] at hcell
          cases hcell
      | some w =>
          rw [hv] at hcell
          simp only [hk, Option.map_some, Option.some.injEq, Prod.mk.injEq] at hcell
          exact ⟨congrArg some hcell.2, hcell.1⟩
    obtain ⟨hvalue, rfl⟩ := hread
    cases known with
    | false => exact toOption_join_eq_some_iff.mpr hc
    | true =>
        simp only [if_true, bind_eq_ok_iff] at h
        obtain ⟨gone, hgone, _⟩ := h
        cases hv : value cal r b t vt with
        | error e =>
            rw [hv] at hgone
            cases hgone
        | ok w =>
            obtain ⟨hvalue', _⟩ := value_read ag (value_of_sent (hwhole rfl) hv)
            rw [hvalue] at hvalue'
            subst hvalue'
            unfold takenFrom
            simp only [hv]
            exact toOption_join_eq_some_iff.mpr hc

end Told

/-! ## The tables behind the writes -/

namespace Mapper

variable {cal : Calendar} {rels : SortedMap Nat Relation} {xid : UInt32} {mp : Mapper}
  {m : Model} {touched : Touched} {s' : State}

variable {read : Loader} {describe : Nat → Relation} {T T' : Tables} {rel : Nat} {b : Binding}
  {k : Coordinate} {v : Value}

/-- Whether a row of a relation has a value at a coordinate. -/
def HasCell (cal : Calendar) (read : Loader) (describe : Nat → Relation) (items : Items)
    (m : Model) (rel : Nat) (b : Binding) (k : Coordinate) (v : Value) (stored : Tuple) : Prop :=
  rowCell cal items b.cats (read (describe rel) b (vtOf m b) stored) = some (k, v)

/-- What some writes tell of tables before and after: a value last written is a
row's after, and where nothing is written a row with a value stays. -/
def Tells (cal : Calendar) (read : Loader) (describe : Nat → Relation) (items : Items) (m : Model)
    (T T' : Tables) (rel : Nat) (b : Binding) (ws : List (Cell × Option Value)) : Prop :=
  ∀ k v, (WriteBatch.lastValue ws ⟨b.measure, k⟩ = some (some v) →
      ∃ u ∈ T' rel, HasCell cal read describe items m rel b k v u) ∧
    (WriteBatch.lastValue ws ⟨b.measure, k⟩ = none →
      ∀ u ∈ T rel, HasCell cal read describe items m rel b k v u → u ∈ T' rel)

theorem Tells.append {T1 : Tables} {items : Items} {ws vs : List (Cell × Option Value)}
    (h : Tells cal read describe items m T T1 rel b ws)
    (h' : Tells cal read describe items m T1 T' rel b vs) :
    Tells cal read describe items m T T' rel b (ws ++ vs) := by
  intro k v
  rw [WriteBatch.lastValue_append]
  cases hlast : WriteBatch.lastValue vs ⟨b.measure, k⟩ with
  | some w =>
      rw [Option.some_or]
      refine ⟨fun heq => ?_, fun hnone => by cases hnone⟩
      rw [Option.some.injEq] at heq
      rw [heq] at hlast
      exact (h' k v).1 hlast
  | none =>
      rw [Option.none_or]
      constructor
      · intro heq
        obtain ⟨u, hu, hcell⟩ := (h k v).1 heq
        exact ⟨u, (h' k v).2 hlast u hu hcell, hcell⟩
      · intro hnone u hu hcell
        exact (h' k v).2 hlast u ((h k v).2 hnone u hu hcell) hcell

theorem Tells.nil {items : Items} (h : ∀ u ∈ T rel, u ∈ T' rel) :
    Tells cal read describe items m T T' rel b [] :=
  fun _ _ => ⟨fun heq => (by cases heq), fun _ u hu _ => h u hu⟩

/-- A row taken out and a row put in, told by a change's writes. -/
theorem tells_of_rows {items : Items} {old : Option (Option Tuple)} {new : Option Tuple}
    (before after : Option Tuple) {rest : List Tuple}
    (hT : (T rel).Perm (before.toList ++ rest)) (hT' : (T' rel).Perm (after.toList ++ rest))
    (hbefore : ∀ u k v, before = some u → HasCell cal read describe items m rel b k v u →
      takenFrom cal items (describe rel) b (vtOf m b)
        (oldRow (describe rel) b old new).toOption.join = some k)
    (hafter : ∀ k v, putAt cal items (describe rel) b (vtOf m b) new = some (k, v) →
      ∃ u, after = some u ∧ HasCell cal read describe items m rel b k v u) :
    Tells cal read describe items m T T' rel b
      (rowWrites cal items (describe rel) b (vtOf m b) old new) := by
  intro k v
  constructor
  · intro hlast
    obtain ⟨u, hu, hcell⟩ := hafter k v (putAt_of_lastValue hlast)
    refine ⟨u, hT'.mem_iff.mpr ?_, hcell⟩
    rw [hu]
    exact List.mem_cons_self
  · intro hlast u hu hcell
    rcases List.mem_append.mp (hT.mem_iff.mp hu) with hmem | hmem
    · exact absurd (hbefore u k v (Option.mem_toList.mp hmem) hcell) (takenFrom_of_lastValue hlast)
    · exact hT'.mem_iff.mpr (List.mem_append_right _ hmem)

/-- One row change's writes tell of its rows. -/
theorem row_tells (ag : read.Agrees cal) {items : Items} {m1 m' : Model}
    {touched touched' : Touched} (hvt : vtOf m1 b = vtOf m b) {c : Message}
    {old : Option (Option Tuple)} {new : Option Tuple}
    (hchange : c = .insert rel (new.getD []) ∧ old = none ∧ new ≠ none ∨
      (∃ o, c = .update rel o (new.getD []) ∧ old = some o ∧ new ≠ none) ∨
      ∃ o, c = .delete rel o ∧ old = some (some o) ∧ new = none)
    (htook : Took describe T T' c)
    (h : row cal items (describe rel) b old new true m1 touched = .ok (m', touched')) :
    Tells cal read describe items m T T' rel b
      (rowWrites cal items (describe rel) b (vtOf m b) old new) := by
  obtain ⟨vt, o, m2, touched2, hm1, ho, hretract, _⟩ := row_cases h
  obtain rfl : vt = vtOf m b := (vtOf_of_valueType hm1).symm.trans hvt
  have holds : (oldRow (describe rel) b old new).toOption.join = o := by
    rw [ho]
    rfl
  rcases hchange with ⟨rfl, rfl, hnew⟩ | ⟨o', rfl, rfl, hnew⟩ | ⟨o', rfl, rfl, rfl⟩
  · obtain ⟨t, rfl⟩ := Option.ne_none_iff_exists'.mp hnew
    obtain ⟨stored, hsent, hT', _⟩ := htook
    refine tells_of_rows none (some stored) (.refl _) hT' ?_ ?_
    · intro u k v hu
      cases hu
    · exact fun k v hput => ⟨stored, rfl, rowCell_of_putAt ag hsent hput⟩
  · obtain ⟨t, rfl⟩ := Option.ne_none_iff_exists'.mp hnew
    obtain ⟨before, after, rest, hsent, hold, hT, hT', _⟩ := htook
    obtain ⟨t', known, rfl, hdims, hwhole, _⟩ := oldRow_sent ho hold
      (fun t' ht' => by cases ht'; exact hsent) (fun _ => by simp)
    refine tells_of_rows (some before) (some after) hT hT' ?_ ?_
    · intro u k v hu hcell
      cases hu
      rw [holds]
      exact takenFrom_of_rowCell ag hdims hwhole hretract hcell
    · exact fun k v hput => ⟨after, rfl, rowCell_of_putAt ag hsent hput⟩
  · obtain ⟨stored, rest, hold, hT, hT', _⟩ := htook
    obtain ⟨t', known, rfl, hdims, hwhole, _⟩ := oldRow_sent ho hold
      (fun t' ht' => by cases ht') (fun hnone => by cases hnone)
    refine tells_of_rows (some stored) none hT hT' ?_ ?_
    · intro u k v hu hcell
      cases hu
      rw [holds]
      exact takenFrom_of_rowCell ag hdims hwhole hretract hcell
    · intro k v hput
      cases hput

/-- The writes of another measure's binding tell nothing of this one's. -/
theorem lastValue_rowWrites_of_ne {items : Items} {r : Relation} {d : Binding} {vt : ValueType}
    {old : Option (Option Tuple)} {new : Option Tuple} (hne : d.measure ≠ b.measure) :
    WriteBatch.lastValue (rowWrites cal items r d vt old new) ⟨b.measure, k⟩ = none := by
  rw [WriteBatch.lastValue_eq_none_iff]
  unfold rowWrites
  rw [List.map_append, List.map_map, List.map_map, List.mem_append, not_or]
  constructor
  · intro hmem
    obtain ⟨c, _, heq⟩ := List.mem_map.mp hmem
    exact hne (Cell.mk.inj heq).1
  · intro hmem
    obtain ⟨p, _, heq⟩ := List.mem_map.mp hmem
    exact hne (Cell.mk.inj heq).1

theorem Tells.congr {items : Items} {ws vs : List (Cell × Option Value)}
    (h : Tells cal read describe items m T T' rel b vs)
    (heq : ∀ k, WriteBatch.lastValue ws ⟨b.measure, k⟩ =
      WriteBatch.lastValue vs ⟨b.measure, k⟩) :
    Tells cal read describe items m T T' rel b ws := by
  intro k v
  rw [heq]
  exact h k v

/-- A step of a replayed change keeps the mapper and the measures. -/
theorem changeRow_frame (hagg : ∀ rel, ∀ b ∈ mp.bound rel, b.agg = none) {r : Relation}
    {old : Option (Option Tuple)} {new : Option Tuple} {bs : List Binding}
    (hbs : bs = mp.bound rel) {s' : State}
    (h : bs.foldlM (fun s b => changeRow cal r old new true xid b s) (mp, m, touched) = .ok s')
    (hb : b ∈ bs) :
    ∃ m1 m2 touched1 touched2, m1.measures = m.measures ∧
      row cal mp.items r b old new true m1 touched1 = .ok (m2, touched2) := by
  subst hbs
  have hstep : ∀ (s : State) d s', (s.1 = mp ∧ s.2.1.measures = m.measures) →
      d ∈ mp.bound rel → changeRow cal r old new true xid d s = .ok s' →
      (s'.1 = mp ∧ s'.2.1.measures = m.measures) ∧
        row cal mp.items r d old new true s.2.1 s.2.2 = .ok s'.2 := by
    intro s d s' hs hd hstep
    rcases changeRow_cases hstep with ⟨_, hmp, hrow⟩ | ⟨hsome, _⟩ | ⟨hsome, _⟩
    · rw [hs.1] at hrow
      refine ⟨⟨hmp.trans hs.1, ?_⟩, hrow⟩
      rw [row_written (show row cal mp.items r d old new true s.2.1 s.2.2 =
        .ok (s'.2.1, s'.2.2) from hrow)]
      exact hs.2
    · exact absurd (hagg rel d hd) hsome
    · exact absurd (hagg rel d hd) hsome
  obtain ⟨s, s1, hs, hrow⟩ := foldlM_exists_step (P := fun s : State => s.1 = mp ∧
    s.2.1.measures = m.measures) (fun s d s1 hd hs h => (hstep s d s1 hs hd h).1) ⟨rfl, rfl⟩ h hb
  exact ⟨s.2.1, s1.2.1, s.2.2, s1.2.2, hs.2, (hstep s b s1 hs hb hrow).2⟩

/-- One replayed change's writes tell of the tables. -/
theorem change_tells (ag : read.Agrees cal) (hrels : Described rels describe)
    (hplain : Plain mp.bindings) {m1 : Model} (hm1 : m1.measures = m.measures) {c : Message}
    (htook : Took describe T T' c) (h : change cal rels true xid (mp, m1, touched) c = .ok s')
    (hb : b ∈ mp.bound rel) :
    Tells cal read describe mp.items m T T' rel b (writes cal mp m rels c) := by
  have hrel : ∀ {rel' old new}, changeRel cal rels true xid rel' old new (mp, m1, touched) =
      .ok s' → (c = .insert rel' (new.getD []) ∧ old = none ∧ new ≠ none ∨
        (∃ o, c = .update rel' o (new.getD []) ∧ old = some o ∧ new ≠ none) ∨
        ∃ o, c = .delete rel' o ∧ old = some (some o) ∧ new = none) →
      (∀ q, q ≠ rel' → T' q = T q) →
      Tells cal read describe mp.items m T T' rel b (relWrites cal mp m rels rel' old new) := by
    intro rel' old new h hchange hT
    unfold relWrites
    by_cases hne : rel' = rel
    · subst hne
      unfold changeRel at h
      have hbound : mp.bindings.get? rel' = some (mp.bound rel') := by
        unfold bound at hb ⊢
        cases hbs : mp.bindings.get? rel' with
        | none =>
            rw [hbs] at hb
            cases hb
        | some bs => rfl
      simp only [hbound] at h
      cases hr : rels.get? rel' with
      | none => simp [hr] at h
      | some r =>
          simp only [hr] at h ⊢
          have hdescribe := hrels rel' r hr
          subst hdescribe
          obtain ⟨m2, m3, touched2, touched3, hm2, hrow⟩ :=
            changeRow_frame hplain.agg rfl h hb
          have hvt : vtOf m2 b = vtOf m b := by
            unfold vtOf
            rw [hm2, hm1]
          refine (row_tells ag hvt hchange htook hrow).congr fun k => ?_
          apply WriteBatch.lastValue_flatMap_of_mem (List.Nodup.of_map _ (hplain.nodup rel')) hb
          intro d hd hdb
          apply lastValue_rowWrites_of_ne
          intro heq
          exact hdb (hplain.measure_injective hd hb heq).2
    · refine (Tells.nil fun u hu => by rw [hT rel (Ne.symm hne)]; exact hu).congr fun k => ?_
      cases hr : rels.get? rel' with
      | none => rfl
      | some r =>
          change _ = none
          rw [WriteBatch.lastValue_eq_none_iff, List.map_flatMap, List.mem_flatMap]
          intro hmem
          obtain ⟨d, hd, hmem⟩ := hmem
          refine WriteBatch.lastValue_eq_none_iff.mp (lastValue_rowWrites_of_ne ?_) hmem
          intro heq
          exact hne (hplain.measure_injective hd hb heq).1
  cases c with
  | insert rel' new =>
      obtain ⟨_, _, _, hT⟩ := htook
      exact hrel h (.inl ⟨rfl, rfl, Option.some_ne_none new⟩) hT
  | update rel' old new =>
      obtain ⟨_, _, _, _, _, _, _, hT⟩ := htook
      exact hrel h (.inr (.inl ⟨old, rfl, rfl, Option.some_ne_none new⟩)) hT
  | delete rel' old =>
      obtain ⟨_, _, _, _, _, hT⟩ := htook
      exact hrel h (.inr (.inr ⟨old, rfl, rfl, rfl⟩)) hT
  | truncate gone =>
      -- The relation is not one of those emptied, which would ask for a rebuild.
      have hnot : rel ∉ gone := by
        intro hmem
        obtain ⟨s1, s2, hs1, hstep⟩ := foldlM_exists_step
          (P := fun s : State => SameNames mp s.1)
          (fun s rel s' _ hs hstep => hs.trans
            (foldlM_sameNames (fun _ _ _ h => truncateBinding_sameNames h) hstep))
          (.refl mp) h hmem
        have hb1 : b ∈ s1.1.bound rel := by
          unfold bound at hb ⊢
          rw [← hs1.bindings]
          exact hb
        obtain ⟨_, _, _, hstep⟩ := foldlM_exists_step (P := fun _ : State => True)
          (fun _ _ _ _ _ _ => trivial) trivial hstep hb1
        rcases truncateBinding_cases hstep with ⟨_, hfalse, _⟩ | ⟨hsome, _⟩ | ⟨hsome, _⟩
        · cases hfalse
        · exact hsome (hplain.agg rel b hb)
        · exact hsome (hplain.agg rel b hb)
      refine Tells.nil fun u hu => ?_
      have hT : T' rel = T rel := by rw [htook rel, if_neg hnot]
      rw [hT]
      exact hu
  | control =>
      rw [show T' = T from htook]
      exact Tells.nil fun _ hu => hu

/-- Replayed changes tell of the tables they led from and to. -/
theorem changes_tell (ag : read.Agrees cal) (hrels : Described rels describe)
    (hplain : Plain mp.bindings) {m1 : Model} (hm1 : m1.measures = m.measures)
    {cs : List Message} (hist : History read describe mp m cs T T')
    (h : cs.foldlM (change cal rels true xid) (mp, m1, touched) = .ok s')
    (hb : b ∈ mp.bound rel) :
    Tells cal read describe mp.items m T T' rel b (cs.flatMap (writes cal mp m rels)) := by
  induction cs generalizing m1 T touched with
  | nil =>
      rw [show T' = T from hist]
      exact Tells.nil fun _ hu => hu
  | cons c cs ih =>
      obtain ⟨T1, htook, _, hist⟩ := hist
      rw [List.foldlM_cons, bind_eq_ok_iff] at h
      obtain ⟨⟨mp1, m2, touched1⟩, hstep, h⟩ := h
      obtain ⟨hmp, hm2⟩ := change_written hplain.agg hstep
      obtain rfl : mp1 = mp := hmp
      have hmeasures : m2.measures = m.measures := by
        rw [show m2 = written m1 _ from hm2]
        exact hm1
      rw [List.flatMap_cons]
      exact (change_tells ag hrels hplain hm1 htook hstep hb).append (ih hmeasures hist h)

/-- Replayed transactions tell of the tables they led from and to. -/
theorem txns_tell (ag : read.Agrees cal) (hrels : Described rels describe)
    (hplain : Plain mp.bindings) {m1 : Model} (hm1 : m1.measures = m.measures)
    {txns : List Txn} {replayUntil : Nat} (hreplayed : ∀ t ∈ txns, t.endLsn ≤ replayUntil)
    (hist : History read describe mp m (txns.flatMap Txn.changes) T T')
    (h : txns.foldlM (txn cal rels replayUntil) (mp, m1, touched) = .ok s')
    (hb : b ∈ mp.bound rel) :
    Tells cal read describe mp.items m T T' rel b
      ((txns.flatMap Txn.changes).flatMap (writes cal mp m rels)) := by
  induction txns generalizing m1 T touched with
  | nil =>
      rw [show T' = T from hist]
      exact Tells.nil fun _ hu => hu
  | cons t txns ih =>
      rw [List.flatMap_cons] at hist
      obtain ⟨T1, hist1, hist⟩ := hist.append
      rw [List.foldlM_cons, bind_eq_ok_iff] at h
      obtain ⟨⟨mp1, m2, touched1⟩, hstep, h⟩ := h
      unfold txn at hstep
      rw [decide_eq_true (hreplayed t List.mem_cons_self)] at hstep
      obtain ⟨hmp, hm2⟩ := changes_written hplain.agg hstep
      obtain rfl : mp1 = mp := hmp
      have hmeasures : m2.measures = m.measures := by
        rw [show m2 = written m1 _ from hm2]
        exact hm1
      rw [List.flatMap_cons, List.flatMap_append]
      exact (changes_tell ag hrels hplain hm1 hist1 hstep hb).append
        (ih hmeasures (fun u hu => hreplayed u (List.mem_cons_of_mem t hu)) hist h)

/-- Only bound measures' cells are written. -/
theorem feeds_of_mem_writes {k : Cell} {c : Message}
    (h : k ∈ (writes cal mp m rels c).map (·.1)) : Feeds mp.bindings k := by
  have hrel : ∀ {rel old new}, k ∈ (relWrites cal mp m rels rel old new).map (·.1) →
      Feeds mp.bindings k := by
    intro rel old new h
    unfold relWrites at h
    cases hr : rels.get? rel with
    | none =>
        rw [hr] at h
        cases h
    | some r =>
        simp only [hr, List.map_flatMap, List.mem_flatMap] at h
        obtain ⟨d, hd, hmem⟩ := h
        refine ⟨rel, d, hd, ?_⟩
        by_contra hne
        have hnone := @lastValue_rowWrites_of_ne cal ⟨k.measure, d.valueCol, d.dims, d.agg⟩ k.coord
          mp.items r d (vtOf m d) old new hne
        exact WriteBatch.lastValue_eq_none_iff.mp hnone hmem
  cases c with
  | insert rel new => exact hrel h
  | update rel old new => exact hrel h
  | delete rel old => exact hrel h
  | truncate gone => cases h
  | control => cases h

end Mapper

/-- The model loaded when the note is shut. -/
def shutLoaded : Model := { regionsLoaded with inputs := noteCells "shut" }

theorem load_shut : (loadInputs noCalendar regions (boundRows (readText noCalendar)
    (fun _ => notes) noteBindings regions (oneNote "shut"))).map Prod.fst = .ok shutLoaded := by
  decide +kernel

theorem writes_shut : (shut.flatMap Txn.changes).flatMap
    ((Mapper.new shutLoaded noteBindings).writes noCalendar shutLoaded (.ofList [(7, notes)])) =
      [(⟨⟨10⟩, .fromPairs [(⟨1⟩, ⟨1⟩)]⟩, none),
        (⟨⟨10⟩, .fromPairs [(⟨1⟩, ⟨1⟩)]⟩, some (.text "shut"))] := by
  decide +kernel

/-- The new note inserted before the old one is deleted. -/
def replaced : List Txn :=
  [⟨1, 5, [.insert 7 [.text "north", .text "shut"], .delete 7 [.text "north", .text "open"]]⟩]

end Improv.PgModel
