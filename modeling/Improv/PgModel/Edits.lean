import Improv.PgModel.Statements
import Improv.Service.Feed
/-!
# The edits of a batch

Each cell a batch touches is noted with its value before the batch, so that the
batch makes one edit for each cell it changed; and what is noted decides nothing
else, so that a batch may be cut anywhere.
-/

namespace Improv.PgModel

open Improv.Lib Improv.CoreModel Improv.Engine

/-! ## What is noted -/

/-- The touched cells hold their values from before, and the others have them
still. -/
def Tracked (before m : Model) (touched : Touched) : Prop :=
  ∀ k, (∀ v, touched.get? k = some v → v = before.inputs.get? k) ∧
    (touched.get? k = none → m.inputs.get? k = before.inputs.get? k)

namespace Tracked

variable {before m : Model} {touched : Touched}

theorem start (m : Model) : Tracked m m .empty :=
  fun _ => ⟨fun _ h => (by cases h), fun _ => rfl⟩

/-- A cell written and noted. -/
theorem write (h : Tracked before m touched) (k : Cell) (v : Option Value) :
    Tracked before { m with inputs := m.inputs.write k v }
      (touched.orInsert k (m.inputs.get? k)) := by
  intro j
  change (∀ v, (touched.orInsert k (m.inputs.get? k)).get? j = some v → _) ∧
    ((touched.orInsert k (m.inputs.get? k)).get? j = none →
      (m.inputs.write k v).get? j = before.inputs.get? j)
  unfold Touched.orInsert
  rw [SortedMap.get?_write]
  by_cases hk : touched.contains k = true
  · rw [if_pos hk]
    refine ⟨(h j).1, fun hnone => ?_⟩
    have hne : j ≠ k := by
      rintro rfl
      rw [SortedMap.contains, hnone] at hk
      cases hk
    rw [if_neg hne]
    exact (h j).2 hnone
  · rw [if_neg hk, SortedMap.get?_insert]
    have hkNone : touched.get? k = none := by
      simpa [SortedMap.contains] using hk
    by_cases hj : j = k
    · rw [if_pos hj]
      refine ⟨fun w hw => ?_, fun hnone => by cases hnone⟩
      rw [Option.some.injEq] at hw
      rw [← hw, hj]
      exact (h k).2 hkNone
    · rw [if_neg hj, if_neg hj]
      exact h j

theorem foldl_orInsert (inputs : SortedMap Cell Value) (touched : Touched) (ks : List Cell)
    (j : Cell) :
    (ks.foldl (fun touched k => touched.orInsert k (inputs.get? k)) touched).get? j =
      (touched.get? j).or (if j ∈ ks then some (inputs.get? j) else none) := by
  induction ks generalizing touched with
  | nil => simp
  | cons k ks ih =>
      rw [List.foldl_cons, ih]
      unfold Touched.orInsert
      by_cases hk : touched.contains k = true
      · rw [if_pos hk]
        by_cases hj : j = k
        · subst hj
          obtain ⟨v, hv⟩ := Option.isSome_iff_exists.mp hk
          rw [hv]
          rfl
        · simp [hj]
      · rw [if_neg hk, SortedMap.get?_insert]
        have hkNone : touched.get? k = none := by
          simpa [SortedMap.contains] using hk
        by_cases hj : j = k
        · simp [hj, hkNone]
        · simp [hj]

/-- A measure cleared, its cells noted. -/
theorem clear (h : Tracked before m touched) (measure : MeasureId) :
    Tracked before (Mapper.clear m touched measure).1 (Mapper.clear m touched measure).2 := by
  intro j
  unfold Mapper.clear
  dsimp only
  rw [foldl_orInsert, SortedMap.get?_filter]
  have hmem : j ∈ (m.inputs.keys.filter fun k => k.measure = measure) ↔
      (m.inputs.get? j).isSome = true ∧ j.measure = measure := by
    rw [List.mem_filter, SortedMap.mem_keys_iff, decide_eq_true_eq]
    rfl
  obtain ⟨hsome, hnone⟩ := h j
  constructor
  · intro v hv
    cases ht : touched.get? j with
    | some w =>
        rw [ht, Option.some_or, Option.some.injEq] at hv
        rw [← hv]
        exact hsome w ht
    | none =>
        rw [ht, Option.none_or] at hv
        split at hv
        · rw [Option.some.injEq] at hv
          rw [← hv]
          exact hnone ht
        · cases hv
  · intro hall
    rw [Option.or_eq_none_iff] at hall
    rw [← hnone hall.1]
    have hnot := hall.2
    cases hj : m.inputs.get? j with
    | none => rfl
    | some v =>
        have hne : ¬j.measure = measure := by
          intro heq
          rw [if_pos (hmem.mpr ⟨by rw [hj]; rfl, heq⟩)] at hnot
          cases hnot
        simp [Option.filter, hne]

end Tracked

namespace Mapper

variable {cal : Calendar} {rels : SortedMap Nat Relation} {replay : Bool} {xid : UInt32}
  {before : Model} {s s' : State} {b : Binding}

theorem retract_tracked {items : Items} {r : Relation} {vt : ValueType}
    {old : Option (Tuple × Bool)} {m m' : Model} {touched touched' : Touched}
    (h : retract cal items r b vt old m touched = .ok (m', touched'))
    (ht : Tracked before m touched) : Tracked before m' touched' := by
  cases old with
  | none =>
      cases h
      exact ht
  | some p =>
      obtain ⟨t, valueKnown⟩ := p
      unfold retract at h
      simp only [bind_eq_ok_iff] at h
      obtain ⟨c, _, h⟩ := h
      cases c with
      | none =>
          cases h
          exact ht
      | some c =>
          cases valueKnown with
          | false =>
              cases h
              exact ht.write _ none
          | true =>
              simp only [if_true, bind_eq_ok_iff] at h
              obtain ⟨gone, _, h⟩ := h
              cases gone with
              | false =>
                  cases h
                  exact ht
              | true =>
                  cases h
                  exact ht.write _ none

theorem assert_tracked {items : Items} {r : Relation} {vt : ValueType} {new : Option Tuple}
    {m m' : Model} {touched touched' : Touched}
    (h : assert cal items r b vt replay new m touched = .ok (m', touched'))
    (ht : Tracked before m touched) : Tracked before m' touched' := by
  unfold assert at h
  split at h
  · cases h
    exact ht
  · simp only [bind_eq_ok_iff] at h
    obtain ⟨c, _, v, _, h⟩ := h
    split at h
    · rw [ite_error_eq_ok_iff] at h
      obtain ⟨_, h⟩ := h
      cases h
      exact ht.write _ (some _)
    · cases h
      exact ht

theorem foldPart_tracked {items : Items} {cmp : Option TextCmp} {agg : Agg} {r : Relation}
    {vt : ValueType} {t : Tuple} {k : Int}
    {x x' : SortedMap Coordinate Fold × Model × Touched}
    (h : foldPart cal items cmp agg r b vt t k x = .ok x')
    (ht : Tracked before x.2.1 x.2.2) : Tracked before x'.2.1 x'.2.2 := by
  obtain ⟨folds, m, touched⟩ := x
  unfold foldPart at h
  rw [bind_eq_ok_iff] at h
  obtain ⟨c, _, h⟩ := h
  split at h
  · cases h
    exact ht
  · rw [bind_eq_ok_iff] at h
    obtain ⟨p, _, h⟩ := h
    simp only [ite_error_eq_ok_iff] at h
    obtain ⟨_, h⟩ := h
    cases h
    exact ht.write _ _

theorem changeRow_tracked {r : Relation} {old : Option (Option Tuple)} {new : Option Tuple}
    (h : changeRow cal r old new replay xid b s = .ok s') (ht : Tracked before s.2.1 s.2.2) :
    Tracked before s'.2.1 s'.2.2 := by
  rcases changeRow_cases h with ⟨_, _, hrow⟩ | ⟨_, _, rfl⟩ | ⟨_, _, folds, hfold, _⟩
  · unfold row at hrow
    simp only [bind_eq_ok_iff] at hrow
    obtain ⟨vt, _, o, _, ⟨m1, touched1⟩, hretract, hassert⟩ := hrow
    exact assert_tracked hassert (retract_tracked hretract ht)
  · exact ht
  · unfold foldRow at hfold
    simp only [bind_eq_ok_iff] at hfold
    obtain ⟨agg, _, vt, _, o, _, x, hout, hin⟩ := hfold
    have hx : Tracked before x.2.1 x.2.2 := by
      cases o with
      | none =>
          cases hout
          exact ht
      | some t => exact foldPart_tracked hout ht
    cases new with
    | none =>
        have heq : x = (folds, s'.2) := Except.ok.inj hin
        rw [heq] at hx
        exact hx
    | some t => exact foldPart_tracked hin hx

theorem change_tracked {c : Message} (h : change cal rels replay xid s c = .ok s')
    (ht : Tracked before s.2.1 s.2.2) : Tracked before s'.2.1 s'.2.2 := by
  have hrel : ∀ {rel old new}, changeRel cal rels replay xid rel old new s = .ok s' →
      Tracked before s'.2.1 s'.2.2 := by
    intro rel old new h
    unfold changeRel at h
    split at h
    · cases h
      exact ht
    · split at h
      · cases h
      · exact foldlM_invariant (P := fun s => Tracked before s.2.1 s.2.2)
          (fun _ _ _ hp hstep => changeRow_tracked hstep hp) ht h
  cases c with
  | insert rel new => exact hrel h
  | update rel old new => exact hrel h
  | delete rel old => exact hrel h
  | truncate gone =>
      refine foldlM_invariant (P := fun s => Tracked before s.2.1 s.2.2) ?_ ht h
      intro s rel s' hp hstep
      refine foldlM_invariant (P := fun s => Tracked before s.2.1 s.2.2) ?_ hp hstep
      intro s b s' hp hstep
      rcases truncateBinding_cases hstep with ⟨_, _, rfl⟩ | ⟨_, _, rfl⟩ | ⟨_, _, rfl⟩
      · exact hp.clear b.measure
      · exact hp
      · exact hp.clear b.measure
  | control =>
      cases h
      exact ht

/-! ## What is noted decides nothing -/

/-- The mapper and the model of a state. -/
def State.kept (s : State) : Mapper × Model := (s.1, s.2.1)

theorem retract_blind {items : Items} {r : Relation} {vt : ValueType}
    {old : Option (Tuple × Bool)} {m : Model} (touched touched' : Touched) :
    (retract cal items r b vt old m touched).map Prod.fst =
      (retract cal items r b vt old m touched').map Prod.fst := by
  cases old with
  | none => rfl
  | some p =>
      obtain ⟨t, valueKnown⟩ := p
      unfold retract
      refine map_bind_congr (g := id) rfl fun c c' hc => ?_
      obtain rfl : c = c' := hc
      cases c with
      | none => rfl
      | some c =>
          cases valueKnown with
          | false => rfl
          | true =>
              refine map_bind_congr (g := id) rfl fun gone gone' hgone => ?_
              obtain rfl : gone = gone' := hgone
              cases gone <;> rfl

theorem assert_blind {items : Items} {r : Relation} {vt : ValueType} {new : Option Tuple}
    {m : Model} (touched touched' : Touched) :
    (assert cal items r b vt replay new m touched).map Prod.fst =
      (assert cal items r b vt replay new m touched').map Prod.fst := by
  cases new with
  | none => rfl
  | some t =>
      unfold assert
      refine map_bind_congr (g := id) rfl fun c c' hc => ?_
      obtain rfl : c = c' := hc
      refine map_bind_congr (g := id) rfl fun v v' hv => ?_
      obtain rfl : v = v' := hv
      cases c with
      | none => rfl
      | some c =>
          cases v with
          | none => rfl
          | some v =>
              dsimp only
              split <;> rfl

theorem foldPart_blind {items : Items} {cmp : Option TextCmp} {agg : Agg} {r : Relation}
    {vt : ValueType} {t : Tuple} {k : Int} {x y : SortedMap Coordinate Fold × Model × Touched}
    (h : (x.1, x.2.1) = (y.1, y.2.1)) :
    (foldPart cal items cmp agg r b vt t k x).map (fun x => (x.1, x.2.1)) =
      (foldPart cal items cmp agg r b vt t k y).map fun x => (x.1, x.2.1) := by
  obtain ⟨folds, m, touched⟩ := x
  obtain ⟨folds', m', touched'⟩ := y
  obtain ⟨rfl, rfl⟩ := Prod.mk.inj h
  unfold foldPart
  refine map_bind_congr (g := id) rfl fun c c' hc => ?_
  obtain rfl : c = c' := hc
  cases c with
  | none => rfl
  | some c =>
      refine map_bind_congr (g := id) rfl fun p p' hp => ?_
      obtain rfl : p = p' := hp
      dsimp only
      split <;> rfl

theorem changeRow_blind {r : Relation} {old : Option (Option Tuple)} {new : Option Tuple}
    (h : s.kept = s'.kept) :
    (changeRow cal r old new replay xid b s).map State.kept =
      (changeRow cal r old new replay xid b s').map State.kept := by
  obtain ⟨mp, m, touched⟩ := s
  obtain ⟨mp', m', touched'⟩ := s'
  obtain ⟨rfl, rfl⟩ := Prod.mk.inj h
  unfold changeRow
  by_cases hb : b.agg = none
  · simp only [if_pos hb]
    refine map_bind_congr (g := Prod.fst) ?_ fun x y hxy =>
      congrArg (fun m => Except.ok (mp, m)) hxy
    unfold row
    refine map_bind_congr (g := id) rfl fun vt vt' hvt => ?_
    obtain rfl : vt = vt' := hvt
    refine map_bind_congr (g := id) rfl fun o o' ho => ?_
    obtain rfl : o = o' := ho
    refine map_bind_congr (retract_blind touched touched') fun x y hxy => ?_
    obtain ⟨m1, touched1⟩ := x
    obtain ⟨m2, touched2⟩ := y
    obtain rfl : m1 = m2 := hxy
    exact assert_blind touched1 touched2
  · simp only [if_neg hb]
    refine map_bind_congr (g := id) rfl fun saw saw' hsaw => ?_
    obtain rfl : saw = saw' := hsaw
    cases saw with
    | true => rfl
    | false =>
        refine map_bind_congr (g := fun x => (x.1, x.2.1)) ?_ fun x y hxy => ?_
        · unfold foldRow
          refine map_bind_congr (g := id) rfl fun agg agg' hagg => ?_
          obtain rfl : agg = agg' := hagg
          refine map_bind_congr (g := id) rfl fun vt vt' hvt => ?_
          obtain rfl : vt = vt' := hvt
          refine map_bind_congr (g := id) rfl fun o o' ho => ?_
          obtain rfl : o = o' := ho
          refine map_bind_congr (g := fun x => (x.1, x.2.1)) ?_ fun x y hxy => ?_
          · cases o with
            | none => rfl
            | some t => exact foldPart_blind rfl
          · cases new with
            | none => exact congrArg Except.ok hxy
            | some t => exact foldPart_blind hxy
        · obtain ⟨folds, m1, touched1⟩ := x
          obtain ⟨folds', m2, touched2⟩ := y
          obtain ⟨rfl, rfl⟩ := Prod.mk.inj hxy
          rfl

theorem truncateBinding_blind (h : s.kept = s'.kept) :
    (truncateBinding replay xid b s).map State.kept =
      (truncateBinding replay xid b s').map State.kept := by
  obtain ⟨mp, m, touched⟩ := s
  obtain ⟨mp', m', touched'⟩ := s'
  obtain ⟨rfl, rfl⟩ := Prod.mk.inj h
  unfold truncateBinding
  by_cases hb : b.agg = none
  · simp only [hb, ne_eq, not_true_eq_false, if_false]
    split <;> rfl
  · simp only [ne_eq, hb, not_false_eq_true, if_true]
    refine map_bind_congr (g := id) rfl fun saw saw' hsaw => ?_
    obtain rfl : saw = saw' := hsaw
    cases saw <;> rfl

theorem change_blind {c : Message} (h : s.kept = s'.kept) :
    (change cal rels replay xid s c).map State.kept =
      (change cal rels replay xid s' c).map State.kept := by
  have hmp : s.1 = s'.1 := (Prod.mk.inj h).1
  have hrel : ∀ rel old new, (changeRel cal rels replay xid rel old new s).map State.kept =
      (changeRel cal rels replay xid rel old new s').map State.kept := by
    intro rel old new
    unfold changeRel
    rw [hmp]
    split
    · exact congrArg Except.ok h
    · split
      · rfl
      · exact foldlM_map_congr (f := fun s b => changeRow cal _ old new replay xid b s)
          (fun _ _ _ h => changeRow_blind h) h
  cases c with
  | insert rel new => exact hrel rel none (some new)
  | update rel old new => exact hrel rel (some old) (some new)
  | delete rel old => exact hrel rel (some (some old)) none
  | truncate gone =>
      refine foldlM_map_congr (fun s t rel hst => ?_) h
      have hbound : s.1.bound rel = t.1.bound rel :=
        congrArg (fun mp => mp.bound rel) (Prod.mk.inj hst).1
      unfold truncate
      rw [hbound]
      exact foldlM_map_congr (f := fun s b => truncateBinding replay xid b s)
        (fun _ _ _ h => truncateBinding_blind h) hst
  | control => exact congrArg Except.ok h

theorem txn_blind {replayUntil : Nat} {t : Txn} (h : s.kept = s'.kept) :
    (txn cal rels replayUntil s t).map State.kept =
      (txn cal rels replayUntil s' t).map State.kept :=
  foldlM_map_congr (f := change cal rels (t.endLsn ≤ replayUntil) t.xid)
    (fun _ _ _ h => change_blind h) h

/-- A batch mapped is its transactions folded. -/
theorem map_eq (mp : Mapper) (m : Model) (txns : List Txn) (replayUntil : Nat) :
    map cal mp m rels txns replayUntil =
      (txns.foldlM (txn cal rels replayUntil) (mp, m, .empty)).map fun s =>
        (edits s.2.1 s.2.2, s.kept) := by
  unfold map
  cases txns.foldlM (txn cal rels replayUntil) (mp, m, .empty) <;> rfl

/-- What is left of a batch, whatever was noted before it. -/
theorem map_kept (s : State) (txns : List Txn) (replayUntil : Nat) :
    (map cal s.1 s.2.1 rels txns replayUntil).map (·.2) =
      (txns.foldlM (txn cal rels replayUntil) s).map State.kept := by
  have hblind : (txns.foldlM (txn cal rels replayUntil) s).map State.kept =
      (txns.foldlM (txn cal rels replayUntil) (s.1, s.2.1, .empty)).map State.kept :=
    foldlM_map_congr (f := txn cal rels replayUntil) (g := State.kept)
      (fun _ _ _ h => txn_blind h) rfl
  rw [hblind, map_eq]
  cases txns.foldlM (txn cal rels replayUntil) (s.1, s.2.1, .empty) <;> rfl

/-- A batch may be cut anywhere: mapping it in two leaves the mapper and the
cells that mapping it whole does. -/
theorem map_append (mp : Mapper) (m : Model) (xs ys : List Txn) (replayUntil : Nat) :
    (map cal mp m rels (xs ++ ys) replayUntil).map (·.2) =
      (map cal mp m rels xs replayUntil >>= fun x =>
        map cal x.2.1 x.2.2 rels ys replayUntil).map (·.2) := by
  rw [map_kept (mp, m, .empty), map_eq mp m xs, List.foldlM_append]
  cases xs.foldlM (txn cal rels replayUntil) (mp, m, .empty) with
  | error e => rfl
  | ok s => exact (map_kept s ys replayUntil).symm

/-- A batch may be cut into any batches. -/
theorem map_flatten (mp : Mapper) (m : Model) (batches : List (List Txn)) (replayUntil : Nat) :
    (map cal mp m rels batches.flatten replayUntil).map (·.2) =
      batches.foldlM (fun x txns => (map cal x.1 x.2 rels txns replayUntil).map (·.2))
        (mp, m) := by
  induction batches generalizing mp m with
  | nil => rfl
  | cons txns batches ih =>
      rw [List.flatten_cons, map_append, List.foldlM_cons]
      cases map cal mp m rels txns replayUntil with
      | error e => rfl
      | ok x => exact ih x.2.1 x.2.2

/-! ## The edits -/

/-- A cell's value as the engine holds it. -/
def shownAt (m : Model) (k : Cell) : Option CellValue :=
  (m.inputs.get? k).map CellValue.fromModelValue

theorem encodeCoord_injective : Function.Injective Service.encodeCoord :=
  Function.LeftInverse.injective Service.decodeCoord_encodeCoord

/-- One edit for each cell whose value changed, with its final value. -/
def EditsOf (before m : Model) (es : List Edit) : Prop :=
  es.Nodup ∧ ∀ e, e ∈ es ↔ ∃ k : Cell, shownAt m k ≠ shownAt before k ∧
    e = ⟨k.measure, Service.encodeCoord k.coord, shownAt m k⟩

/-- The edit of one touched cell. -/
theorem edit_eq_some_iff {m : Model} {p : Cell × Option Value} {e : Edit} :
    (if shownAt m p.1 ≠ p.2.map CellValue.fromModelValue then
        some (⟨p.1.measure, Service.encodeCoord p.1.coord, shownAt m p.1⟩ : Edit)
      else none) = some e ↔
      shownAt m p.1 ≠ p.2.map CellValue.fromModelValue ∧
        e = ⟨p.1.measure, Service.encodeCoord p.1.coord, shownAt m p.1⟩ := by
  by_cases h : shownAt m p.1 = p.2.map CellValue.fromModelValue
  · simp [h]
  · simp [h, eq_comm]

theorem mem_edits_iff {m : Model} {touched : Touched} {e : Edit} :
    e ∈ edits m touched ↔ ∃ k v, touched.get? k = some v ∧
      shownAt m k ≠ v.map CellValue.fromModelValue ∧
      e = ⟨k.measure, Service.encodeCoord k.coord, shownAt m k⟩ := by
  unfold edits
  rw [List.mem_filterMap]
  constructor
  · intro h
    obtain ⟨⟨k, v⟩, hmem, hedit⟩ := h
    exact ⟨k, v, SortedMap.get?_eq_some_iff.mpr hmem, edit_eq_some_iff.mp hedit⟩
  · intro h
    obtain ⟨k, v, hget, hedit⟩ := h
    exact ⟨(k, v), SortedMap.get?_eq_some_iff.mp hget, edit_eq_some_iff.mpr hedit⟩

/-- Different touched cells make different edits. -/
theorem nodup_edits (m : Model) (touched : Touched) : (edits m touched).Nodup := by
  unfold edits
  refine List.Pairwise.filterMap _ ?_ touched.sorted
  intro p q hlt e he e' he' heq
  obtain ⟨_, he⟩ := edit_eq_some_iff.mp he
  obtain ⟨_, he'⟩ := edit_eq_some_iff.mp he'
  rw [he, he', Edit.mk.injEq] at heq
  apply hlt.ne
  rw [show p.1 = ⟨p.1.measure, p.1.coord⟩ from rfl, heq.1, encodeCoord_injective heq.2.1]

/-- What was noted makes one edit for each cell that changed. -/
theorem edits_of_tracked {m : Model} {touched : Touched} (h : Tracked before m touched) :
    EditsOf before m (edits m touched) := by
  refine ⟨nodup_edits m touched, fun e => ?_⟩
  rw [mem_edits_iff]
  constructor
  · intro he
    obtain ⟨k, v, hget, hne, he⟩ := he
    rw [(h k).1 v hget] at hne
    exact ⟨k, hne, he⟩
  · intro he
    obtain ⟨k, hne, he⟩ := he
    cases hget : touched.get? k with
    | none =>
        apply absurd ((h k).2 hget)
        intro heq
        apply hne
        unfold shownAt
        rw [heq]
    | some v =>
        refine ⟨k, v, hget, ?_, he⟩
        rw [(h k).1 v hget]
        exact hne

/-- A batch that is mapped makes its edits. -/
theorem map_edits {mp mp' : Mapper} {m m' : Model} {txns : List Txn} {replayUntil : Nat}
    {es : List Edit} (h : map cal mp m rels txns replayUntil = .ok (es, mp', m')) :
    EditsOf m m' es := by
  unfold map at h
  rw [bind_eq_ok_iff] at h
  obtain ⟨s, hfold, h⟩ := h
  cases h
  apply edits_of_tracked
  refine foldlM_invariant (P := fun s => Tracked m s.2.1 s.2.2) ?_ (.start m) hfold
  intro s t s' hs hstep
  exact foldlM_invariant (P := fun s => Tracked m s.2.1 s.2.2)
    (fun _ _ _ hs hstep => change_tracked hstep hs) hs hstep

end Mapper

end Improv.PgModel
