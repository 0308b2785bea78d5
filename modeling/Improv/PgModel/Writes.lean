import Improv.Lib.WriteBatch
import Improv.PgModel.RowMapping
/-!
# What replayed changes write

A replayed change writes its cells whatever they hold: the old row's taken
away, the new row's set.  So replayed transactions are one batch of writes.
-/

namespace Improv.PgModel

open Improv.Lib Improv.CoreModel Improv.Engine

/-! ## What a change writes -/

/-- The coordinate a change takes the old row from: none for a row known to have
had no value. -/
def takenFrom (cal : Calendar) (items : Items) (r : Relation) (b : Binding) (vt : ValueType) :
    Option (Tuple × Bool) → Option Coordinate
  | none => none
  | some (t, false) => (coord items r b t).toOption.join
  | some (t, true) =>
    match (value cal r b t vt).toOption.join with
    | none => none
    | some _ => (coord items r b t).toOption.join

/-- The coordinate a change puts the new row at, with its value. -/
def putAt (cal : Calendar) (items : Items) (r : Relation) (b : Binding) (vt : ValueType) :
    Option Tuple → Option (Coordinate × Value)
  | none => none
  | some t =>
    match (coord items r b t).toOption.join, (value cal r b t vt).toOption.join with
    | some c, some v => some (c, v)
    | _, _ => none

/-- A row change's writes to one measure's cells: the old row's removal, then
the new row's value. -/
def rowWrites (cal : Calendar) (items : Items) (r : Relation) (b : Binding) (vt : ValueType)
    (old : Option (Option Tuple)) (new : Option Tuple) : List (Cell × Option Value) :=
  (takenFrom cal items r b vt (oldRow r b old new).toOption.join).toList.map
      (fun c => (⟨b.measure, c⟩, none)) ++
    (putAt cal items r b vt new).toList.map fun p => (⟨b.measure, p.1⟩, some p.2)

namespace Mapper

/-- A row change's writes, through each binding of its relation. -/
def relWrites (cal : Calendar) (mp : Mapper) (m : Model) (rels : SortedMap Nat Relation)
    (rel : Nat) (old : Option (Option Tuple)) (new : Option Tuple) :
    List (Cell × Option Value) :=
  match rels.get? rel with
  | none => []
  | some r => (mp.bound rel).flatMap fun b => rowWrites cal mp.items r b (vtOf m b) old new

/-- A message's writes, where it is replayed. -/
def writes (cal : Calendar) (mp : Mapper) (m : Model) (rels : SortedMap Nat Relation) :
    Message → List (Cell × Option Value)
  | .insert rel new => relWrites cal mp m rels rel none (some new)
  | .update rel old new => relWrites cal mp m rels rel (some old) (some new)
  | .delete rel old => relWrites cal mp m rels rel (some (some old)) none
  | .truncate _ | .control => []

end Mapper

/-! ## One row change -/

section Rows

variable {cal : Calendar} {items : Items} {r : Relation} {b : Binding} {vt : ValueType}
  {m m' : Model} {touched touched' : Touched}

/-- A model with a batch of cells written. -/
def written (m : Model) (ws : List (Cell × Option Value)) : Model :=
  { m with inputs := (m.inputs.writeAll ws).1 }

@[simp] theorem written_nil (m : Model) : written m [] = m := rfl

theorem written_append (m : Model) (ws vs : List (Cell × Option Value)) :
    written (written m ws) vs = written m (ws ++ vs) := by
  have hcells : ((m.inputs.writeAll ws).1.writeAll vs).1 = (m.inputs.writeAll (ws ++ vs)).1 := by
    ext1 k
    rw [WriteBatch.get?_writeAll, WriteBatch.get?_writeAll, WriteBatch.get?_writeAll,
      WriteBatch.lastValue_append]
    cases WriteBatch.lastValue vs k <;> rfl
  exact congrArg (fun cells => { m with inputs := cells }) hcells

theorem retract_written {old : Option (Tuple × Bool)}
    (h : retract cal items r b vt old m touched = .ok (m', touched')) :
    m' = written m ((takenFrom cal items r b vt old).toList.map
      fun c => (⟨b.measure, c⟩, none)) := by
  cases old with
  | none =>
      cases h
      rfl
  | some p =>
      obtain ⟨t, valueKnown⟩ := p
      unfold retract at h
      simp only [bind_eq_ok_iff] at h
      obtain ⟨c, hc, h⟩ := h
      unfold takenFrom
      cases c with
      | none =>
          cases h
          have hnone : (coord items r b t).toOption.join = none := by
            rw [hc]
            rfl
          cases valueKnown with
          | false =>
              simp only [hnone]
              rfl
          | true =>
              simp only [hnone]
              cases (value cal r b t vt).toOption.join <;> rfl
      | some c =>
          cases valueKnown with
          | false =>
              cases h
              simp only [hc]
              rfl
          | true =>
              simp only [if_true, bind_eq_ok_iff] at h
              obtain ⟨gone, hgone, h⟩ := h
              cases hv : value cal r b t vt with
              | error e =>
                  rw [hv] at hgone
                  cases hgone
              | ok v =>
                  rw [hv] at hgone
                  cases hgone
                  cases v with
                  | none =>
                      cases h
                      simp only [hv]
                      rfl
                  | some v =>
                      cases h
                      simp only [hc, hv]
                      rfl

theorem assert_written {new : Option Tuple}
    (h : assert cal items r b vt true new m touched = .ok (m', touched')) :
    m' = written m ((putAt cal items r b vt new).toList.map
      fun p => (⟨b.measure, p.1⟩, some p.2)) := by
  cases new with
  | none =>
      cases h
      rfl
  | some t =>
      unfold assert at h
      simp only [bind_eq_ok_iff] at h
      obtain ⟨c, hc, v, hv, h⟩ := h
      unfold putAt
      simp only [hc, hv]
      cases c with
      | none =>
          cases h
          rfl
      | some c =>
          cases v with
          | none =>
              cases h
              rfl
          | some v =>
              cases h
              rfl

theorem vtOf_of_valueType (h : valueType m b.measure = .ok vt) : vtOf m b = vt := by
  unfold valueType at h
  unfold vtOf
  cases hx : m.measures.get? b.measure with
  | none =>
      rw [hx] at h
      cases h
  | some x =>
      rw [hx] at h
      exact Except.ok.inj h

/-- A replayed row change writes its cells. -/
theorem row_written {old : Option (Option Tuple)} {new : Option Tuple}
    (h : row cal items r b old new true m touched = .ok (m', touched')) :
    m' = written m (rowWrites cal items r b (vtOf m b) old new) := by
  obtain ⟨vt, o, m1, touched1, hvt, ho, hretract, hassert⟩ := row_cases h
  have hvt' : vt = vtOf m b := (vtOf_of_valueType hvt).symm
  have holds : (oldRow r b old new).toOption.join = o := by
    rw [ho]
    rfl
  unfold rowWrites
  rw [holds, ← hvt', ← written_append, ← retract_written hretract]
  exact assert_written hassert

end Rows

/-! ## Replayed transactions -/

namespace Mapper

variable {cal : Calendar} {rels : SortedMap Nat Relation} {xid : UInt32} {mp : Mapper}
  {m : Model} {touched : Touched} {s' : State}

theorem foldlM_written {r : Relation} {old : Option (Option Tuple)} {new : Option Tuple}
    {bs : List Binding} (hbs : ∀ b ∈ bs, b.agg = none)
    (h : bs.foldlM (fun s b => changeRow cal r old new true xid b s) (mp, m, touched) = .ok s') :
    s'.1 = mp ∧ s'.2.1 =
      written m (bs.flatMap fun b => rowWrites cal mp.items r b (vtOf m b) old new) := by
  induction bs generalizing m touched with
  | nil =>
      cases h
      exact ⟨rfl, rfl⟩
  | cons b bs ih =>
      rw [List.foldlM_cons, bind_eq_ok_iff] at h
      obtain ⟨⟨mp1, m1, touched1⟩, hstep, h⟩ := h
      rcases changeRow_cases hstep with ⟨_, hmp, hrow⟩ | ⟨hagg, _⟩ | ⟨hagg, _⟩
      · obtain rfl : mp1 = mp := hmp
        have hm1 := row_written hrow
        dsimp only at hm1
        subst hm1
        obtain ⟨hmp, hm⟩ := ih (fun c hc => hbs c (List.mem_cons_of_mem b hc)) h
        refine ⟨hmp, ?_⟩
        rw [hm, written_append, List.flatMap_cons]
        rfl
      · exact absurd (hbs b List.mem_cons_self) hagg
      · exact absurd (hbs b List.mem_cons_self) hagg

/-- A replayed change writes its cells. -/
theorem change_written (hagg : ∀ rel, ∀ b ∈ mp.bound rel, b.agg = none) {c : Message}
    (h : change cal rels true xid (mp, m, touched) c = .ok s') :
    s'.1 = mp ∧ s'.2.1 = written m (writes cal mp m rels c) := by
  have hrel : ∀ {rel old new}, changeRel cal rels true xid rel old new (mp, m, touched) = .ok s' →
      s'.1 = mp ∧ s'.2.1 = written m (relWrites cal mp m rels rel old new) := by
    intro rel old new h
    unfold changeRel at h
    unfold relWrites
    cases hbs : mp.bindings.get? rel with
    | none =>
        simp only [hbs] at h
        cases h
        have hbound : mp.bound rel = [] := by
          unfold bound
          rw [hbs]
          rfl
        rw [hbound]
        cases rels.get? rel <;> exact ⟨rfl, rfl⟩
    | some bs =>
        simp only [hbs] at h
        cases hr : rels.get? rel with
        | none => simp [hr] at h
        | some r =>
            simp only [hr] at h
            have hbound : mp.bound rel = bs := by
              unfold bound
              rw [hbs]
              rfl
            rw [← hbound] at h
            exact foldlM_written (hagg rel) h
  cases c with
  | insert rel new => exact hrel h
  | update rel old new => exact hrel h
  | delete rel old => exact hrel h
  | truncate gone =>
      -- A replayed TRUNCATE of a bound relation asks for a rebuild.
      refine foldlM_invariant (P := fun s => s.1 = mp ∧ s.2.1 = m) ?_ ⟨rfl, rfl⟩ h
      intro s rel s1 hs hstep
      refine foldlM_invariant_mem (P := fun s => s.1 = mp ∧ s.2.1 = m) ?_ hs hstep
      intro s2 b s3 hb _ hstep
      rw [hs.1] at hb
      rcases truncateBinding_cases hstep with ⟨_, hfalse, _⟩ | ⟨hsome, _⟩ | ⟨hsome, _⟩
      · cases hfalse
      · exact absurd (hagg rel b hb) hsome
      · exact absurd (hagg rel b hb) hsome
  | control =>
      cases h
      exact ⟨rfl, rfl⟩

theorem changes_written (hagg : ∀ rel, ∀ b ∈ mp.bound rel, b.agg = none) {cs : List Message}
    (h : cs.foldlM (change cal rels true xid) (mp, m, touched) = .ok s') :
    s'.1 = mp ∧ s'.2.1 = written m (cs.flatMap (writes cal mp m rels)) := by
  induction cs generalizing m touched with
  | nil =>
      cases h
      exact ⟨rfl, rfl⟩
  | cons c cs ih =>
      rw [List.foldlM_cons, bind_eq_ok_iff] at h
      obtain ⟨⟨mp1, m1, touched1⟩, hstep, h⟩ := h
      obtain ⟨hmp, hm1⟩ := change_written hagg hstep
      obtain rfl : mp1 = mp := hmp
      dsimp only at hm1
      subst hm1
      obtain ⟨hmp, hm⟩ := ih h
      refine ⟨hmp, ?_⟩
      rw [hm, written_append, List.flatMap_cons]
      rfl

/-- Replayed transactions write their changes' cells, in order. -/
theorem txns_written (hagg : ∀ rel, ∀ b ∈ mp.bound rel, b.agg = none) {txns : List Txn}
    {replayUntil : Nat} (hreplayed : ∀ t ∈ txns, t.endLsn ≤ replayUntil)
    (h : txns.foldlM (txn cal rels replayUntil) (mp, m, touched) = .ok s') :
    s'.1 = mp ∧
      s'.2.1 = written m ((txns.flatMap Txn.changes).flatMap (writes cal mp m rels)) := by
  induction txns generalizing m touched with
  | nil =>
      cases h
      exact ⟨rfl, rfl⟩
  | cons t txns ih =>
      rw [List.foldlM_cons, bind_eq_ok_iff] at h
      obtain ⟨⟨mp1, m1, touched1⟩, hstep, h⟩ := h
      unfold txn at hstep
      rw [decide_eq_true (hreplayed t List.mem_cons_self)] at hstep
      obtain ⟨hmp, hm1⟩ := changes_written hagg hstep
      obtain rfl : mp1 = mp := hmp
      dsimp only at hm1
      subst hm1
      obtain ⟨hmp, hm⟩ := ih (fun u hu => hreplayed u (List.mem_cons_of_mem t hu)) h
      refine ⟨hmp, ?_⟩
      rw [hm, written_append, List.flatMap_cons, List.flatMap_append]
      rfl

end Mapper

end Improv.PgModel
