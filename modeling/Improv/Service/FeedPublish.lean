import Improv.Service.Feed
/-!
# Publishing a batch

What is logged of a saved batch, its own cells and those the engine's round
changed, leads from the cells shown before it to those shown after.
-/

namespace Improv.Service

open Improv.Lib Improv.CoreModel Improv.Engine WriteBatch

namespace Authority

variable {S E : Type} {env : Env S E}

/-! ## Checked edits -/

/-- A checked edit is of an input measure of the model. -/
theorem checkEdit_input {who : Principal} {a : Authority S E} {e : CellEdit}
    {w : Cell × Option Value} (h : checkEdit env who a e = .ok w) :
    ∃ x, a.model.measures.get? w.1.measure = some x ∧ x.isDerived = false := by
  unfold checkEdit at h
  simp only at h
  cases hx : a.model.measures.get? ⟨e.measure⟩ with
  | none => simp [hx] at h
  | some x =>
      simp only [hx, ite_error_eq_ok_iff] at h
      obtain ⟨_, _, hinput, _, _, h⟩ := h
      have hmeasure : w.1.measure = ⟨e.measure⟩ := by
        split at h
        · cases h
          rfl
        · split at h <;> cases h
          rfl
      refine ⟨x, by rw [hmeasure, hx], ?_⟩
      unfold Measure.isInput at hinput
      unfold Measure.isDerived
      split <;> simp_all

theorem checkEdits_input {who : Principal} {a : Authority S E} {i : Nat} {es : List CellEdit}
    {checked : Cells} (h : checkEdits env who a i es = .ok checked) :
    ∀ w ∈ checked, ∃ x, a.model.measures.get? w.1.measure = some x ∧ x.isDerived = false := by
  induction es generalizing i checked with
  | nil =>
      simp only [checkEdits, Except.ok.injEq] at h
      rw [← h]
      simp
  | cons e es ih =>
      unfold checkEdits at h
      cases he : checkEdit env who a e with
      | error r => simp [he] at h
      | ok w =>
          cases hes : checkEdits env who a (i + 1) es with
          | error r => simp [he, hes] at h
          | ok ws =>
              simp only [he, hes, Except.ok.injEq] at h
              rw [← h]
              intro v hv
              rcases List.mem_cons.mp hv with rfl | hv
              · exact checkEdit_input he
              · exact ih hes v hv

/-! ## The cells after a batch -/

theorem feedWrites_loggedEdits (edits : Cells) :
    feedWrites (loggedEdits env edits) =
      edits.map fun w => (feedCell w.1, w.2.map (WireValue.fromValue env.chrono)) := by
  unfold feedWrites loggedEdits
  rw [List.map_map]
  rfl

theorem feedWrites_loggedRound (delta : RoundChanges) :
    feedWrites (loggedRound env delta) =
      (roundWrites delta).map fun w => (id w.1, w.2.map (WireValue.ofCell env.chrono)) := by
  unfold feedWrites loggedRound roundWrites
  simp only [List.map_flatMap, List.map_map]
  rfl

/-- What a batch logs of itself at a cell. -/
theorem lastValue_loggedEdits (env : Env S E) (edits : Cells) (c : FeedCell) :
    lastValue (feedWrites (loggedEdits env edits)) c =
      if c.Canonical then
        (lastValue edits ⟨⟨c.measure⟩, decodeCoord c.coord⟩).map
          (Option.map (WireValue.fromValue env.chrono))
      else none := by
  rw [feedWrites_loggedEdits]
  split
  · rename_i hc
    have h := lastValue_map feedCell_injective (Option.map (WireValue.fromValue env.chrono))
      edits ⟨⟨c.measure⟩, decodeCoord c.coord⟩
    rw [hc.feedCell_eq] at h
    exact h
  · rename_i hc
    rw [lastValue_eq_none_iff, List.map_map]
    intro hmem
    obtain ⟨w, _, hw⟩ := List.mem_map.mp hmem
    apply hc
    rw [← hw]
    exact FeedCell.canonical_feedCell _

/-- The cells shown after a batch are those before it with what it and its round
logged written over them. -/
theorem cellValue_written (env : Env S E) {a b : Authority S E} {edits : Cells}
    {delta : RoundChanges}
    (hmodel : b.model = (setCells a.model edits).1)
    (hinput : ∀ w ∈ edits, ∃ x, a.model.measures.get? w.1.measure = some x ∧
      x.isDerived = false)
    (hderived : ∀ x ∈ delta, (a.model.measures.get? x.1).any Measure.isDerived = true)
    (hsnapshot : ∀ c : FeedCell, (b.snapshot ⟨c.measure⟩).lookup c.coord =
      (lastValue (roundWrites delta) c).getD ((a.snapshot ⟨c.measure⟩).lookup c.coord))
    (c : FeedCell) :
    cellValue env b c =
      (lastValue (feedWrites (loggedEdits env edits ++ loggedRound env delta)) c).getD
        (cellValue env a c) := by
  have happend : feedWrites (loggedEdits env edits ++ loggedRound env delta) =
      feedWrites (loggedEdits env edits) ++ feedWrites (loggedRound env delta) :=
    List.map_append
  have hround : lastValue (feedWrites (loggedRound env delta)) c =
      (lastValue (roundWrites delta) c).map (Option.map (WireValue.ofCell env.chrono)) := by
    rw [feedWrites_loggedRound]
    exact lastValue_map Function.injective_id _ _ c
  have hedits := lastValue_loggedEdits env edits c
  have hmeasures : b.model.measures = a.model.measures := by rw [hmodel]; rfl
  -- the round names derived measures alone, and the batch inputs alone
  have hnotRound : (a.model.measures.get? ⟨c.measure⟩).any Measure.isDerived = false →
      lastValue (roundWrites delta) c = none := by
    intro hnot
    rw [lastValue_eq_none_iff]
    intro hmem
    obtain ⟨w, hw, rfl⟩ := List.mem_map.mp hmem
    obtain ⟨x, hx, hwx⟩ := List.mem_flatMap.mp hw
    obtain ⟨ch, _, rfl⟩ := List.mem_map.mp hwx
    rw [hderived x hx] at hnot
    cases hnot
  have hnotEdits : (∀ x, a.model.measures.get? ⟨c.measure⟩ = some x → x.isDerived = true) →
      lastValue edits ⟨⟨c.measure⟩, decodeCoord c.coord⟩ = none := by
    intro hnot
    rw [lastValue_eq_none_iff]
    intro hmem
    obtain ⟨w, hw, hkey⟩ := List.mem_map.mp hmem
    obtain ⟨x, hx, hxd⟩ := hinput w hw
    rw [hkey] at hx
    rw [hnot x hx] at hxd
    cases hxd
  rw [happend, lastValue_append, hround, hedits]
  unfold cellValue
  rw [hmeasures]
  cases hx : a.model.measures.get? ⟨c.measure⟩ with
  | none =>
      rw [hnotRound (by rw [hx]; rfl), hnotEdits (by rw [hx]; simp)]
      simp
  | some x =>
      simp only [Option.bind_some]
      cases hd : x.isDerived with
      | true =>
          rw [hnotEdits (by rw [hx]; intro y hy; cases hy; exact hd)]
          simp only [Bool.true_or, if_true, shownValue, hd, hsnapshot c, Option.map_none, ite_self,
            Option.or_none]
          cases lastValue (roundWrites delta) c <;> rfl
      | false =>
          rw [hnotRound (by rw [hx]; exact hd)]
          simp only [Bool.false_or, decide_eq_true_eq, shownValue, hd, Option.map_none,
            Option.none_or, Bool.false_eq_true, if_false]
          split
          · rw [hmodel]
            simp only [setCells, get?_writeAll]
            cases lastValue edits ⟨⟨c.measure⟩, decodeCoord c.coord⟩ <;> rfl
          · rfl

/-! ## The log after a batch -/

theorem loggedRound_nil : loggedRound env [] = [] := rfl

theorem pushLog_log (a : Authority S E)
    (cells : Option (List (MeasureId × CoordKey × Option WireValue))) :
    ∃ n, (a.pushLog cells).log =
      (a.log ++ [Logged.mk (a.pushLog cells).version cells]).drop n := by
  have hversion : (a.pushLog cells).version = a.version := by
    unfold version
    rw [pushLog_tx]
  refine ⟨(a.log ++ [Logged.mk a.version cells]).length - logDepth, ?_⟩
  rw [hversion]
  unfold pushLog
  simp only

theorem cellValue_congr {a b : Authority S E} (hmodel : b.model = a.model)
    (hsnapshot : b.snapshot = a.snapshot) (c : FeedCell) :
    cellValue env b c = cellValue env a c := by
  unfold cellValue shownValue
  rw [hmodel, hsnapshot]

/-- A batch written and saved, published: its cells logged or a reload, and the
engine live. -/
theorem publishEdits_move (he : LawfulEngine env.engine) {a c : Authority S E} {edits : Cells}
    (hkeyed : Keyed a.model) (hlive : Live he a)
    (hinput : ∀ w ∈ edits, ∃ x, a.model.measures.get? w.1.measure = some x ∧
      x.isDerived = false)
    (hmodel : c.model = (setCells a.model edits).1) (hengine : c.engine = a.engine)
    (hsnapshot : c.snapshot = a.snapshot) (hlog : c.log = a.log) :
    Move env a (publishEdits env edits c) ∧ Live he (publishEdits env edits c) := by
  have hmeasures : c.model.measures = a.model.measures := by rw [hmodel]; rfl
  have hstructure : c.model.structureOf = a.model.structureOf := by rw [hmodel]; rfl
  unfold publishEdits
  cases hc : c.engine with
  | none =>
      obtain ⟨n, hn⟩ := pushLog_log c (some (loggedEdits env edits))
      refine ⟨.cells (loggedEdits env edits) n ?_ ?_ ?_, ?_⟩
      · rw [pushLog_model, hstructure]
      · rw [← hlog]
        exact hn
      · intro d
        have hvalues : cellValue env c d =
            (lastValue (feedWrites (loggedEdits env edits ++ loggedRound env [])) d).getD
              (cellValue env a d) :=
          cellValue_written env hmodel hinput (by simp) (by intro d; rw [hsnapshot]; rfl) d
        rw [loggedRound_nil, List.append_nil] at hvalues
        rw [← hvalues]
        exact cellValue_congr (pushLog_model _ _) (pushLog_snapshot _ _) d
      · intro e hengine'
        rw [pushLog_engine, hc] at hengine'
        cases hengine'
  | some e =>
      obtain ⟨hshows, htracked⟩ := hlive e (hengine.symm.trans hc)
      simp only
      cases hround : round env e (feed c.model edits) with
      | error err =>
          obtain ⟨n, hn⟩ := pushLog_log (rebuild env c) none
          have hrebuilt : (rebuild env c).log = a.log := by
            rw [← hlog]
            unfold rebuild
            split <;> rfl
          rw [hrebuilt] at hn
          refine ⟨.reload n hn, ?_⟩
          have hkeyed' : Keyed c.model := by
            rw [← keyed_structureOf, hstructure, keyed_structureOf]
            exact hkeyed
          have hlive' : Live he (rebuild env c) := rebuild_live hkeyed'
          unfold Live
          rw [pushLog_engine, pushLog_snapshot, pushLog_model]
          exact hlive'
      | ok p =>
          obtain ⟨delta, e', s'⟩ := p
          unfold round at hround
          split at hround
          · cases hround
          · rename_i delta' e'' happly
            split at hround
            · cases hround
            · rename_i s'' hshows'
              cases hround
              obtain ⟨hkept, hdelta, hvalues⟩ := he.applyDelta _ _ _ _ _ _ happly hshows hshows'
              have hwritten : ∀ d, cellValue env { c with engine := some e', snapshot := s' } d =
                  (lastValue (feedWrites (loggedEdits env edits ++ loggedRound env delta)) d).getD
                    (cellValue env a d) :=
                cellValue_written env hmodel hinput (fun x hx => htracked _ (hdelta x hx)) hvalues
              obtain ⟨n, hn⟩ := pushLog_log { c with engine := some e', snapshot := s' }
                (some (loggedEdits env edits ++ loggedRound env delta))
              refine ⟨.cells (loggedEdits env edits ++ loggedRound env delta) n ?_ ?_ ?_, ?_⟩
              · rw [pushLog_model]
                exact hstructure
              · rw [← hlog]
                exact hn
              · intro d
                rw [← hwritten d]
                exact cellValue_congr (pushLog_model _ _) (pushLog_snapshot _ _) d
              · intro e₁ he₁
                rw [pushLog_engine] at he₁
                obtain rfl : e' = e₁ := Option.some.inj he₁
                rw [pushLog_snapshot, pushLog_model]
                refine ⟨hshows', fun id hid => ?_⟩
                have hm := htracked id (hkept id hid)
                rw [← hmeasures] at hm
                exact hm

/-- What the engine shows after a batch depends on the engine, the model and
what it showed before. -/
theorem publishEdits_snapshot {a c : Authority S E} (edits : Cells) (hmodel : c.model = a.model)
    (hengine : c.engine = a.engine) (hsnapshot : c.snapshot = a.snapshot) :
    (publishEdits env edits c).snapshot = (publishEdits env edits a).snapshot := by
  unfold publishEdits
  rw [hengine, hmodel]
  cases a.engine with
  | none =>
      simp only [pushLog_snapshot]
      exact hsnapshot
  | some e =>
      simp only
      cases round env e (feed a.model edits) with
      | ok p => simp only [pushLog_snapshot]
      | error err =>
          simp only [pushLog_snapshot, rebuild, hmodel]
          cases buildEngine env a.model <;> rfl

theorem publishEdits_standing (env : Env S E) (edits : Cells) (a : Authority S E) :
    (publishEdits env edits a).tx = a.tx ∧ (publishEdits env edits a).world = a.world := by
  have hrebuild : (rebuild env a).tx = a.tx ∧ (rebuild env a).world = a.world := by
    unfold rebuild
    split <;> exact ⟨rfl, rfl⟩
  unfold publishEdits
  simp only
  split
  · simp
  · split
    · simp
    · simpa using hrebuild

end Authority

end Improv.Service
