import Mathlib
import Improv.Service.FeedRuns
import Improv.Service.UndoRedo
/-!
# The change feed

A transaction's number names one state of the cells, and a step logs what it
changes.  So the entries after one of a client's version lead from the client's
cells to those shown now, and the feed answers them, or a reload.
-/

namespace Improv.Service

open Improv.Lib Improv.CoreModel Improv.Engine WriteBatch

namespace Authority

variable {S E : Type} {env : Env S E} {hs : LawfulStore env.store}
  {he : LawfulEngine env.engine}

/-! ## Versions -/

theorem version_injective {a b : Authority S E} {t u : Int} (ha : a.tx = some t)
    (hb : b.tx = some u) (h : a.version = b.version) : t = u := by
  unfold version at h
  rw [ha, hb] at h
  exact Int.repr_injective h

/-- A later state of the same version shows the same cells. -/
theorem NoEarlier.same_of_version {a b : Authority S E} {t : Int} (h : NoEarlier a b)
    (ha : a.tx = some t) (hversion : a.version = b.version) :
    b.model = a.model ∧ b.snapshot = a.snapshot := by
  obtain ⟨u, hb, _, hsame⟩ := h t ha
  exact hsame (version_injective ha hb hversion).symm

/-! ## What the log says -/

/-- The last value the entries since a point of the log give a cell is the one
it has. -/
def LogCurrent (env : Env S E) (a : Authority S E) : Prop :=
  ∀ pre post ws, a.log = pre ++ post → logWrites post = some ws →
    ∀ c v, lastValue ws c = some v → cellValue env a c = v

/-- The entries after one of a client's version name every cell that changed
since, or a reload. -/
def ExplainedSince (env : Env S E) (s a : Authority S E) : Prop :=
  ∀ pre l post, a.log = pre ++ l :: post → l.version = s.version →
    logWrites post = none ∨
      ∃ ws, logWrites post = some ws ∧ a.model.structureOf = s.model.structureOf ∧
        ∀ c, lastValue ws c = none → cellValue env a c = cellValue env s c

/-- What ends a log that one entry was put on: that entry and what ended the log
before. -/
theorem log_suffix {log pre post : List Logged} {l : Logged} {n : Nat}
    (h : (log ++ [l]).drop n = pre ++ post) (hpost : post ≠ []) :
    ∃ pre' post', post = post' ++ [l] ∧ log = pre' ++ post' := by
  rcases List.eq_nil_or_concat post with hnil | ⟨post', l', rfl⟩
  · exact absurd hnil hpost
  · have hall : (log ++ [l]).take n ++ pre ++ post' ++ [l'] = log ++ [l] := by
      calc (log ++ [l]).take n ++ pre ++ post' ++ [l']
          = (log ++ [l]).take n ++ (pre ++ post'.concat l') := by
            simp only [List.concat_eq_append, List.append_assoc]
        _ = log ++ [l] := by rw [← h, List.take_append_drop]
    obtain ⟨hlog, hl⟩ := List.append_inj' hall rfl
    refine ⟨(log ++ [l]).take n ++ pre, post', ?_, hlog.symm⟩
    rw [List.concat_eq_append, hl]

/-- The same, as seen from an entry before it. -/
theorem log_split {log pre post : List Logged} {k l : Logged} {n : Nat}
    (h : (log ++ [k]).drop n = pre ++ l :: post) (hpost : post ≠ []) :
    ∃ pre' post', post = post' ++ [k] ∧ log = pre' ++ l :: post' := by
  obtain ⟨pre', post', hl, hlog⟩ := log_suffix h (by simp)
  cases post' with
  | nil =>
      simp only [List.nil_append, List.cons.injEq] at hl
      exact absurd hl.2 hpost
  | cons l' post' =>
      simp only [List.cons_append, List.cons.injEq] at hl
      exact ⟨pre', post', hl.2, by rw [hlog, hl.1]⟩

theorem Move.logCurrent {a b : Authority S E} (h : Move env a b) (ha : LogCurrent env a) :
    LogCurrent env b := by
  intro pre post ws hlog hws c v hv
  have hpost : post ≠ [] := by
    rintro rfl
    simp only [logWrites, Option.some.injEq] at hws
    rw [← hws] at hv
    cases hv
  cases h with
  | same model snapshot log =>
      rw [cellValue_congr model snapshot]
      exact ha pre post ws (log ▸ hlog) hws c v hv
  | cells cs n structureOf log values =>
      rw [log] at hlog
      obtain ⟨pre', post', rfl, hold⟩ := log_suffix hlog hpost
      rw [logWrites_append_cells rfl, Option.map_eq_some_iff] at hws
      obtain ⟨ws', hws', rfl⟩ := hws
      rw [lastValue_append] at hv
      rw [values]
      cases hcs : lastValue (feedWrites cs) c with
      | some u =>
          rw [hcs] at hv
          exact Option.some.inj hv
      | none =>
          rw [hcs, Option.none_or] at hv
          exact ha pre' post' ws' hold hws' c v hv
  | reload n log =>
      rw [log] at hlog
      obtain ⟨pre', post', rfl, hold⟩ := log_suffix hlog hpost
      rw [logWrites_append_reload rfl] at hws
      cases hws

/-- A state explains itself. -/
theorem explainedSince_self (s : Authority S E) : ExplainedSince env s s := by
  intro pre l post _ _
  cases hws : logWrites post with
  | none => exact .inl rfl
  | some ws => exact .inr ⟨ws, rfl, rfl, fun _ _ => rfl⟩

theorem Move.explainedSince {s a b : Authority S E} {t : Int} (h : Move env a b)
    (ht : s.tx = some t) (hsb : NoEarlier s b) (ha : ExplainedSince env s a) :
    ExplainedSince env s b := by
  intro pre l post hlog hversion
  -- the entry the step made itself, at the version it reached
  have hlast : ∀ {n : Nat} {cells}, b.log = (a.log ++ [Logged.mk b.version cells]).drop n →
      post = [] → ∃ ws, logWrites post = some ws ∧
        b.model.structureOf = s.model.structureOf ∧
        ∀ c, lastValue ws c = none → cellValue env b c = cellValue env s c := by
    rintro n cells hb rfl
    rw [hb] at hlog
    obtain ⟨pre', post', hl, _⟩ := log_suffix hlog (by simp)
    have hnil : post' = [] := by
      have hlength := congrArg List.length hl
      simpa using hlength.symm
    rw [hnil] at hl
    have hentry : l = Logged.mk b.version cells := by simpa using hl
    have hsame := hsb.same_of_version ht (by rw [← hversion, hentry])
    exact ⟨[], rfl, by rw [hsame.1], fun c _ => cellValue_congr hsame.1 hsame.2 c⟩
  cases h with
  | same model snapshot log =>
      rw [log] at hlog
      rcases ha pre l post hlog hversion with hnone | ⟨ws, hws, hstructure, hvalues⟩
      · exact .inl hnone
      · refine .inr ⟨ws, hws, by rw [model, hstructure], fun c hc => ?_⟩
        rw [cellValue_congr model snapshot]
        exact hvalues c hc
  | cells cs n structureOf log values =>
      by_cases hpost : post = []
      · exact .inr (hlast log hpost)
      · rw [log] at hlog
        obtain ⟨pre', post', rfl, hold⟩ := log_split hlog hpost
        rcases ha pre' l post' hold hversion with hnone | ⟨ws, hws, hstructure, hvalues⟩
        · left
          rw [logWrites_append_cells rfl, hnone]
          rfl
        · refine .inr ⟨ws ++ feedWrites cs, ?_, structureOf.trans hstructure, fun c hc => ?_⟩
          · rw [logWrites_append_cells rfl, hws]
            rfl
          · rw [lastValue_append, Option.or_eq_none_iff] at hc
            rw [values, hc.1]
            exact hvalues c hc.2
  | reload n log =>
      by_cases hpost : post = []
      · exact .inr (hlast log hpost)
      · rw [log] at hlog
        obtain ⟨_, post', rfl, _⟩ := log_split hlog hpost
        exact .inl (logWrites_append_reload rfl)

/-! ## Runs -/

/-- What every state of a run keeps. -/
structure Sound (hs : LawfulStore env.store) (he : LawfulEngine env.engine)
    (a : Authority S E) : Prop where
  atStore : AtStore hs a
  live : Live he a
  keyed : AllStructures Keyed a
  log : LogCurrent env a

theorem sound_withPolicy {world : S} {a : Authority S E}
    (h : withPolicy env world = .ok () a) : Sound hs he a := by
  unfold withPolicy at h
  simp only at h
  split at h
  · cases h
  · rename_i c hreload
    cases h
    have hstanding : _ ∧ AtStore hs c ∧ Live he c ∧ Keyed c.model ∧ c.log = _ :=
      reload_standing hreload
    obtain ⟨_, hstore, hlive, hkeyed, hlog⟩ := hstanding
    have hcurrent : LogCurrent env c := by
      intro pre post ws happ hws d v hv
      have hnil : post = [] := by
        rw [hlog] at happ
        exact (List.append_eq_nil_iff.mp happ.symm).2
      rw [hnil] at hws
      simp only [logWrites, Option.some.injEq] at hws
      rw [← hws] at hv
      cases hv
    obtain ⟨n, hn⟩ := pushLog_log c (some [])
    have hmove : Move env c (c.pushLog (some [])) := by
      refine .cells [] n (by rw [pushLog_model]) hn fun d => ?_
      exact cellValue_congr (pushLog_model _ _) (pushLog_snapshot _ _) d
    refine ⟨?_, ?_, ⟨?_, ?_⟩, hmove.logCurrent hcurrent⟩
    · unfold AtStore
      rw [pushLog_tx, pushLog_world, pushLog_model]
      exact hstore
    · unfold Live
      rw [pushLog_engine, pushLog_snapshot, pushLog_model]
      exact hlive
    · rw [pushLog_model]
      exact hkeyed
    · rw [pushLog_sessions, reload_sessions hreload]
      intro session redo before dropped hmem
      cases redo <;> simp [source, Stacks.empty] at hmem

theorem reload_keyed (hs : LawfulStore env.store) {a b : Authority S E}
    (h : reload env a = .ok () b) : Keyed b.model := by
  obtain ⟨c, m, tx, world, _, hload, rfl⟩ := reload_ok h
  rw [rebuild_model]
  exact (hs.loaded _ _ _ _ hload).1

/-- A step that meets its condition keeps it, and proceeds. -/
theorem Sound.step {a : Authority S E} {e : Event} (h : Sound hs he a) (hclean : Clean env a e) :
    Proceeds hs he a (step env a e) ∧ Sound hs he (step env a e) := by
  have hproceeds : Proceeds hs he a (Authority.step env a e) :=
    step_proceeds h.atStore h.live h.keyed hclean
  refine ⟨hproceeds, hproceeds.atStore, hproceeds.live, ?_, hproceeds.move.logCurrent h.log⟩
  refine step_allStructures keyed_structureOf (fun c d => reload_keyed hs) ?_ h.keyed
  intro who session req c msg made _ hplan
  exact h.keyed.model.plan hplan

/-- What a later state of a run knows of an earlier one. -/
structure Since (hs : LawfulStore env.store) (he : LawfulEngine env.engine)
    (s a : Authority S E) : Prop where
  sound : Sound hs he a
  noEarlier : NoEarlier s a
  explained : ExplainedSince env s a

theorem since_run {s : Authority S E} {es : List Event} (hsound : Sound hs he s)
    (hes : AllMeet env (Clean env) s es) : Since hs he s (run env s es) := by
  obtain ⟨t, ht, _⟩ := hsound.atStore
  refine run_invariant (I := Since hs he s) (fun a e ha hclean => ?_)
    ⟨hsound, .refl s, explainedSince_self s⟩ hes
  obtain ⟨hproceeds, hnext⟩ := ha.sound.step hclean
  have hlater := ha.noEarlier.trans hproceeds.noEarlier
  exact ⟨hnext, hlater, hproceeds.move.explainedSince ht hlater ha.explained⟩

/-! ## The answers -/

variable (env) in
/-- The answer to a client that read its cells at `s` is right at `a`: nothing
where none of its visible cells changed, or a reload, or cells it may see that
lead to the visible cells there are now. -/
def FeedRight (who : Principal) (s a : Authority S E) : Prop :=
  match changesSince env who s.version a with
  | none => visibleCells env who a = visibleCells env who s
  | some ev =>
    (ev.reload = true ∨ ev.applied (visibleCells env who s) = visibleCells env who a) ∧
      ∀ c ∈ ev.cells, seesFeedCell (gate env who a) ⟨c.measure, c.coord⟩ = true

/-- Two states of one structure show a principal cells of the same keys. -/
theorem seesFeedCell_congr (hpolicy : env.policy.IgnoresNumber) {s a : Authority S E}
    (hstructure : a.model.structureOf = s.model.structureOf) (who : Principal) (c : FeedCell) :
    seesFeedCell (gate env who a) c = seesFeedCell (gate env who s) c := by
  have hsession : env.policy.session a.model a.structureVersion who =
      env.policy.session s.model s.structureVersion who := by
    rw [← env.policy.session_structureOf, hstructure, env.policy.session_structureOf,
      hpolicy _ _ s.structureVersion]
  unfold seesFeedCell gate Gate.seesCell Gate.isOpen
  rw [hsession]

/-- The entries after one of a client's version lead from its visible cells to
those there are now. -/
theorem visibleWrites_lead (hpolicy : env.policy.IgnoresNumber) {s a : Authority S E}
    {ws : List (FeedCell × Option WireValue)} (who : Principal)
    (hstructure : a.model.structureOf = s.model.structureOf)
    (hsame : ∀ c, lastValue ws c = none → cellValue env a c = cellValue env s c)
    (hcurrent : ∀ c v, lastValue ws c = some v → cellValue env a c = v) (c : FeedCell) :
    ((visibleWrites (gate env who a) ws).get? c).getD (visibleCells env who s c) =
      visibleCells env who a c := by
  rw [get?_visibleWrites]
  unfold visibleCells
  rw [← seesFeedCell_congr hpolicy hstructure]
  cases hsees : seesFeedCell (gate env who a) c with
  | false => rfl
  | true =>
      simp only [if_true]
      cases hlast : lastValue ws c with
      | none => exact (hsame c hlast).symm
      | some v => exact (hcurrent c v hlast).symm

/-- The log from an entry of a version on. -/
theorem log_of_dropWhile {log later : List Logged} {l : Logged} {since : String}
    (h : (log.dropWhile fun l => l.version ≠ since) = l :: later) :
    l.version = since ∧ log = log.takeWhile (fun l => l.version ≠ since) ++ l :: later := by
  constructor
  · have hhead := List.head?_dropWhile_not (fun l : Logged => decide (l.version ≠ since)) log
    rw [h] at hhead
    simpa using hhead
  · rw [← h, List.takeWhile_append_dropWhile]

theorem feedRight_of_since (hpolicy : env.policy.IgnoresNumber) {s a : Authority S E}
    (h : Since hs he s a) {t : Int} (ht : s.tx = some t) (who : Principal) :
    FeedRight env who s a := by
  unfold FeedRight changesSince
  by_cases hversion : s.version = a.version
  · rw [if_pos hversion]
    obtain ⟨hmodel, hsnapshot⟩ := h.noEarlier.same_of_version ht hversion
    funext c
    unfold visibleCells
    rw [seesFeedCell_congr hpolicy (s := s) (by rw [hmodel]), cellValue_congr hmodel hsnapshot]
  · rw [if_neg hversion]
    cases hdrop : a.log.dropWhile fun l => l.version ≠ s.version with
    | nil => exact ⟨.inl rfl, by simp⟩
    | cons l later =>
        obtain ⟨hl, hlog⟩ := log_of_dropWhile hdrop
        simp only [changedCells_empty]
        rcases h.explained _ l later hlog hl with hnone | ⟨ws, hws, hstructure, hvalues⟩
        · rw [hnone]
          exact ⟨.inl rfl, by simp⟩
        · have hcurrent : ∀ c v, lastValue ws c = some v → cellValue env a c = v :=
            h.sound.log (a.log.takeWhile (fun l => l.version ≠ s.version) ++ [l]) later ws
              (by rw [List.append_assoc]; exact hlog) hws
          have hlead := visibleWrites_lead hpolicy who hstructure hvalues hcurrent
          rw [hws]
          simp only [Option.map_some]
          by_cases hentries : (visibleWrites (gate env who a) ws).entries = []
          · rw [if_pos hentries]
            funext c
            have hnone : (visibleWrites (gate env who a) ws).get? c = none := by
              rw [SortedMap.get?_eq_none_iff, SortedMap.keys, hentries]
              simp
            rw [← hlead c, hnone]
            rfl
          · rw [if_neg hentries]
            refine ⟨.inr ?_, ?_⟩
            · funext c
              rw [applied_entries]
              exact hlead c
            · intro c hc
              obtain ⟨p, hp, rfl⟩ := List.mem_map.mp hc
              exact sees_of_mem_visibleWrites hp

/-- In a run whose steps change cells cleanly, the feed keeps every client
right, whenever it read its cells and whenever it asks. -/
theorem changesSince_correct (hstore : LawfulStore env.store)
    (hengine : LawfulEngine env.engine) (hpolicy : env.policy.IgnoresNumber) {world : S}
    {a : Authority S E} (hopen : withPolicy env world = .ok () a) {es fs : List Event}
    (hmeet : AllMeet env (Clean env) a (es ++ fs)) (who : Principal) :
    FeedRight env who (run env a es) (run env (run env a es) fs) := by
  obtain ⟨hes, hfs⟩ := (allMeet_append a es fs).mp hmeet
  have hstart : Sound hstore hengine a := sound_withPolicy hopen
  have hread : Sound hstore hengine (run env a es) := (since_run hstart hes).sound
  obtain ⟨t, ht, _⟩ := hread.atStore
  exact feedRight_of_since hpolicy (since_run hread hfs) ht who

/-! ## A store with one writer -/

/-- A transaction's number and the model it left, each thing under its id. -/
abbrev Ledger : Type := { w : Int × Model // Keyed w.2 }

/-- A store that keeps what is saved over its last transaction. -/
def keeping : StoreApi Ledger where
  openStore w := (.ok (), w)
  txHighWater w := (.ok w.1.1, w)
  loadModel w := (.ok (w.1.2, some w.1.1), w)
  saveChanges tx m _ w :=
    if tx ≠ some w.1.1 then (.error (.conflict "another writer committed"), w)
    else if h : Keyed m then (.ok (some (w.1.1 + 1)), ⟨(w.1.1 + 1, m), h⟩)
    else (.error (.other "a thing under another id"), w)

def keeping_lawful : LawfulStore keeping where
  clock w := w.1.1
  content w := w.1.2
  openStore _ := .refl _
  txHighWater _ := .refl _
  loadModel _ := .refl _
  saveChanges tx m changes w := by
    unfold keeping
    simp only
    split
    · exact .refl _
    · split
      · refine ⟨?_, fun h => ?_⟩
        · simp
        · simp at h
      · exact .refl _
  highWater w hw w' h := by
    cases h
    exact ⟨le_refl _, le_refl _⟩
  loaded w m tx w' h := by
    cases h
    exact ⟨w.2, w.1.1, rfl, le_refl _, le_refl _, fun _ => rfl⟩
  saved t m changes w tx w' h := by
    unfold keeping at h
    simp only at h
    split at h
    · cases h
    · rename_i htx
      split at h
      · cases h
        refine ⟨by simpa using htx, w.1.1 + 1, rfl, by simp, le_refl _, fun _ => ?_⟩
        exact ⟨fun _ => rfl, fun heq => by simp at heq⟩
      · cases h

/-- No engine is asked for anything where no measure is derived. -/
def plain_lawful : LawfulEngine (plainEnv keeping).engine where
  tracked _ := []
  new _ _ _ _ h := by cases h
  applyDelta _ _ _ _ _ _ h := by cases h

theorem keyed_noteModel : Keyed noteModel := by decide +kernel

/-- A client that read the cell before it was set. -/
theorem changesSince_correct_once :
    FeedRight (plainEnv keeping) ⟨"bob", []⟩
      (opened ⟨(1, noteModel), keyed_noteModel⟩ noteModel)
      (step (plainEnv keeping) (opened ⟨(1, noteModel), keyed_noteModel⟩ noteModel)
        (.attempt ⟨"ann", []⟩ once.edits)) := by
  have hopen : withPolicy (plainEnv keeping) ⟨(1, noteModel), keyed_noteModel⟩ =
      .ok () (opened ⟨(1, noteModel), keyed_noteModel⟩ noteModel) := rfl
  have hclean : AllMeet (plainEnv keeping) (Clean (plainEnv keeping))
      (opened ⟨(1, noteModel), keyed_noteModel⟩ noteModel)
      ([] ++ [.attempt ⟨"ann", []⟩ once.edits]) := by
    refine ⟨fun checked hc => ?_, trivial⟩
    cases hc
    exact ⟨fun _ => takenBack_of_nodup _ (by simp), fun _ => pushLog_snapshot _ _⟩
  exact changesSince_correct keeping_lawful plain_lawful (fun _ _ _ _ => rfl) hopen hclean
    ⟨"bob", []⟩

/-- A store whose disk is full, holding a model. -/
def fullDiskOf (m : Model) : StoreApi Unit :=
  { fullDisk with loadModel := fun w => (.ok (m, some 1), w) }

/-- The refused batch changes the cell, and the feed answers that nothing
changed. -/
theorem changesSince_misses_rollback :
    ¬∀ (a : Authority Unit Unit) (es fs : List Event) (who : Principal),
      withPolicy (plainEnv (fullDiskOf noteModel)) () = .ok () a →
        FeedRight (plainEnv (fullDiskOf noteModel)) who
          (run (plainEnv (fullDiskOf noteModel)) a es)
          (run (plainEnv (fullDiskOf noteModel))
            (run (plainEnv (fullDiskOf noteModel)) a es) fs) := by
  intro h
  have hright := h (opened () noteModel) [] [.attempt ⟨"ann", []⟩ twice.edits] ⟨"bob", []⟩
    rfl
  have hnone : changesSince (plainEnv (fullDiskOf noteModel)) ⟨"bob", []⟩ "1"
      (step (plainEnv (fullDiskOf noteModel)) (opened () noteModel)
        (.attempt ⟨"ann", []⟩ twice.edits)) = none := by decide +kernel
  have hcells : visibleCells (plainEnv (fullDiskOf noteModel)) ⟨"bob", []⟩
      (step (plainEnv (fullDiskOf noteModel)) (opened () noteModel)
        (.attempt ⟨"ann", []⟩ twice.edits)) =
      visibleCells (plainEnv (fullDiskOf noteModel)) ⟨"bob", []⟩ (opened () noteModel) := by
    unfold FeedRight at hright
    rw [run_nil, run_cons, run_nil, show (opened () noteModel).version = "1" from rfl,
      hnone] at hright
    exact hright
  have hcell := congrFun hcells ⟨100, [(1, 10)]⟩
  revert hcell
  decide +kernel

end Authority

end Improv.Service
