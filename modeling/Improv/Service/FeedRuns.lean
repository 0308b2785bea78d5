import Improv.Service.FeedPublish
/-!
# Every step proceeds

The condition a step is to meet so that the change feed stays right, and that a
step which meets it proceeds: a refresh, a batch, an adopted structure, and a
step taken back.
-/

namespace Improv.Service

open Improv.Lib Improv.CoreModel Improv.Engine WriteBatch

namespace Authority

variable {S E : Type} (env : Env S E)

/-! ## What a step is to meet -/

/-- A batch whose save is refused is taken back, and a batch that leaves every
cell as it was leaves the derived ones. -/
def CleanBatch (edits : Cells) (a : Authority S E) : Prop :=
  (SaveRefused env edits a → TakenBack a.model.inputs edits) ∧
    ((setCells a.model edits).1 = a.model → (publishEdits env edits a).snapshot = a.snapshot)

/-- A structure that leaves the model as it was leaves the derived cells. -/
def CleanAdopt (candidate : Model) (restore : Cells) (a : Authority S E) : Prop :=
  let m := (fitCells candidate a.model.inputs restore).1
  m = a.model → ∀ engine snapshot, buildEngine env m = .ok (engine, snapshot) →
    snapshot = a.snapshot

/-- A step of a session taken back changes cells cleanly. -/
def CleanStep (who : Principal) (redo : Bool) (step : Step) (a : Authority S E) : Prop :=
  match step with
  | .structural before dropped => CleanAdopt env before dropped a
  | .cells before after => ∀ checked,
      checkEdits env who a 0 ((if redo then after else before).map (backEdit env)) =
        .ok checked → CleanBatch env checked a

/-- An event changes cells cleanly. -/
def Clean (a : Authority S E) : Event → Prop
  | .refresh | .record .. => True
  | .attempt who edits => ∀ checked, checkEdits env who a 0 edits = .ok checked →
      CleanBatch env checked a
  | .change who _ req => ∀ c message id, plan env who req a = .ok (c, message, id) →
      CleanAdopt env c [] a
  | .undo who session redo => ∀ step rest, source (a.sessions session) redo = step :: rest →
      CleanStep env who redo step
        (setStacks session (popStacks (a.sessions session) redo) a)

variable {env} {hs : LawfulStore env.store} {he : LawfulEngine env.engine}

/-! ## Every step proceeds -/

theorem names_setCells (m : Model) (edits : Cells) :
    (ChangeSet.mk (edits.map (·.1)) false).Names m (setCells m edits).1 := by
  refine ⟨fun c hc => ?_, fun _ => rfl⟩
  by_contra hnot
  apply hc
  have hnone : lastValue edits c = none := lastValue_eq_none_iff.mpr hnot
  simp only [setCells, get?_writeAll, hnone, Option.getD_none]

theorem names_changesBetween (old new : Model) : (changesBetween old new).Names old new := by
  refine ⟨fun c hc => ?_, fun h => ?_⟩
  · unfold changesBetween
    simp only [List.mem_append, SortedMap.mem_keys_iff, SortedMap.contains_filter]
    cases hnew : new.inputs.get? c with
    | some v =>
        left
        simpa [hnew] using hc
    | none =>
        right
        cases hold : old.inputs.get? c with
        | none => simp [hold, hnew] at hc
        | some v => simp [SortedMap.contains, hnew]
  · simpa [changesBetween] using h

theorem applyCells_proceeds {edits : Cells} {a : Authority S E} (hstore : AtStore hs a)
    (hlive : Live he a) (hkeyed : Keyed a.model)
    (hinput : ∀ w ∈ edits, ∃ x, a.model.measures.get? w.1.measure = some x ∧
      x.isDerived = false)
    (hclean : CleanBatch env edits a) : Proceeds hs he a (applyCells env edits a).state := by
  have hlater := save_later hs (setCells a.model edits).1 ⟨edits.map (·.1), false⟩
    { a with model := (setCells a.model edits).1 }
  cases hsave : save env (setCells a.model edits).1 ⟨edits.map (·.1), false⟩
      { a with model := (setCells a.model edits).1 } with
  | error r b =>
      rw [hsave] at hlater
      have happly : applyCells env edits a =
          .error r { b with model := (setCells b.model (setCells a.model edits).2).1 } := by
        unfold applyCells
        simp only [hsave]
      have hk := applyCells_error happly
      have htaken := hclean.1 ⟨r, b, hsave⟩
      rw [← rolledBack_eq_iff] at htaken
      rw [htaken] at hk
      rw [happly]
      exact .of_kept hstore hlive hk hlater
  | ok _ c =>
      rw [hsave] at hlater
      have happly : (applyCells env edits a).state = publishEdits env edits c := by
        unfold applyCells
        simp only [hsave]
        rfl
      have hk := save_ok hsave
      obtain ⟨hmove, hlive'⟩ := publishEdits_move he hkeyed hlive hinput hk.model
        hk.engine hk.snapshot hk.log
      obtain ⟨htx, hworld⟩ := publishEdits_standing env edits c
      have hmodel := (publishEdits_kept env edits c).1.trans hk.model
      obtain ⟨t, hat, hle, hcontent⟩ := hstore
      obtain ⟨t', hct, hlow, hhigh, hcontent', hstay⟩ := save_atStore hsave hat hle hcontent
        (names_setCells a.model edits)
      rw [happly]
      refine ⟨hmove, ?_, ⟨t', htx.trans hct, ?_, ?_⟩, hlive'⟩
      · intro u hu
        obtain rfl : t = u := Option.some.inj (hat.symm.trans hu)
        refine ⟨t', htx.trans hct, hlow, fun heq => ?_⟩
        have hsame := (hstay heq).symm
        have hcmodel : c.model = a.model := hk.model.trans hsame
        refine ⟨hmodel.trans hsame, ?_⟩
        rw [publishEdits_snapshot edits hcmodel hk.engine hk.snapshot]
        exact hclean.2 hsame
      · rw [hworld]
        exact hhigh
      · rw [hworld, hmodel]
        exact hcontent'

theorem adopt_proceeds {candidate : Model} {restore : Cells} {a : Authority S E}
    (hstore : AtStore hs a) (hlive : Live he a) (hkeyed : Keyed candidate)
    (hclean : CleanAdopt env candidate restore a) :
    Proceeds hs he a (adopt env candidate restore a).state := by
  have hlater := save_later hs (fitCells candidate a.model.inputs restore).1
    (changesBetween a.model (fitCells candidate a.model.inputs restore).1) a
  unfold adopt
  simp only
  cases hbuild : buildEngine env (fitCells candidate a.model.inputs restore).1 with
  | error e => exact .of_kept hstore hlive (.refl a) (.refl _)
  | ok p =>
      obtain ⟨engine, snapshot⟩ := p
      simp only
      cases hsave : save env (fitCells candidate a.model.inputs restore).1
          (changesBetween a.model (fitCells candidate a.model.inputs restore).1) a with
      | error r b =>
          rw [hsave] at hlater
          exact .of_kept hstore hlive (save_error hsave) hlater
      | ok _ b =>
          have hk := save_ok hsave
          obtain ⟨t, hat, hle, hcontent⟩ := hstore
          obtain ⟨t', hbt, hlow, hhigh, hcontent', hstay⟩ := save_atStore hsave hat hle hcontent
            (names_changesBetween _ _)
          obtain ⟨n, hn⟩ := pushLog_log { b with
            model := (fitCells candidate a.model.inputs restore).1
            structureVersion := b.structureVersion + 1
            engine
            snapshot } none
          have hfitted : Keyed (fitCells candidate a.model.inputs restore).1 := by
            rw [← keyed_structureOf, structureOf_fitCells, keyed_structureOf]
            exact hkeyed
          refine ⟨.reload n ?_, ?_, ⟨t', ?_, ?_, ?_⟩, ?_⟩
          · simp only [Outcome.state]
            rw [hn, ← hk.log]
          · intro u hu
            obtain rfl : t = u := Option.some.inj (hat.symm.trans hu)
            refine ⟨t', ?_, hlow, fun heq => ?_⟩
            · simp only [Outcome.state, pushLog_tx]
              exact hbt
            · simp only [Outcome.state, pushLog_model, pushLog_snapshot]
              exact ⟨(hstay heq).symm, hclean (hstay heq).symm engine snapshot hbuild⟩
          · simp only [Outcome.state, pushLog_tx]
            exact hbt
          · simp only [Outcome.state, pushLog_world]
            exact hhigh
          · simp only [Outcome.state, pushLog_world, pushLog_model]
            exact hcontent'
          · intro e he'
            simp only [Outcome.state, pushLog_engine] at he'
            simp only [Outcome.state, pushLog_snapshot, pushLog_model]
            exact buildEngine_live hfitted hbuild e he'

/-- A state loaded stands at the store, at a transaction the clock passed. -/
theorem reload_standing {a c : Authority S E} (h : reload env a = .ok () c) :
    (∃ t, c.tx = some t ∧ hs.clock a.world ≤ t) ∧ AtStore hs c ∧ Live he c ∧
      Keyed c.model ∧ c.log = a.log := by
  obtain ⟨b, m, tx, world, hopen, hload, rfl⟩ := reload_ok h
  obtain ⟨hkeyed, t', rfl, hlow, hhigh, hcontent⟩ := hs.loaded _ _ _ _ hload
  have hlater := openStore_later hs a
  rw [hopen] at hlater
  have hstanding : ∀ d : Authority S E, (rebuild env d).tx = d.tx ∧
      (rebuild env d).world = d.world ∧ (rebuild env d).log = d.log := by
    intro d
    unfold rebuild
    split <;> exact ⟨rfl, rfl, rfl⟩
  refine ⟨⟨t', (hstanding _).1, hlater.clock.trans hlow⟩, ⟨t', (hstanding _).1, ?_, ?_⟩,
    rebuild_live hkeyed, ?_, ?_⟩
  · rw [(hstanding _).2.1]
    exact hhigh
  · rw [(hstanding _).2.1, rebuild_model]
    exact hcontent
  · rw [rebuild_model]
    exact hkeyed
  · rw [(hstanding _).2.2]
    exact (openStore_ok hopen).log

/-- Loaded where the store had moved, the state is later than before. -/
theorem reload_noEarlier {a c : Authority S E} {t hw : Int} (htx : a.tx = some t) (hne : hw ≠ t)
    (hle : t ≤ hw) (hhw : hw ≤ hs.clock a.world) (h : reload env a = .ok () c) :
    NoEarlier a c := by
  obtain ⟨b, m, tx, world, hopen, hload, rfl⟩ := reload_ok h
  obtain ⟨_, t', rfl, hlow, _, _⟩ := hs.loaded _ _ _ _ hload
  have hlater := openStore_later hs a
  rw [hopen] at hlater
  have hclock : hs.clock a.world ≤ hs.clock b.world := hlater.clock
  intro u hu
  obtain rfl : t = u := Option.some.inj (htx.symm.trans hu)
  refine ⟨t', ?_, by omega, fun heq => ?_⟩
  · unfold rebuild
    split <;> rfl
  · omega

theorem refresh_proceeds {a : Authority S E} (hstore : AtStore hs a) (hlive : Live he a) :
    Proceeds hs he a (refresh env a).state := by
  have hopen := openStore_later hs { a with probes := a.probes + 1 }
  have hkprobe : Kept a { a with probes := a.probes + 1 } :=
    ⟨rfl, rfl, rfl, rfl, rfl, rfl, rfl, rfl⟩
  unfold refresh
  cases ho : openStore env { a with probes := a.probes + 1 } with
  | error r b =>
      rw [ho] at hopen
      exact .of_kept hstore hlive (hkprobe.trans (openStore_error ho)) hopen
  | ok _ b =>
      rw [ho] at hopen
      have hk := hkprobe.trans (openStore_ok ho)
      have hmark := hs.txHighWater b.world
      cases hhigh : env.store.txHighWater b.world with
      | mk answer world =>
          rw [hhigh] at hmark
          have hlater := hopen.trans hmark
          cases answer with
          | error e =>
              simp only [hhigh]
              have hk' : Kept a { b with world, store := false } :=
                ⟨hk.model, hk.tx, hk.engine, hk.snapshot, hk.log, hk.sessions,
                  hk.structureVersion, hk.loads⟩
              exact .of_kept hstore hlive hk' hlater
          | ok hw =>
              simp only [hhigh]
              have hk' : Kept a { b with world } :=
                ⟨hk.model, hk.tx, hk.engine, hk.snapshot, hk.log, hk.sessions,
                  hk.structureVersion, hk.loads⟩
              by_cases heq : some hw = b.tx
              · rw [if_pos heq]
                exact .of_kept hstore hlive hk' hlater
              · rw [if_neg heq]
                have hreload := reload_later hs { b with world }
                cases hr : reload env { b with world } with
                | error r c =>
                    rw [hr] at hreload
                    exact .of_kept hstore hlive (hk'.trans (reload_error hr))
                      (hlater.trans hreload)
                | ok _ c =>
                    obtain ⟨t, hat, hle, _⟩ := hstore
                    have hbt : b.tx = some t := hk.tx.trans hat
                    have hbounds := hs.highWater _ _ _ hhigh
                    have hclock : hs.clock a.world ≤ hs.clock b.world := hopen.clock
                    have hne : hw ≠ t := fun h => heq (by rw [hbt, h])
                    have hearlier : NoEarlier { b with world } c :=
                      reload_noEarlier hbt hne (by omega) hbounds.2 hr
                    obtain ⟨_, hatStore, hlive', _, hlog⟩ := reload_standing hr
                    obtain ⟨n, hn⟩ := pushLog_log c none
                    rw [hlog.trans hk.log] at hn
                    refine ⟨.reload n hn, ?_, ?_, ?_⟩
                    · intro u hu
                      obtain ⟨t', ht', hlow, hsame⟩ := hearlier u (hk.tx.trans hu)
                      refine ⟨t', ?_, hlow, fun heq' => ?_⟩
                      · rw [Outcome.state, pushLog_tx]
                        exact ht'
                      · rw [Outcome.state, pushLog_model, pushLog_snapshot]
                        obtain ⟨hm, hsnap⟩ := hsame heq'
                        exact ⟨hm.trans hk.model, hsnap.trans hk.snapshot⟩
                    · unfold AtStore
                      rw [Outcome.state, pushLog_tx, pushLog_world, pushLog_model]
                      exact hatStore
                    · unfold Live
                      rw [Outcome.state, pushLog_engine, pushLog_snapshot, pushLog_model]
                      exact hlive'

theorem takeBack_proceeds {who : Principal} {redo : Bool} {top : Step} {a : Authority S E}
    (hstore : AtStore hs a) (hlive : Live he a) (hkeyed : Keyed a.model)
    (htop : ∀ before dropped, top = .structural before dropped → Keyed before)
    (hclean : CleanStep env who redo top a) :
    Proceeds hs he a (takeBack env who redo top a).state := by
  have hstay : Proceeds hs he a a := .of_kept hstore hlive (.refl a) (.refl _)
  unfold takeBack
  cases top with
  | structural before dropped =>
      simp only
      split
      · exact hstay
      · have hadopt := adopt_proceeds hstore hlive (htop before dropped rfl) hclean
        split <;> (rename_i heq; rw [heq] at hadopt; exact hadopt)
  | cells before after =>
      simp only
      split
      · exact hstay
      · rename_i checked hchecked
        have happly := applyCells_proceeds hstore hlive hkeyed (checkEdits_input hchecked)
          (hclean checked hchecked)
        split <;> (rename_i heq; rw [heq] at happly; exact happly)

/-- Every step of a run that meets its condition proceeds. -/
theorem step_proceeds {a : Authority S E} {e : Event} (hstore : AtStore hs a) (hlive : Live he a)
    (hkeyed : AllStructures Keyed a) (hclean : Clean env a e) :
    Proceeds hs he a (step env a e) := by
  have hstay : Proceeds hs he a a := .of_kept hstore hlive (.refl a) (.refl _)
  cases e with
  | refresh => exact refresh_proceeds hstore hlive
  | attempt who edits =>
      simp only [step]
      split
      · exact hstay
      · rename_i checked hchecked
        exact applyCells_proceeds hstore hlive hkeyed.model (checkEdits_input hchecked)
          (hclean checked hchecked)
  | record session before after =>
      exact hstay.setStacks session _
  | change who session req =>
      simp only [step, changeStructure]
      cases hplan : plan env who req a with
      | error r => exact hstay
      | ok p =>
          obtain ⟨candidate, message, id⟩ := p
          have hadopt := adopt_proceeds hstore hlive (hkeyed.model.plan hplan)
            (hclean candidate message id hplan)
          simp only
          cases had : adopt env candidate [] a with
          | error r b =>
              rw [had] at hadopt
              exact hadopt
          | ok q b =>
              rw [had] at hadopt
              exact hadopt.setStacks session _
  | undo who session redo =>
      simp only [step]
      cases hs' : source (a.sessions session) redo with
      | nil =>
          rw [undo_nil who hs']
          exact hstay
      | cons top rest =>
          have htop : ∀ before dropped, top = .structural before dropped → Keyed before := by
            intro before dropped heq
            apply hkeyed.steps session redo before dropped
            rw [hs', heq]
            exact List.mem_cons_self
          have htaken : Proceeds hs he (setStacks session (popStacks (a.sessions session) redo) a)
              (takeBack env who redo top
                (setStacks session (popStacks (a.sessions session) redo) a)).state :=
            takeBack_proceeds hstore hlive hkeyed.model htop (hclean top rest hs')
          unfold undo
          simp only [hs']
          cases ht : takeBack env who redo top
              (setStacks session (popStacks (a.sessions session) redo) a) with
          | error r b =>
              rw [ht] at htaken
              exact htaken.of_setStacks
          | ok t b =>
              rw [ht] at htaken
              exact htaken.of_setStacks.setStacks session _

end Authority

end Improv.Service
