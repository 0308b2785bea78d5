import Improv.Service.Serve
import Improv.Service.Runs
/-!
# Properties of structures

The structures an authority can come to are the model's own, those its undo and
redo steps keep, those a request plans and those the store loads.  A property
that plans and loads have holds of every one of them in every run.  The first
such property: each thing stands under its id.
-/

namespace Improv.Service

open Improv.Lib Improv.CoreModel Improv.Engine

namespace Authority

variable {S E : Type}

/-- A property holds of the model and of every structure a session can go back
or on to. -/
structure AllStructures (Q : Model → Prop) (a : Authority S E) : Prop where
  model : Q a.model
  steps : ∀ session redo before dropped,
    Step.structural before dropped ∈ source (a.sessions session) redo → Q before

variable {env : Env S E} {Q : Model → Prop}

theorem AllStructures.of_structureOf {a b : Authority S E} (h : AllStructures Q a)
    (hQ : ∀ m, Q m.structureOf ↔ Q m) (hmodel : b.model.structureOf = a.model.structureOf)
    (hsessions : b.sessions = a.sessions) : AllStructures Q b := by
  refine ⟨?_, ?_⟩
  · rw [← hQ, hmodel, hQ]
    exact h.model
  · rw [hsessions]
    exact h.steps

/-- Whatever a session's stacks become, their steps are ones it had, or one
that keeps a structure with the property. -/
theorem AllStructures.setStacks {a : Authority S E} (h : AllStructures Q a) {session : String}
    {s : Stacks}
    (hs : ∀ redo before dropped, Step.structural before dropped ∈ source s redo →
      Step.structural before dropped ∈ source (a.sessions session) redo ∨ Q before) :
    AllStructures Q (Authority.setStacks session s a) := by
  refine ⟨h.model, fun session' redo before dropped hmem => ?_⟩
  by_cases heq : session' = session
  · subst heq
    simp only [Authority.setStacks, Function.update_self] at hmem
    rcases hs redo before dropped hmem with hold | hnew
    · exact h.steps _ _ _ _ hold
    · exact hnew
  · simp only [Authority.setStacks, Function.update_of_ne heq] at hmem
    exact h.steps _ _ _ _ hmem

theorem AllStructures.record {a : Authority S E} (h : AllStructures Q a) {session : String}
    {step : Step} (hstep : ∀ before dropped, step = .structural before dropped → Q before) :
    AllStructures Q (Authority.record session step a) := by
  refine h.setStacks fun redo before dropped hmem => ?_
  cases redo with
  | true => simp [source] at hmem
  | false =>
      have hmem := List.mem_of_mem_take hmem
      rcases List.mem_cons.mp hmem with heq | hold
      · exact .inr (hstep before dropped heq.symm)
      · exact .inl hold

theorem AllStructures.popStacks {a : Authority S E} (h : AllStructures Q a) (session : String)
    (redo : Bool) :
    AllStructures Q (Authority.setStacks session
      (Authority.popStacks (a.sessions session) redo) a) := by
  refine h.setStacks fun redo' before dropped hmem => .inl ?_
  cases redo <;> cases redo' <;> simp only [Authority.popStacks, source, if_true, if_false,
    Bool.false_eq_true] at hmem ⊢
  · exact List.mem_of_mem_tail hmem
  · exact hmem
  · exact hmem
  · exact List.mem_of_mem_tail hmem

theorem AllStructures.pushStacks {a : Authority S E} (h : AllStructures Q a) (session : String)
    (redo : Bool) {step : Step}
    (hstep : ∀ before dropped, step = .structural before dropped → Q before) :
    AllStructures Q (Authority.setStacks session
      (Authority.pushStacks (a.sessions session) redo step) a) := by
  refine h.setStacks fun redo' before dropped hmem => ?_
  cases redo <;> cases redo' <;> simp only [Authority.pushStacks, source, if_true, if_false,
    Bool.false_eq_true] at hmem ⊢
  · exact .inl hmem
  · rcases List.mem_cons.mp hmem with heq | hold
    · exact .inr (hstep before dropped heq.symm)
    · exact .inl hold
  · rcases List.mem_cons.mp hmem with heq | hold
    · exact .inr (hstep before dropped heq.symm)
    · exact .inl hold
  · exact .inl hmem

/-- An adopted structure with the property, which the replaced one had too. -/
theorem AllStructures.adopt {a b : Authority S E} (h : AllStructures Q a)
    (hQ : ∀ m, Q m.structureOf ↔ Q m) {candidate previous : Model} {restore dropped : Cells}
    (hcandidate : Q candidate)
    (hadopt : adopt env candidate restore a = .ok (previous, dropped) b) :
    AllStructures Q b ∧ Q previous := by
  have had := adopt_ok hadopt
  refine ⟨⟨?_, ?_⟩, ?_⟩
  · rw [had.model, ← hQ, structureOf_fitCells, hQ]
    exact hcandidate
  · rw [had.sessions]
    exact h.steps
  · rw [had.previous, hQ]
    exact h.model

/-- An attempt at a batch moves no structure. -/
theorem applyCells_sessions (env : Env S E) (edits : Cells) (a : Authority S E) :
    (applyCells env edits a).state.sessions = a.sessions := by
  cases h : applyCells env edits a with
  | ok before b => exact (applyCells_ok h).2.2
  | error r b => exact (applyCells_error h).sessions

theorem AllStructures.applyCells (env : Env S E) {a : Authority S E} (h : AllStructures Q a)
    (hQ : ∀ m, Q m.structureOf ↔ Q m) (edits : Cells) :
    AllStructures Q (Authority.applyCells env edits a).state :=
  h.of_structureOf hQ (applyCells_structureOf env edits a) (applyCells_sessions env edits a)

theorem AllStructures.kept {a b : Authority S E} (h : AllStructures Q a)
    (hQ : ∀ m, Q m.structureOf ↔ Q m) (hk : Kept a b) : AllStructures Q b :=
  h.of_structureOf hQ (by rw [hk.model]) hk.sessions

/-- What a step taken back leaves, and the structure its inverse keeps. -/
theorem AllStructures.takeBack (env : Env S E) {a : Authority S E} (h : AllStructures Q a)
    (hQ : ∀ m, Q m.structureOf ↔ Q m) (who : Principal) (redo : Bool) {step : Step}
    (hstep : ∀ before dropped, step = .structural before dropped → Q before) :
    AllStructures Q (Authority.takeBack env who redo step a).state ∧
      ∀ t b before dropped, Authority.takeBack env who redo step a = .ok t b →
        t = .structural before dropped → Q before := by
  cases step with
  | cells before after =>
      unfold Authority.takeBack
      simp only
      split
      · refine ⟨h, ?_⟩
        intro t b _ _ ht
        cases ht
      · rename_i checked _
        have hcells := h.applyCells env hQ checked
        split
        · rename_i hc
          rw [hc] at hcells
          refine ⟨hcells, ?_⟩
          intro t b _ _ ht
          cases ht
        · rename_i hc
          rw [hc] at hcells
          refine ⟨hcells, ?_⟩
          intro t b _ _ ht hstructural
          cases ht
          cases hstructural
  | structural before dropped =>
      unfold Authority.takeBack
      simp only
      split
      · refine ⟨h, ?_⟩
        intro t b _ _ ht
        cases ht
      · cases hadopt : Authority.adopt env before dropped a with
        | error r b =>
            refine ⟨h.kept hQ (adopt_error hadopt), ?_⟩
            intro t b _ _ ht
            cases ht
        | ok q b =>
            obtain ⟨hb, hprevious⟩ := h.adopt hQ (hstep before dropped rfl) hadopt
            refine ⟨hb, ?_⟩
            intro t c before' dropped' ht hstructural
            cases ht
            cases hstructural
            exact hprevious

theorem reload_sessions {a b : Authority S E} (h : reload env a = .ok () b) :
    b.sessions = a.sessions := by
  obtain ⟨c, m, tx, world, hopen, _, rfl⟩ := reload_ok h
  rw [rebuild_sessions]
  exact (openStore_ok hopen).sessions

/-- What plans and loads have, every structure of a run has. -/
theorem step_allStructures (hQ : ∀ m, Q m.structureOf ↔ Q m)
    (hload : ∀ a b, reload env a = .ok () b → Q b.model) {a : Authority S E} {e : Event}
    (hplan : ∀ who session req c msg made, e = .change who session req →
      plan env who req a = .ok (c, msg, made) → Q c)
    (h : AllStructures Q a) : AllStructures Q (step env a e) := by
  cases e with
  | refresh =>
      cases hr : refresh env a with
      | error r b =>
          simp only [step, hr]
          exact h.kept hQ (refresh_error hr)
      | ok moved b =>
          simp only [step, hr]
          cases moved with
          | false => exact h.kept hQ (refresh_unmoved hr)
          | true =>
              obtain ⟨c, d, hk, hreload, rfl⟩ := refresh_moved hr
              refine ⟨?_, ?_⟩
              · rw [Outcome.state, pushLog_model]
                exact hload c d hreload
              · rw [Outcome.state, pushLog_sessions, reload_sessions hreload, hk.sessions]
                exact h.steps
  | attempt who edits =>
      simp only [step]
      split
      · exact h
      · exact h.applyCells env hQ _
  | record session before after =>
      refine h.record ?_
      intro _ _ hstep
      cases hstep
  | change who session req =>
      simp only [step, changeStructure]
      cases hp : plan env who req a with
      | error r => exact h
      | ok p =>
          obtain ⟨candidate, msg, made⟩ := p
          simp only
          cases hadopt : adopt env candidate [] a with
          | error r b => exact h.kept hQ (adopt_error hadopt)
          | ok q b =>
              obtain ⟨hb, hprevious⟩ := h.adopt hQ (hplan who session req _ _ _ rfl hp) hadopt
              refine hb.record ?_
              intro before dropped hstep
              cases hstep
              exact hprevious
  | undo who session redo =>
      simp only [step]
      cases hs : source (a.sessions session) redo with
      | nil =>
          rw [undo_nil who hs]
          exact h
      | cons top rest =>
          have htop : ∀ before dropped, top = .structural before dropped → Q before := by
            intro before dropped heq
            apply h.steps session redo before dropped
            rw [hs, heq]
            exact List.mem_cons_self
          obtain ⟨htaken, hinverse⟩ := (h.popStacks session redo).takeBack env hQ who
            redo htop
          unfold undo
          simp only [hs]
          cases ht : takeBack env who redo top
              (setStacks session (popStacks (a.sessions session) redo) a) with
          | error r b =>
              rw [ht] at htaken
              exact htaken
          | ok t b =>
              rw [ht] at htaken
              exact htaken.pushStacks session redo fun before dropped heq =>
                hinverse t b before dropped ht heq

end Authority

end Improv.Service
