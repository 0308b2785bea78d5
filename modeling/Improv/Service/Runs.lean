import Improv.Service.EditAtomic
import Improv.Service.Serve
/-!
# Runs

A run of the authority, broken at every point where its model may change: a
refresh, one attempt at a batch, the record of a batch, a structural request, an
undo or a redo, by any principal in any session.  Serving a request is a run of
these, so what every such run keeps, every sequence of requests keeps, and the
models a retried request passes through are states of the run too.
-/

namespace Improv.Service

open Improv.Lib Improv.CoreModel Improv.Engine

/-- One part of serving a request. -/
inductive Event
  | refresh
  | attempt (who : Principal) (edits : List CellEdit)
  | record (session : String) (before after : Cells)
  | change (who : Principal) (session : String) (req : Request)
  | undo (who : Principal) (session : String) (redo : Bool)

namespace Authority

variable {S E : Type} (env : Env S E)

/-- The state an event leaves. -/
def step (a : Authority S E) : Event → Authority S E
  | .refresh => (refresh env a).state
  | .attempt who edits =>
    match checkEdits env who a 0 edits with
    | .error _ => a
    | .ok checked => (applyCells env checked a).state
  | .record session before after => record session (.cells before after) a
  | .change who session req => (changeStructure env who session req a).state
  | .undo who session redo => (undo env who session redo a).state

/-- The state a run of events leaves. -/
def run (a : Authority S E) (es : List Event) : Authority S E := es.foldl (step env) a

/-- Every state of a run, the first one included. -/
def states (a : Authority S E) : List Event → List (Authority S E)
  | [] => [a]
  | e :: es => a :: states (step env a e) es

/-- Every event of a run meets a condition on it and on the state before it. -/
def AllMeet (P : Authority S E → Event → Prop) : Authority S E → List Event → Prop
  | _, [] => True
  | a, e :: es => P a e ∧ AllMeet P (step env a e) es

variable {env}

@[simp] theorem run_nil (a : Authority S E) : run env a [] = a := rfl

@[simp] theorem run_cons (a : Authority S E) (e : Event) (es : List Event) :
    run env a (e :: es) = run env (step env a e) es := rfl

theorem run_append (a : Authority S E) (es fs : List Event) :
    run env a (es ++ fs) = run env (run env a es) fs :=
  List.foldl_append

theorem allMeet_append {P : Authority S E → Event → Prop} (a : Authority S E)
    (es fs : List Event) :
    AllMeet env P a (es ++ fs) ↔ AllMeet env P a es ∧ AllMeet env P (run env a es) fs := by
  induction es generalizing a with
  | nil => simp [AllMeet]
  | cons e es ih => simp [AllMeet, ih, and_assoc]

/-- What every event that meets the condition keeps, a run of them keeps. -/
theorem run_invariant {P : Authority S E → Event → Prop} {I : Authority S E → Prop}
    (hstep : ∀ a e, I a → P a e → I (step env a e)) {a : Authority S E} {es : List Event}
    (ha : I a) (hes : AllMeet env P a es) : I (run env a es) := by
  induction es generalizing a with
  | nil => exact ha
  | cons e es ih => exact ih (hstep a e ha hes.1) hes.2

/-- A relation that every event keeps from the state before it holds from every
state of a run to its last one. -/
theorem run_monotone {P : Authority S E → Event → Prop}
    {R : Authority S E → Authority S E → Prop} (hrefl : ∀ a, R a a)
    (htrans : ∀ a b c, R a b → R b c → R a c) (hstep : ∀ a e, P a e → R a (step env a e))
    {a : Authority S E} {es : List Event} (hes : AllMeet env P a es) :
    ∀ s ∈ states env a es, R s (run env a es) := by
  induction es generalizing a with
  | nil => simp [states, hrefl]
  | cons e es ih =>
      intro s hs
      rcases List.mem_cons.mp hs with rfl | hs
      · have hfirst : R (step env s e) (run env (step env s e) es) := by
          cases es with
          | nil => exact hrefl _
          | cons f es => exact ih hes.2 _ (by simp [states])
        exact htrans _ _ _ (hstep _ _ hes.1) hfirst
      · exact ih hes.2 s hs

/-! ## Serving a request is a run -/

theorem editLoop_run (env : Env S E) (who : Principal) (edits : List CellEdit) (tries : Nat)
    (a : Authority S E) :
    ∃ es, (editLoop env who edits tries a).state = run env a es := by
  induction tries generalizing a with
  | zero =>
      refine ⟨[.attempt who edits], ?_⟩
      unfold editLoop
      simp only [run_cons, run_nil, step]
      cases checkEdits env who a 0 edits with
      | error r => rfl
      | ok checked => cases ha : applyCells env checked a <;> simp only [ha] <;> rfl
  | succ tries ih =>
      unfold editLoop
      cases hc : checkEdits env who a 0 edits with
      | error r => exact ⟨[], rfl⟩
      | ok checked =>
          have hattempt : step env a (.attempt who edits) = (applyCells env checked a).state := by
            simp only [step, hc]
          cases ha : applyCells env checked a with
          | ok before b =>
              refine ⟨[.attempt who edits], ?_⟩
              rw [run_cons, hattempt]
              simp only [ha]
              rfl
          | error r b =>
              rw [ha] at hattempt
              simp only [ha]
              by_cases hr : r.status = 409
              · rw [if_pos hr]
                cases hf : refresh env b with
                | error r c =>
                    refine ⟨[.attempt who edits, .refresh], ?_⟩
                    rw [run_cons, hattempt, run_cons, run_nil]
                    simp only [step, Outcome.state, hf]
                | ok moved c =>
                    obtain ⟨es, hes⟩ := ih c
                    refine ⟨.attempt who edits :: .refresh :: es, ?_⟩
                    rw [run_cons, hattempt, run_cons]
                    simp only [step, Outcome.state, hf]
                    exact hes
              · rw [if_neg hr]
                exact ⟨[.attempt who edits], hattempt.symm⟩

theorem edit_run (who : Principal) (session : String) (req : EditReq) (a : Authority S E) :
    ∃ es, (edit env who session req a).state = run env a es := by
  unfold edit
  split
  · exact ⟨[], rfl⟩
  · obtain ⟨es, hes⟩ := editLoop_run env who req.edits 3 a
    cases hl : editLoop env who req.edits 3 a with
    | error r b =>
        rw [hl] at hes
        exact ⟨es, hes⟩
    | ok p b =>
        rw [hl] at hes
        refine ⟨es ++ [.record session p.1 p.2], ?_⟩
        rw [run_append, ← hes]
        rfl

@[simp] theorem respond_state {T : Type} (f : T → Response) (o : Outcome S E T) :
    (respond f o).state = o.state := by
  cases o <;> rfl

/-- Serving a request takes the authority through a run. -/
theorem serve_run (who : Principal) (session : String) (req : Request)
    (a : Authority S E) :
    ∃ es, (serve env who session req a).state = run env a es := by
  unfold serve
  cases hf : refresh env a with
  | error r b => exact ⟨[.refresh], by simp [step, hf, Outcome.state]⟩
  | ok moved b =>
      have hb : step env a .refresh = b := by simp [step, hf, Outcome.state]
      have hrun : ∀ {o : Outcome S E Response}, (∃ es, o.state = run env b es) →
          ∃ es, o.state = run env a es := by
        rintro o ⟨es, hes⟩
        exact ⟨.refresh :: es, by rw [run_cons, hb, hes]⟩
      simp only
      split
      · exact ⟨[.refresh], by rw [run_cons, hb]; rfl⟩
      · apply hrun
        cases req with
        | readStructure => exact ⟨[], rfl⟩
        | window id w =>
            refine ⟨[], ?_⟩
            simp only
            split <;> rfl
        | edit e =>
            rw [respond_state]
            exact edit_run who session e b
        | undo => exact ⟨[.undo who session false], respond_state _ _⟩
        | redo => exact ⟨[.undo who session true], respond_state _ _⟩
        | _ => exact ⟨[.change who session _], respond_state _ _⟩

end Authority

end Improv.Service
