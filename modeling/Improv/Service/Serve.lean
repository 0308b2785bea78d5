import Improv.Service.Reads
import Improv.Service.EditAtomic
import Improv.Service.PlanCases
/-!
# Undo, the change feed, and serving a request

Undo and redo take a session's last step back, each part of it checked again;
the change feed answers from the log what changed after a version; and a
request is served after the store is looked at for another writer's change.
-/

namespace Improv.Service

open Improv.Lib Improv.CoreModel Improv.Engine

/-- A cell as the change feed names it. -/
structure FeedCell where
  measure : Nat
  coord : CoordKey
deriving DecidableEq

instance : LinearOrder FeedCell :=
  LinearOrder.lift' (fun c => toLex (c.measure, c.coord.map toLex)) fun a b h => by
    obtain ⟨m, k⟩ := a
    obtain ⟨m', k'⟩ := b
    simp only [EmbeddingLike.apply_eq_iff_eq, Prod.mk.injEq] at h
    obtain ⟨rfl, hk⟩ := h
    rw [toLex.injective.list_map hk]

/-- What a request answers. -/
inductive Response
  | seen (s : StructureOut)
  | cells (w : WindowOut)
  | done (d : Done)

namespace Authority

variable {S E : Type} (env : Env S E)

/-! ## Undo -/

/-- The stack an undo, or a redo, takes its step from. -/
def source (s : Stacks) (redo : Bool) : List Step := if redo then s.redo else s.undo

/-- A step written back as the edit a client would send. -/
def backEdit (w : Cell × Option Value) : CellEdit :=
  ⟨w.1.measure.id, encodeCoord w.1.coord, w.2.map (WireValue.fromValue env.chrono)⟩

/-- A step taken back, or done again: its inverse.  A structure step is refused
where its structure no longer builds, a cell step where a cell may no longer be
edited. -/
def takeBack (who : Principal) (redo : Bool) (step : Step) (a : Authority S E) :
    Outcome S E Step :=
  match step with
  | .structural before dropped =>
    let g := gate env who a
    if !g.allows .defineMeasure .model || !g.allows .editStructure .model then
      .error .forbidden a
    else
      match adopt env before dropped a with
      | .error r a => .error r a
      | .ok (previous, dropped) a => .ok (.structural previous dropped) a
  | .cells before after =>
    match checkEdits env who a 0 ((if redo then after else before).map (backEdit env)) with
    | .error r => .error r a
    | .ok checked =>
      match applyCells env checked a with
      | .error r a => .error r a
      | .ok _ a => .ok (.cells before after) a

/-- A session's stacks once a step has left one of them. -/
def popStacks (s : Stacks) (redo : Bool) : Stacks :=
  if redo then { s with redo := s.redo.tail } else { s with undo := s.undo.tail }

/-- A session's stacks once a step's inverse is on the other. -/
def pushStacks (s : Stacks) (redo : Bool) (inverse : Step) : Stacks :=
  if redo then { s with undo := inverse :: s.undo } else { s with redo := inverse :: s.redo }

def setStacks (session : String) (s : Stacks) (a : Authority S E) : Authority S E :=
  { a with sessions := Function.update a.sessions session s }

/-- A session's last step undone, or its last undone step redone. -/
def undo (who : Principal) (session : String) (redo : Bool) (a : Authority S E) :
    Outcome S E Done :=
  let s := a.sessions session
  match source s redo with
  | [] => .error (.bad (if redo then "nothing to redo" else "nothing to undo")) a
  | step :: _ =>
    match takeBack env who redo step (setStacks session (popStacks s redo) a) with
    | .error r a => .error r a
    | .ok inverse a =>
      let a := setStacks session (pushStacks (a.sessions session) redo inverse) a
      .ok ⟨a.version, if redo then "redone" else "undone", none⟩ a

/-! ## The change feed -/

/-- The visible cells some log entries changed, the last value of each; none
where one of them is a reload. -/
def changedCells (g : Gate) (changed : SortedMap FeedCell (Option WireValue)) :
    List Logged → Option (SortedMap FeedCell (Option WireValue))
  | [] => some changed
  | l :: ls =>
    match l.cells with
    | none => none
    | some cs =>
      changedCells g (cs.foldl (fun changed c =>
        if g.seesCell c.1 (decodeCoord c.2.1) then changed.insert ⟨c.1.id, c.2.1⟩ c.2.2
        else changed) changed) ls

/-- What changed after version `since`, for a principal: the visible changed
cells, or a reload when the structure changed or `since` is older than the log.
None when nothing visible changed. -/
def changesSince (who : Principal) (since : String) (a : Authority S E) :
    Option ChangeEvent :=
  if since = a.version then none
  else
    let reload := some ⟨a.version, [], true⟩
    match a.log.dropWhile fun l => l.version ≠ since with
    | [] => reload
    | _ :: later =>
      match changedCells (gate env who a) .empty later with
      | none => reload
      | some changed =>
        if changed.entries = [] then none
        else
          some ⟨a.version, changed.entries.map fun p => ⟨p.1.measure, p.1.coord, p.2⟩, false⟩

/-! ## Opening -/

/-- The authority over the model the store holds. -/
def withPolicy (world : S) : Outcome S E Unit :=
  let new : Authority S E :=
    { world
      model := .new
      tx := none
      store := false
      engine := none
      snapshot := fun _ => ∅
      log := []
      sessions := fun _ => .empty
      structureVersion := 0
      loads := 0
      probes := 0 }
  match reload env new with
  | .error r a => .error r a
  | .ok () a => .ok () (a.pushLog (some []))

/-! ## Requests -/

/-- An outcome's answer, wrapped. -/
def respond {T : Type} (f : T → Response) : Outcome S E T → Outcome S E Response
  | .ok t a => .ok (f t) a
  | .error r a => .error r a

/-- A request served once the store has been looked at. -/
def serve (who : Principal) (session : String) (req : Request) (a : Authority S E) :
    Outcome S E Response :=
  match refresh env a with
  | .error r a => .error r a
  | .ok _ a =>
    if !(gate env who a).seesModel then .error .forbidden a
    else
      match req with
      | .readStructure => .ok (.seen (readStructure env who a)) a
      | .window id w =>
        match window env who id w a with
        | .ok cells => .ok (.cells cells) a
        | .error r => .error r a
      | .edit e => respond .done (edit env who session e a)
      | .undo => respond .done (undo env who session false a)
      | .redo => respond .done (undo env who session true a)
      | other => respond .done (changeStructure env who session other a)

end Authority

end Improv.Service

/-!
## Adopting a structure

A structure is swapped in with the cells it has room for, and a refused one
changes nothing.  The cells a change drops are the ones its structure has no
room for, so the structure it replaced takes them back where it had room.
-/

namespace Improv.Service

open Improv.Lib Improv.CoreModel Improv.Engine

namespace Authority

variable {S E : Type} {env : Env S E}

/-- What an adopted structure leaves. -/
structure Adopted (env : Env S E) (candidate : Model) (restore : Cells)
    (a b : Authority S E) (previous : Model) (dropped : Cells) : Prop where
  model : b.model = (fitCells candidate a.model.inputs restore).1
  previous : previous = a.model.structureOf
  dropped : dropped = (fitCells candidate a.model.inputs restore).2
  built : buildEngine env b.model = .ok (b.engine, b.snapshot)
  sessions : b.sessions = a.sessions
  structureVersion : b.structureVersion = a.structureVersion + 1

theorem adopt_ok {candidate previous : Model} {restore dropped : Cells}
    {a b : Authority S E} (h : adopt env candidate restore a = .ok (previous, dropped) b) :
    Adopted env candidate restore a b previous dropped := by
  unfold adopt at h
  simp only at h
  split at h
  · cases h
  · rename_i engine snapshot hbuild
    split at h
    · cases h
    · rename_i hsave
      have hk := save_ok hsave
      cases h
      refine ⟨rfl, ?_, rfl, hbuild, hk.sessions, ?_⟩
      · rw [hk.model]
      · simp only [pushLog, hk.structureVersion]

theorem adopt_error {candidate : Model} {restore : Cells} {a b : Authority S E} {r : Refusal}
    (h : adopt env candidate restore a = .error r b) : Kept a b := by
  unfold adopt at h
  simp only at h
  split at h
  · cases h
    rfl
  · split at h
    · rename_i hsave
      cases h
      exact save_error hsave
    · cases h

/-- The cells do not count in the structure adopted. -/
theorem structureOf_fitCells (candidate : Model) (inputs : SortedMap Cell Value)
    (restore : Cells) : (fitCells candidate inputs restore).1.structureOf =
      candidate.structureOf := rfl

/-- A structural request leaves the model, or its planned structure with the
cells that has room for. -/
theorem changeStructure_cases (env : Env S E) (who : Principal) (session : String) (req : Request)
    (a : Authority S E) :
    Kept a (changeStructure env who session req a).state ∨
    ∃ candidate message id previous dropped b, plan env who req a = .ok (candidate, message, id) ∧
      adopt env candidate [] a = .ok (previous, dropped) b ∧
      changeStructure env who session req a =
        .ok ⟨b.version, message, id⟩ (record session (.structural previous dropped) b) := by
  unfold changeStructure
  cases hplan : plan env who req a with
  | error r => exact .inl (.refl a)
  | ok p =>
      obtain ⟨candidate, message, id⟩ := p
      simp only
      cases hadopt : adopt env candidate [] a with
      | error r b => exact .inl (adopt_error hadopt)
      | ok q b =>
          obtain ⟨previous, dropped⟩ := q
          exact .inr ⟨candidate, message, id, previous, dropped, b, rfl, hadopt, rfl⟩

/-- An attempt at a batch keeps the structure, whether it is saved or not. -/
theorem applyCells_structureOf (env : Env S E) (edits : Cells) (a : Authority S E) :
    (applyCells env edits a).state.model.structureOf = a.model.structureOf := by
  cases h : applyCells env edits a with
  | ok before b =>
      change b.model.structureOf = _
      rw [(applyCells_ok h).1]
      rfl
  | error r b =>
      change b.model.structureOf = _
      rw [(applyCells_error h).model]
      rfl

theorem takeBack_cells_structureOf (who : Principal) (redo : Bool) (before after : Cells)
    (a : Authority S E) :
    (takeBack env who redo (.cells before after) a).state.model.structureOf =
      a.model.structureOf := by
  unfold takeBack
  simp only
  split
  · rfl
  · rename_i checked _
    have hkept := applyCells_structureOf env checked a
    cases happly : applyCells env checked a <;> rw [happly] at hkept <;> exact hkept

theorem takeBack_structural_structureOf (env : Env S E) (who : Principal) (redo : Bool)
    (before : Model) (dropped : Cells) (a : Authority S E) :
    (takeBack env who redo (.structural before dropped) a).state.model.structureOf =
        a.model.structureOf ∨
      (takeBack env who redo (.structural before dropped) a).state.model.structureOf =
        before.structureOf := by
  unfold takeBack
  simp only
  split
  · exact .inl rfl
  · cases hadopt : adopt env before dropped a with
    | error r b =>
        left
        change b.model.structureOf = _
        rw [(adopt_error hadopt).model]
    | ok q b =>
        right
        change b.model.structureOf = _
        rw [(adopt_ok hadopt).model, structureOf_fitCells]

@[simp] theorem setStacks_model (session : String) (s : Stacks) (a : Authority S E) :
    (setStacks session s a).model = a.model := rfl

theorem undo_nil {session : String} {redo : Bool} {a : Authority S E} (who : Principal)
    (hs : source (a.sessions session) redo = []) : (undo env who session redo a).state = a := by
  unfold undo
  simp only [hs]
  rfl

theorem undo_model {session : String} {redo : Bool} {a : Authority S E} {step : Step}
    {rest : List Step} (who : Principal) (hs : source (a.sessions session) redo = step :: rest) :
    (undo env who session redo a).state.model =
      (takeBack env who redo step
        (setStacks session (popStacks (a.sessions session) redo) a)).state.model := by
  unfold undo
  simp only [hs]
  cases takeBack env who redo step
      (setStacks session (popStacks (a.sessions session) redo) a) <;> rfl

/-- An undo or a redo keeps the structure, or swaps in the one its step keeps. -/
theorem undo_structureOf (env : Env S E) (who : Principal) (session : String) (redo : Bool)
    (a : Authority S E) :
    (undo env who session redo a).state.model.structureOf = a.model.structureOf ∨
    ∃ before dropped rest, source (a.sessions session) redo =
        .structural before dropped :: rest ∧
      (undo env who session redo a).state.model.structureOf = before.structureOf := by
  cases hs : source (a.sessions session) redo with
  | nil => exact .inl (by rw [undo_nil who hs])
  | cons step rest =>
      rw [undo_model who hs]
      cases step with
      | cells before after => exact .inl (takeBack_cells_structureOf who redo before after _)
      | structural before dropped =>
          rcases takeBack_structural_structureOf env who redo before dropped
              (setStacks session (popStacks (a.sessions session) redo) a) with h | h
          · exact .inl h
          · exact .inr ⟨before, dropped, rest, rfl, h⟩

end Authority

end Improv.Service
