import Improv.Lib.History
import Improv.Service.Serve
import Improv.Service.Runs
/-!
# Undo and redo

A session's steps lead from one model to the one next to it: a batch by the
values it set and replaced, a structural change by the structure it replaced and
the cells that structure had room for alone.  A session whose undo steps lead
back so follows the history of its models, whatever it changes, undoes and
redoes, as long as no other writer comes between.
-/

namespace Improv.Service

open Improv.Lib Improv.CoreModel Improv.Engine WriteBatch

namespace Authority

variable {S E : Type}

/-! ## Cells kept, dropped and restored -/

/-- Restored cells, one by one. -/
theorem get?_foldl_fitCells (candidate : Model) (c : Cell) (ws : Cells)
    (ins : SortedMap Cell Value) :
    (ws.foldl (fun ins w =>
      match w.2 with
      | some v =>
        if hasRoom candidate w.1 && !ins.contains w.1 then ins.insert w.1 v else ins
      | none => ins) ins).get? c =
    (ins.get? c).or (if hasRoom candidate c then
      ws.findSome? fun w => if w.1 = c then w.2 else none else none) := by
  induction ws generalizing ins with
  | nil => simp
  | cons w ws ih =>
      obtain ⟨k, v⟩ := w
      rw [List.foldl_cons, ih, List.findSome?_cons]
      cases v with
      | none => simp
      | some v =>
          by_cases hk : k = c
          · subst hk
            cases hget : ins.get? k <;> cases hroom : hasRoom candidate k <;>
              simp [SortedMap.contains, hget]
          · have hck : ¬c = k := fun h => hk h.symm
            simp only [if_neg hk]
            split
            · rw [SortedMap.get?_insert, if_neg hck]
            · rfl

/-- A restored cell stands where none is set and the structure has room. -/
theorem get?_inputs_fitCells (candidate : Model) (inputs : SortedMap Cell Value)
    (restore : Cells) (c : Cell) :
    (fitCells candidate inputs restore).1.inputs.get? c =
      if hasRoom candidate c then
        (inputs.get? c).or (restore.findSome? fun w => if w.1 = c then w.2 else none)
      else none := by
  refine (get?_foldl_fitCells candidate c restore
    (inputs.filter fun k _ => hasRoom candidate k)).trans ?_
  rw [SortedMap.get?_filter]
  cases hget : inputs.get? c <;> cases hroom : hasRoom candidate c <;> simp [Option.filter]

/-- The cells of a map, as a step keeps them. -/
theorem findSome?_entries (m : SortedMap Cell Value) (c : Cell) :
    ((m.entries.map fun p => (p.1, some p.2)).findSome? fun w =>
      if w.1 = c then w.2 else none) = m.get? c := by
  unfold SortedMap.get?
  induction m.entries with
  | nil => rfl
  | cons p ps ih =>
      rw [List.map_cons, List.findSome?_cons, List.find?_cons]
      by_cases h : p.1 = c <;> simp [h, ih]

/-- `new` holds the cells of `old` it has room for, and `old` had room for all
of them. -/
structure Narrowed (old new : Model) : Prop where
  inputs : new.inputs = old.inputs.filter fun c _ => hasRoom new c
  fits : ∀ c, old.inputs.contains c = true → hasRoom old c = true

namespace Narrowed

variable {old new : Model}

theorem get? (h : Narrowed old new) (c : Cell) :
    new.inputs.get? c = if hasRoom new c then old.inputs.get? c else none := by
  rw [h.inputs, SortedMap.get?_filter]
  cases hget : old.inputs.get? c <;> cases hroom : hasRoom new c <;> simp [Option.filter]

/-- The cells kept and the cells dropped make up the model before. -/
theorem restored (h : Narrowed old new) :
    (fitCells old.structureOf new.inputs (fitCells new old.inputs []).2).1 = old := by
  have hinputs : (fitCells old.structureOf new.inputs (fitCells new old.inputs []).2).1.inputs =
      old.inputs := by
    ext1 c
    rw [get?_inputs_fitCells]
    change (if hasRoom old c = true then (new.inputs.get? c).or
      (((old.inputs.filter fun k _ => !hasRoom new k).entries.map fun p =>
        (p.1, some p.2)).findSome? fun w => if w.1 = c then w.2 else none) else none) = _
    rw [findSome?_entries, h.get?, SortedMap.get?_filter]
    cases hget : old.inputs.get? c with
    | none => simp
    | some v =>
        rw [if_pos (h.fits c (SortedMap.contains_of_get? hget))]
        cases hroom : hasRoom new c <;> simp [Option.filter]
  calc
    _ = { old.structureOf with
          inputs := (fitCells old.structureOf new.inputs
            (fitCells new old.inputs []).2).1.inputs } := rfl
    _ = old := by rw [hinputs, Model.structureOf_with_inputs]

/-- The model before has room for every cell of the one after. -/
theorem nothing_dropped (h : Narrowed old new) (restore : Cells) :
    (fitCells old.structureOf new.inputs restore).2 = [] := by
  have hempty : (new.inputs.filter fun k _ => !hasRoom old.structureOf k) = .empty := by
    ext1 c
    rw [SortedMap.get?_filter, h.get?, SortedMap.get?_empty]
    cases hget : old.inputs.get? c with
    | none => simp
    | some v =>
        have hroom : hasRoom old.structureOf c = true :=
          h.fits c (SortedMap.contains_of_get? hget)
        split
        · simp [Option.filter, hroom]
        · rfl
  change ((new.inputs.filter fun k _ => !hasRoom old.structureOf k).entries.map _) = []
  rw [hempty]
  rfl

/-- Adopted again, the structure after has the cells it had. -/
theorem readopted (h : Narrowed old new) : (fitCells new.structureOf old.inputs []).1 = new := by
  have hinputs : (fitCells new.structureOf old.inputs []).1.inputs = new.inputs := by
    ext1 c
    rw [get?_inputs_fitCells, h.get?]
    change (if hasRoom new c = true then _ else _) = _
    simp
  calc
    _ = { new.structureOf with
          inputs := (fitCells new.structureOf old.inputs []).1.inputs } := rfl
    _ = new := by rw [hinputs, Model.structureOf_with_inputs]

end Narrowed

theorem narrowed_fitCells {candidate old : Model}
    (hfits : ∀ c, old.inputs.contains c = true → hasRoom old c = true) :
    Narrowed old (fitCells candidate old.inputs []).1 := by
  refine ⟨?_, hfits⟩
  ext1 c
  rw [get?_inputs_fitCells, SortedMap.get?_filter]
  change _ = (old.inputs.get? c).filter fun _ => hasRoom candidate c
  cases hget : old.inputs.get? c <;> cases hroom : hasRoom candidate c <;>
    simp [Option.filter]

/-! ## Steps between models -/

/-- A step, undone or redone, leads from one model to another, and can lead
back. -/
def Leads (redo : Bool) (step : Step) (x y : Model) : Prop :=
  match step with
  | .structural previous dropped =>
    previous = y.structureOf ∧
      if redo then Narrowed x y ∧ dropped = []
      else Narrowed y x ∧ dropped = (fitCells x y.inputs []).2
  | .cells before after =>
    y.structureOf = x.structureOf ∧
      (x.inputs.writeAll (if redo then after else before)).1 = y.inputs ∧
      (y.inputs.writeAll (if redo then before else after)).1 = x.inputs

/-- A step is not refused: it is allowed, its structure builds, its cells come
back from the wire as they went, and the store takes it. -/
def Passes (env : Env S E) (who : Principal) (redo : Bool) (step : Step)
    (a : Authority S E) : Prop :=
  match step with
  | .structural before dropped =>
    (gate env who a).allows .defineMeasure .model = true ∧
      (gate env who a).allows .editStructure .model = true ∧
      let m := (fitCells before a.model.inputs dropped).1
      (∃ built, buildEngine env m = .ok built) ∧
        ∃ b, save env m (changesBetween a.model m) a = .ok () b
  | .cells before after =>
    let cells := if redo then after else before
    checkEdits env who a 0 (cells.map (backEdit env)) = .ok cells ∧ ¬SaveRefused env cells a

variable {env : Env S E}

theorem takeBack_ok {who : Principal} {redo : Bool} {step : Step} {a : Authority S E}
    (h : Passes env who redo step a) : ∃ t b, takeBack env who redo step a = .ok t b := by
  cases step with
  | structural before dropped =>
      obtain ⟨hdefine, hstructure, ⟨built, hbuilt⟩, b, hsave⟩ := h
      unfold takeBack adopt
      simp only [hdefine, hstructure, hbuilt, hsave]
      exact ⟨_, _, rfl⟩
  | cells before after =>
      obtain ⟨hcheck, hsave⟩ := h
      rw [saveRefused_iff] at hsave
      unfold takeBack
      simp only [hcheck]
      cases happly : applyCells env (if redo = true then after else before) a with
      | ok replaced b => exact ⟨_, _, rfl⟩
      | error r b => exact absurd ⟨r, b, happly⟩ hsave

/-- A step taken leads where it is recorded to, and its inverse leads back. -/
theorem takeBack_leads {who : Principal} {redo : Bool} {step t : Step} {a b : Authority S E}
    {y : Model} (hpass : Passes env who redo step a) (hleads : Leads redo step a.model y)
    (h : takeBack env who redo step a = .ok t b) :
    b.model = y ∧ Leads (!redo) t y a.model ∧ b.sessions = a.sessions := by
  cases step with
  | structural before dropped =>
      obtain ⟨rfl, hnarrow⟩ := hleads
      unfold takeBack at h
      simp only at h
      split at h
      · cases h
      · cases hadopt : adopt env y.structureOf dropped a with
        | error r c =>
            rw [hadopt] at h
            cases h
        | ok q c =>
            rw [hadopt] at h
            cases h
            have had := adopt_ok hadopt
            refine ⟨?_, ⟨had.previous, ?_⟩, had.sessions⟩
            · cases redo with
              | false =>
                  obtain ⟨hyx, rfl⟩ := hnarrow
                  rw [had.model, hyx.restored]
              | true =>
                  obtain ⟨hxy, rfl⟩ := hnarrow
                  rw [had.model, hxy.readopted]
            · cases redo with
              | false =>
                  obtain ⟨hyx, rfl⟩ := hnarrow
                  exact ⟨hyx, had.dropped.trans (hyx.nothing_dropped _)⟩
              | true =>
                  obtain ⟨hxy, rfl⟩ := hnarrow
                  exact ⟨hxy, had.dropped⟩
  | cells before after =>
      obtain ⟨hstructure, hon, hback⟩ := hleads
      unfold takeBack at h
      simp only [hpass.1] at h
      cases happly : applyCells env (if redo = true then after else before) a with
      | error r c =>
          rw [happly] at h
          cases h
      | ok replaced c =>
          rw [happly] at h
          cases h
          obtain ⟨hmodel, _, hsessions⟩ := applyCells_ok happly
          have hy : b.model = y := by
            calc b.model
                = { a.model.structureOf with inputs := y.inputs } := by
                  rw [hmodel, setCells, hon]
                  rfl
              _ = y := by rw [← hstructure, Model.structureOf_with_inputs]
          refine ⟨hy, ⟨hstructure.symm, ?_⟩, hsessions⟩
          cases redo <;> exact ⟨hback, hon⟩

/-! ## Batches -/

/-- An accepted batch was checked and saved where its last attempt stood. -/
theorem editLoop_ok {who : Principal} {edits : List CellEdit} (tries : Nat)
    {base a b : Authority S E} {before checked : Cells} (h : Standing env who edits base a)
    (hok : editLoop env who edits tries a = .ok (before, checked) b) :
    ∃ last, Standing env who edits (lastAttempt env who edits tries base a).1 last ∧
      checkEdits env who (lastAttempt env who edits tries base a).1 0 edits = .ok checked ∧
      applyCells env checked last = .ok before b := by
  induction tries generalizing base a with
  | zero =>
      unfold lastAttempt
      unfold editLoop at hok
      rw [h.checkEdits] at hok ⊢
      cases hc : Authority.checkEdits env who base 0 edits with
      | error r => simp [hc] at hok
      | ok cells =>
          cases ha : applyCells env cells a with
          | ok replaced c =>
              simp only [hc, ha] at hok ⊢
              cases hok
              exact ⟨a, h, rfl, ha⟩
          | error r c => simp [hc, ha] at hok
  | succ tries ih =>
      unfold lastAttempt
      unfold editLoop at hok
      rw [h.checkEdits] at hok ⊢
      cases hc : Authority.checkEdits env who base 0 edits with
      | error r => simp [hc] at hok
      | ok cells =>
          cases ha : applyCells env cells a with
          | ok replaced c =>
              simp only [hc, ha] at hok ⊢
              cases hok
              exact ⟨a, h, rfl, ha⟩
          | error r c =>
              simp only [hc, ha] at hok ⊢
              by_cases hr : r.status = 409
              · simp only [if_pos hr] at hok ⊢
                cases hf : refresh env c with
                | error r d => simp [hf] at hok
                | ok moved d =>
                    simp only [hf] at hok ⊢
                    cases moved with
                    | true => exact ih (.start env who edits d) hok
                    | false =>
                        have hb := (h.refused hc ha).trans (refresh_unmoved hf)
                        exact ih (.of_rolledBack hc hb) hok
              · simp [if_neg hr] at hok

/-- A loop that stands at a state whose batch is taken back has its model. -/
theorem Standing.model_eq {who : Principal} {edits : List CellEdit} {base a : Authority S E}
    {checked : Cells} (h : Standing env who edits base a)
    (hc : Authority.checkEdits env who base 0 edits = .ok checked)
    (htaken : TakenBack base.model.inputs checked) : a.model = base.model := by
  have hinputs : a.model.inputs = base.model.inputs := by
    rcases h.cells with heq | ⟨c, hc', heq⟩
    · exact heq
    · obtain rfl : checked = c := by simpa [hc] using hc'
      rw [heq, rolledBack_eq_iff]
      exact htaken
  rw [h.kept.model, hinputs]

/-- An accepted batch is recorded by a step that leads back from it. -/
theorem edit_ok {who : Principal} {session : String} {req : EditReq} {a b : Authority S E}
    {d : Done} (h : edit env who session req a = .ok d b)
    (halone : (lastTry env who req a).1 = a)
    (htaken : ∀ checked, checkEdits env who a 0 req.edits = .ok checked →
      TakenBack a.model.inputs checked) :
    ∃ step, Leads false step b.model a.model ∧
      b.sessions session = ⟨(step :: (a.sessions session).undo).take undoDepth, []⟩ := by
  unfold edit at h
  unfold lastTry at halone
  by_cases hlarge : maxEdits < req.edits.length
  · simp [hlarge] at h
  · simp only [if_neg hlarge] at h halone
    cases hloop : editLoop env who req.edits 3 a with
    | error r c => simp [hloop] at h
    | ok p c =>
        obtain ⟨before, checked⟩ := p
        simp only [hloop] at h
        cases h
        obtain ⟨last, hstands, hc, happly⟩ := editLoop_ok 3 (.start env who req.edits a) hloop
        rw [halone] at hstands hc
        have hlast := hstands.model_eq hc (htaken checked hc)
        obtain ⟨hmodel, hbefore, hsessions⟩ := applyCells_ok happly
        rw [hlast] at hmodel hbefore
        refine ⟨.cells before checked, ⟨?_, ?_, ?_⟩, ?_⟩
        · change a.model.structureOf = c.model.structureOf
          rw [hmodel]
          rfl
        · change (c.model.inputs.writeAll before).1 = a.model.inputs
          rw [hmodel, hbefore]
          exact (rolledBack_eq_iff _ _).mpr (htaken checked hc)
        · change (a.model.inputs.writeAll checked).1 = c.model.inputs
          rw [hmodel]
          rfl
        · simp [record, hsessions, hstands.kept.sessions]

/-- A refused batch that is taken back leaves the model and the stacks. -/
theorem edit_error {who : Principal} {session : String} {req : EditReq} {a b : Authority S E}
    {r : Refusal} (h : edit env who session req a = .error r b)
    (halone : (lastTry env who req a).1 = a)
    (htaken : ∀ checked, checkEdits env who a 0 req.edits = .ok checked →
      TakenBack a.model.inputs checked) :
    b.model = a.model ∧ b.sessions = a.sessions := by
  have hatomic : EditAtomic env who session req a := by
    rw [edit_atomic_iff, halone]
    exact fun _ checked hc _ => htaken checked hc
  unfold EditAtomic at hatomic
  simp only [h, halone] at hatomic
  exact ⟨hatomic.model, hatomic.sessions⟩

/-! ## A session's history -/

variable (env)

/-- No other writer is found while a request is served. -/
def Alone (a : Authority S E) (who : Principal) (req : Request) : Prop :=
  (∀ b, refresh env a ≠ .ok true b) ∧
    ∀ b e, refresh env a = .ok false b → req = .edit e → (lastTry env who e b).1 = b

/-- The step an undo or a redo takes, where there is one, passes. -/
def TopPasses (session : String) (who : Principal) (redo : Bool) (a : Authority S E) : Prop :=
  ∀ step rest, source (a.sessions session) redo = step :: rest →
    Passes env who redo step (setStacks session (popStacks (a.sessions session) redo) a)

/-- What a request is to meet so that it can be taken back: each cell a batch
names more than once held the value it gives the cell last but one; the
structure a change replaces had room for its cells; the step an undo or a redo
takes passes. -/
def Reversible (session : String) (a : Authority S E) (who : Principal) (req : Request) :
    Prop :=
  ∀ b, refresh env a = .ok false b →
    match req with
    | .readStructure | .window .. => True
    | .edit e => ∀ checked, checkEdits env who b 0 e.edits = .ok checked →
        TakenBack b.model.inputs checked
    | .undo => TopPasses env session who false b
    | .redo => TopPasses env session who true b
    | _ => ∀ c, b.model.inputs.contains c = true → hasRoom b.model c = true

/-- The request for an undo, or a redo. -/
def undoRequest (redo : Bool) : Request := if redo then .redo else .undo

/-- The history once a request is answered; none where an undo or a redo goes
back behind its start. -/
def tracked (h : History Model) (req : Request) (o : Outcome S E Response) :
    Option (History Model) :=
  match req, o with
  | .readStructure, _ | .window .., _ | _, .error _ _ => some h
  | .undo, .ok _ _ => h.undo
  | .redo, .ok _ _ => h.redo
  | _, .ok _ b => some (h.change undoDepth b.model)

/-- A session's requests served in order, with the history they make. -/
def follow (session : String) (h : History Model) (a : Authority S E) :
    List (Principal × Request) → Option (History Model × Authority S E)
  | [] => some (h, a)
  | r :: rs =>
    let o := serve env r.1 session r.2 a
    (tracked h r.2 o).bind fun h => follow session h o.state rs

/-- Every request of a session meets a condition on it and on the state before
it. -/
def AllServed (session : String) (P : Authority S E → Principal → Request → Prop)
    (a : Authority S E) : List (Principal × Request) → Prop
  | [] => True
  | r :: rs => P a r.1 r.2 ∧ AllServed session P (serve env r.1 session r.2 a).state rs

variable {env}

/-- The model is where the history is, and the steps kept lead along it. -/
structure Tracks (session : String) (h : History Model) (a : Authority S E) : Prop where
  model : a.model = h.present
  recorded : History.Recorded (Leads false) (Leads true) h (a.sessions session).undo
    (a.sessions session).redo

theorem Tracks.start (session : String) (a : Authority S E) :
    Tracks session (.start a.model) a :=
  ⟨rfl, .start _ _ _⟩

/-- A state with the same model and stacks is where the history is too. -/
theorem Tracks.same {session : String} {h : History Model} {a b : Authority S E}
    (ht : Tracks session h a) (hmodel : b.model = a.model)
    (hsessions : b.sessions session = a.sessions session) : Tracks session h b := by
  refine ⟨hmodel.trans ht.model, ?_⟩
  rw [hsessions]
  exact ht.recorded

/-- A change recorded by a step that leads back from it. -/
theorem Tracks.change {session : String} {h : History Model} {a b : Authority S E} {step : Step}
    (ht : Tracks session h a) (hstep : Leads false step b.model a.model)
    (hsessions : b.sessions session =
      ⟨(step :: (a.sessions session).undo).take undoDepth, []⟩) :
    Tracks session (h.change undoDepth b.model) b := by
  refine ⟨rfl, ?_⟩
  rw [ht.model] at hstep
  rw [hsessions]
  exact ht.recorded.change hstep undoDepth

/-- An undo or a redo with a step to take is accepted, and takes it. -/
theorem undo_cons {who : Principal} {session : String} {redo : Bool} {a : Authority S E}
    {step : Step} {rest : List Step} (hs : source (a.sessions session) redo = step :: rest)
    (hpass : TopPasses env session who redo a) :
    ∃ t b d, takeBack env who redo step
        (setStacks session (popStacks (a.sessions session) redo) a) = .ok t b ∧
      undo env who session redo a =
        .ok d (setStacks session (pushStacks (b.sessions session) redo t) b) := by
  obtain ⟨t, b, ht⟩ := takeBack_ok (hpass step rest hs)
  refine ⟨t, b, ⟨version (setStacks session (pushStacks (b.sessions session) redo t) b),
    if redo then "redone" else "undone", none⟩, ht, ?_⟩
  unfold undo
  simp only [hs, ht]

theorem undo_tracks {who : Principal} {session : String} {redo : Bool} {h h' : History Model}
    {a b : Authority S E} {d : Done} (ht : Tracks session h a)
    (hpass : TopPasses env session who redo a)
    (hundo : undo env who session redo a = .ok d b)
    (hh : (if redo then h.redo else h.undo) = some h') : Tracks session h' b := by
  cases hs : source (a.sessions session) redo with
  | nil =>
      unfold undo at hundo
      simp [hs] at hundo
  | cons step rest =>
      obtain ⟨t, c, d', htake, hok⟩ := undo_cons hs hpass
      rw [hok] at hundo
      cases hundo
      have hleads : ∀ y, Leads redo step a.model y →
          c.model = y ∧ Leads (!redo) t y a.model ∧
            c.sessions = (setStacks session (popStacks (a.sessions session) redo) a).sessions :=
        fun y hl => takeBack_leads (hpass step rest hs) hl htake
      rw [ht.model] at hleads
      have hrec := ht.recorded
      cases redo with
      | false =>
          have hundos : (a.sessions session).undo = step :: rest := hs
          rw [hundos] at hrec
          obtain ⟨hl, hrest⟩ := hrec.undo hh
          obtain ⟨hmodel, hinverse, hsessions⟩ := hleads _ hl
          refine ⟨hmodel, ?_⟩
          have hstacks : c.sessions session = ⟨rest, (a.sessions session).redo⟩ := by
            rw [hsessions]
            simp [setStacks, popStacks, hundos]
          simp only [setStacks, Function.update_self, pushStacks, hstacks]
          exact hrest t hinverse
      | true =>
          have hredos : (a.sessions session).redo = step :: rest := hs
          rw [hredos] at hrec
          obtain ⟨hl, hrest⟩ := hrec.redo hh
          obtain ⟨hmodel, hinverse, hsessions⟩ := hleads _ hl
          refine ⟨hmodel, ?_⟩
          have hstacks : c.sessions session = ⟨(a.sessions session).undo, rest⟩ := by
            rw [hsessions]
            simp [setStacks, popStacks, hredos]
          simp only [setStacks, Function.update_self, pushStacks, hstacks]
          exact hrest t hinverse

/-- A refused undo or redo had no step to take, and leaves the state. -/
theorem undo_error {who : Principal} {session : String} {redo : Bool} {a b : Authority S E}
    {r : Refusal} (hpass : TopPasses env session who redo a)
    (h : undo env who session redo a = .error r b) : b = a := by
  cases hs : source (a.sessions session) redo with
  | nil =>
      unfold undo at h
      simp only [hs] at h
      cases h
      rfl
  | cons step rest =>
      obtain ⟨t, c, d, _, hok⟩ := undo_cons hs hpass
      rw [hok] at h
      cases h

theorem changeStructure_tracks {who : Principal} {session : String} {req : Request}
    {h : History Model} {a b : Authority S E} {d : Done} (ht : Tracks session h a)
    (hroom : ∀ c, a.model.inputs.contains c = true → hasRoom a.model c = true)
    (hok : changeStructure env who session req a = .ok d b) :
    Tracks session (h.change undoDepth b.model) b := by
  unfold changeStructure at hok
  cases hplan : plan env who req a with
  | error r => simp [hplan] at hok
  | ok p =>
      obtain ⟨candidate, message, id⟩ := p
      cases hadopt : adopt env candidate [] a with
      | error r c => simp [hplan, hadopt] at hok
      | ok q c =>
          obtain ⟨previous, dropped⟩ := q
          simp only [hplan, hadopt] at hok
          cases hok
          have had := adopt_ok hadopt
          have hstep : Leads false (.structural previous dropped) c.model a.model := by
            refine ⟨had.previous, ?_, ?_⟩
            · rw [had.model]
              exact narrowed_fitCells hroom
            · rw [had.dropped, had.model]
              rfl
          refine ht.change hstep ?_
          simp [record, had.sessions]

theorem changeStructure_error {who : Principal} {session : String} {req : Request}
    {a b : Authority S E} {r : Refusal}
    (h : changeStructure env who session req a = .error r b) : Kept a b := by
  unfold changeStructure at h
  cases hplan : plan env who req a with
  | error r =>
      simp only [hplan] at h
      cases h
      exact .refl a
  | ok p =>
      obtain ⟨candidate, message, id⟩ := p
      cases hadopt : adopt env candidate [] a with
      | error r c =>
          simp only [hplan, hadopt] at h
          cases h
          exact adopt_error hadopt
      | ok q c => simp [hplan, hadopt] at h

/-- A structural request, accepted or refused, is where the history is. -/
theorem respond_changeStructure_tracks {who : Principal} {session : String} {req : Request}
    {h h' : History Model} {a : Authority S E} (ht : Tracks session h a)
    (hroom : ∀ c, a.model.inputs.contains c = true → hasRoom a.model c = true)
    (hh : (match changeStructure env who session req a with
      | .ok _ b => some (h.change undoDepth b.model)
      | .error _ _ => some h) = some h') :
    Tracks session h' (changeStructure env who session req a).state := by
  cases hc : changeStructure env who session req a with
  | ok d b =>
      simp only [hc, Option.some.injEq] at hh
      rw [← hh]
      exact changeStructure_tracks ht hroom hc
  | error r b =>
      simp only [hc, Option.some.injEq] at hh
      rw [← hh]
      have hk := changeStructure_error hc
      exact ht.same hk.model (by rw [Outcome.state, hk.sessions])

/-- A request served keeps the model where the history is. -/
theorem serve_tracks {who : Principal} {session : String} {req : Request}
    {h h' : History Model} {a : Authority S E} (ht : Tracks session h a)
    (halone : Alone env a who req) (hrev : Reversible env session a who req)
    (hh : tracked h req (serve env who session req a) = some h') :
    Tracks session h' (serve env who session req a).state := by
  have hsame : ∀ {b : Authority S E} {r : Refusal}, Kept a b →
      tracked h req (.error r b : Outcome S E Response) = some h' → Tracks session h' b := by
    intro b r hk htr
    have hh' : h' = h := by cases req <;> simpa [tracked, eq_comm] using htr
    rw [hh']
    exact ht.same hk.model (by rw [hk.sessions])
  unfold serve at hh ⊢
  cases hf : refresh env a with
  | error r b =>
      simp only [hf] at hh
      exact hsame (refresh_error hf) hh
  | ok moved b =>
      cases moved with
      | true => exact absurd hf (halone.1 b)
      | false =>
          have hk := refresh_unmoved hf
          have hb : Tracks session h b := ht.same hk.model (by rw [hk.sessions])
          have hmeets := hrev b hf
          simp only [hf] at hh ⊢
          by_cases hsees : (!(gate env who b).seesModel) = true
          · rw [if_pos hsees] at hh ⊢
            exact hsame hk hh
          · rw [if_neg hsees] at hh ⊢
            cases req with
            | readStructure =>
                simp only [tracked, Option.some.injEq] at hh
                rw [← hh]
                exact hb
            | window id w =>
                have hh' : h' = h := by simpa [tracked, eq_comm] using hh
                rw [hh']
                simp only
                split <;> exact hb
            | edit e =>
                have hbase := halone.2 b e hf rfl
                cases he : edit env who session e b with
                | ok d c =>
                    simp only [he, respond, tracked, Option.some.injEq] at hh ⊢
                    rw [← hh]
                    obtain ⟨step, hleads, hsessions⟩ := edit_ok he hbase hmeets
                    exact hb.change hleads hsessions
                | error r c =>
                    simp only [he, respond, tracked, Option.some.injEq] at hh ⊢
                    rw [← hh]
                    obtain ⟨hmodel, hsessions⟩ := edit_error he hbase hmeets
                    exact hb.same hmodel (by rw [Outcome.state, hsessions])
            | undo =>
                cases hu : undo env who session false b with
                | ok d c =>
                    simp only [hu, respond, tracked] at hh ⊢
                    exact undo_tracks hb hmeets hu hh
                | error r c =>
                    simp only [hu, respond, tracked, Option.some.injEq] at hh ⊢
                    rw [← hh, Outcome.state, undo_error hmeets hu]
                    exact hb
            | redo =>
                cases hu : undo env who session true b with
                | ok d c =>
                    simp only [hu, respond, tracked] at hh ⊢
                    exact undo_tracks hb hmeets hu hh
                | error r c =>
                    simp only [hu, respond, tracked, Option.some.injEq] at hh ⊢
                    rw [← hh, Outcome.state, undo_error hmeets hu]
                    exact hb
            | _ =>
                rw [respond_state]
                refine respond_changeStructure_tracks hb hmeets ?_
                rw [← hh]
                cases hc : changeStructure env who session _ b <;> simp only [tracked, hc, respond]

theorem follow_tracks {session : String} {h h' : History Model} {a b : Authority S E}
    {rs : List (Principal × Request)} (ht : Tracks session h a)
    (halone : AllServed env session (Alone env) a rs)
    (hrev : AllServed env session (Reversible env session) a rs)
    (hrun : follow env session h a rs = some (h', b)) : Tracks session h' b := by
  induction rs generalizing h a with
  | nil =>
      simp only [follow, Option.some.injEq, Prod.mk.injEq] at hrun
      obtain ⟨rfl, rfl⟩ := hrun
      exact ht
  | cons r rs ih =>
      simp only [follow, Option.bind_eq_some_iff] at hrun
      obtain ⟨h₁, htracked, hrest⟩ := hrun
      exact ih (serve_tracks ht halone.1 hrev.1 htracked) halone.2 hrev.2 hrest

theorem serve_undoRequest (env : Env S E) (who : Principal) (session : String) (redo : Bool)
    (b : Authority S E) :
    serve env who session (undoRequest redo) b =
      match refresh env b with
      | .error r a => .error r a
      | .ok _ a =>
        if !(gate env who a).seesModel then .error .forbidden a
        else respond .done (undo env who session redo a) := by
  cases redo with
  | false => rfl
  | true => rfl

/-- A session without other writers is where the history of its models is,
however its changes, undos and redos alternate; an undo or a redo is refused
only where the store cannot be looked at, the model is hidden or the history has
no state to go to, and leaves the model and the stacks. -/
theorem undo_redo_inverse {session : String} {a b : Authority S E} {h : History Model}
    {rs : List (Principal × Request)} (halone : AllServed env session (Alone env) a rs)
    (hrev : AllServed env session (Reversible env session) a rs)
    (hrun : follow env session (.start a.model) a rs = some (h, b)) :
    b.model = h.present ∧
      ∀ who redo r c, Alone env b who (undoRequest redo) →
        Reversible env session b who (undoRequest redo) →
        serve env who session (undoRequest redo) b = .error r c →
          c.model = b.model ∧ c.sessions = b.sessions ∧
            ((∃ d, refresh env b = .error r d) ∨ (gate env who c).seesModel = false ∨
              (if redo then h.future else h.past) = []) := by
  have ht := follow_tracks (.start session a) halone hrev hrun
  refine ⟨ht.model, fun who redo r c halone hrev hserve => ?_⟩
  have hserve' := (serve_undoRequest env who session redo b).symm.trans hserve
  cases hf : refresh env b with
  | error r' d =>
      simp only [hf] at hserve'
      cases hserve'
      have hk := refresh_error hf
      exact ⟨hk.model, hk.sessions, .inl ⟨c, rfl⟩⟩
  | ok moved d =>
      cases moved with
      | true => exact absurd hf (halone.1 d)
      | false =>
          have hk := refresh_unmoved hf
          simp only [hf] at hserve'
          by_cases hsees : (gate env who d).seesModel = true
          · have hpass : TopPasses env session who redo d := by
              cases redo <;> exact hrev d hf
            rw [hsees] at hserve'
            cases hu : undo env who session redo d with
            | ok done e => simp [hu, respond] at hserve'
            | error r' e =>
                simp only [hu, respond] at hserve'
                cases hserve'
                rw [undo_error hpass hu]
                refine ⟨hk.model, hk.sessions, .inr (.inr ?_)⟩
                have hd : Tracks session h d := ht.same hk.model (by rw [hk.sessions])
                have hnone : source (d.sessions session) redo = [] := by
                  cases hs : source (d.sessions session) redo with
                  | nil => rfl
                  | cons step rest =>
                      obtain ⟨t, e, done, _, hok⟩ := undo_cons hs hpass
                      rw [hok] at hu
                      cases hu
                cases redo with
                | false =>
                    have hlength := hd.recorded.past.length_le
                    rw [show (d.sessions session).undo = [] from hnone] at hlength
                    exact List.length_eq_zero_iff.mp (Nat.le_zero.mp hlength)
                | true =>
                    have hlength := hd.recorded.future.length_le
                    rw [show (d.sessions session).redo = [] from hnone] at hlength
                    exact List.length_eq_zero_iff.mp (Nat.le_zero.mp hlength)
          · simp only [hsees] at hserve'
            cases hserve'
            exact ⟨hk.model, hk.sessions, .inr (.inl (by simpa using hsees))⟩

/-! ### Several steps back -/

theorem undoMany_of_follow {session : String} {h h' : History Model} {a b : Authority S E}
    {whos : List Principal}
    (haccepted : AllServed env session (fun a who req => ∃ d c, serve env who session req a =
      .ok d c) a (whos.map fun who => (who, .undo)))
    (hrun : follow env session h a (whos.map fun who => (who, .undo)) = some (h', b)) :
    h.undoMany whos.length = some h' := by
  induction whos generalizing h a with
  | nil =>
      simp only [List.map_nil, follow, Option.some.injEq, Prod.mk.injEq] at hrun
      rw [← hrun.1]
      rfl
  | cons who whos ih =>
      obtain ⟨⟨d, c, hserve⟩, hrest⟩ := haccepted
      simp only [List.map_cons, follow, Option.bind_eq_some_iff] at hrun
      obtain ⟨h₁, htracked, hrun⟩ := hrun
      rw [hserve] at htracked
      have hundo : h.undo = some h₁ := htracked
      rw [List.length_cons, History.undoMany, hundo]
      exact ih hrest hrun

/-- Undoing the last steps of a session, so many as are accepted, brings back
the model there was before them. -/
theorem undo_many_restores {session : String} {a b c : Authority S E} {h h' : History Model}
    {rs : List (Principal × Request)} {whos : List Principal}
    (halone : AllServed env session (Alone env) a rs)
    (hrev : AllServed env session (Reversible env session) a rs)
    (hrun : follow env session (.start a.model) a rs = some (h, b))
    (halone' : AllServed env session (Alone env) b (whos.map fun who => (who, .undo)))
    (hrev' : AllServed env session (Reversible env session) b (whos.map fun who => (who, .undo)))
    (hrun' : follow env session h b (whos.map fun who => (who, .undo)) = some (h', c))
    (haccepted : AllServed env session (fun a who req => ∃ d c, serve env who session req a =
      .ok d c) b (whos.map fun who => (who, .undo))) :
    (h.present :: h.past)[whos.length]? = some c.model := by
  have ht := follow_tracks (follow_tracks (.start session a) halone hrev hrun) halone' hrev' hrun'
  rw [ht.model]
  exact History.present_undoMany (undoMany_of_follow haccepted hrun')

/-! ## A cell set twice in a batch -/

/-- A batch, and it undone. -/
def editUndo (e : EditReq) : List (Principal × Request) :=
  [(⟨"ann", []⟩, .edit e), (⟨"ann", []⟩, .undo)]

/-- One cell set once. -/
def once : EditReq := ⟨[⟨100, [(1, 10)], some (.text "first")⟩]⟩

/-- A store that counts its saves and has one writer is where it was. -/
theorem refresh_counting {a : Authority Int Unit} (htx : a.tx = some a.world)
    (hstore : a.store = true) :
    refresh (plainEnv counting) a = .ok false { a with probes := a.probes + 1 } := by
  simp [refresh, openStore, hstore, plainEnv, counting, htx]

theorem alone_editUndo {e : EditReq} {b : Authority Int Unit}
    (hlast : (lastTry (plainEnv counting) ⟨"ann", []⟩ e
      { opened 1 noteModel with probes := 1 }).1 = { opened 1 noteModel with probes := 1 })
    (hserve : (serve (plainEnv counting) ⟨"ann", []⟩ "s" (.edit e) (opened 1 noteModel)).state =
      b)
    (htx : b.tx = some b.world) (hstore : b.store = true) :
    AllServed (plainEnv counting) "s" (Alone (plainEnv counting)) (opened 1 noteModel)
      (editUndo e) := by
  have hfirst := refresh_counting (a := opened 1 noteModel) rfl rfl
  refine ⟨⟨fun c hc => ?_, fun c e' hc he => ?_⟩, ⟨fun c hc => ?_, fun c e' hc he => ?_⟩, trivial⟩
  · rw [hfirst] at hc
    cases hc
  · rw [hfirst] at hc
    cases hc
    cases he
    exact hlast
  · rw [hserve, refresh_counting htx hstore] at hc
    cases hc
  · cases he

/-- The cell is back at what it held once the batch is undone. -/
theorem undo_redo_inverse_once :
    (follow (plainEnv counting) "s" (.start noteModel) (opened 1 noteModel)
      (editUndo once)).map (fun p => p.2.model) = some noteModel := by
  have hrev : AllServed (plainEnv counting) "s" (Reversible (plainEnv counting) "s")
      (opened 1 noteModel) (editUndo once) := by
    refine ⟨fun b hb => ?_, fun b hb => ?_, trivial⟩
    · rw [refresh_counting rfl rfl] at hb
      cases hb
      intro checked hc
      cases hc
      exact takenBack_of_nodup _ (by simp)
    · rw [refresh_counting rfl rfl] at hb
      cases hb
      intro step rest hs
      cases hs
      refine ⟨rfl, ?_⟩
      rintro ⟨r, c, h⟩
      cases h
  obtain ⟨⟨h, b⟩, hrun⟩ : ∃ p, follow (plainEnv counting) "s" (.start noteModel)
      (opened 1 noteModel) (editUndo once) = some p := ⟨_, rfl⟩
  have hpresent : (follow (plainEnv counting) "s" (.start noteModel) (opened 1 noteModel)
      (editUndo once)).map (fun p => p.1.present) = some noteModel := rfl
  have hmodel := (undo_redo_inverse (alone_editUndo rfl rfl rfl rfl) hrev hrun).1
  rw [hrun] at hpresent ⊢
  exact (congrArg some hmodel).trans hpresent

/-- The cell is left at the value the batch gave it first. -/
theorem undo_leaves_first_of_twice :
    ¬∀ (rs : List (Principal × Request)) (h : History Model) (b : Authority Int Unit),
      AllServed (plainEnv counting) "s" (Alone (plainEnv counting)) (opened 1 noteModel) rs →
      follow (plainEnv counting) "s" (.start noteModel) (opened 1 noteModel) rs = some (h, b) →
        b.model = h.present := by
  intro hall
  obtain ⟨⟨h, b⟩, hrun⟩ : ∃ p, follow (plainEnv counting) "s" (.start noteModel)
      (opened 1 noteModel) (editUndo twice) = some p := ⟨_, rfl⟩
  have hmodel := hall _ h b (alone_editUndo rfl rfl rfl rfl) hrun
  have hcell : (follow (plainEnv counting) "s" (.start noteModel) (opened 1 noteModel)
      (editUndo twice)).map (fun p =>
        p.2.model.inputs.get? ⟨⟨100⟩, .ofList [(⟨1⟩, ⟨10⟩)]⟩ =
          p.1.present.inputs.get? ⟨⟨100⟩, .ofList [(⟨1⟩, ⟨10⟩)]⟩ : _ → Bool) = some false := by
    decide +kernel
  rw [hrun] at hcell
  simp [hmodel] at hcell

end Authority

end Improv.Service
