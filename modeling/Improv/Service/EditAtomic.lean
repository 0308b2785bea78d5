import Improv.Service.Frames
/-!
# Batches of cell edits

A batch is written into the model before it is saved, and what it replaced is
written back where the save is refused.  The loop around it checks and applies
the batch again after a reload.  The state a refused batch is to leave is the
one its last reload made, or the one before it; the loop's invariant is that it
stands there, but for the cells a refused save has rolled back.
-/

namespace Improv.Service

open Improv.Lib Improv.CoreModel Improv.Engine WriteBatch

namespace Authority

variable {S E : Type} (env : Env S E)

/-- The state the call's last reload made, or the one before the call, and the
state its last attempt at the batch starts in. -/
def lastAttempt (who : Principal) (edits : List CellEdit) :
    Nat → Authority S E → Authority S E → Authority S E × Authority S E
  | tries, base, a =>
    match checkEdits env who a 0 edits with
    | .error _ => (base, a)
    | .ok checked =>
      match applyCells env checked a, tries with
      | .ok _ _, _ => (base, a)
      | .error _ _, 0 => (base, a)
      | .error r b, tries + 1 =>
        if r.status = 409 then
          match refresh env b with
          | .error _ _ => (base, a)
          | .ok reloaded b => lastAttempt who edits tries (if reloaded then b else base) b
        else (base, a)

/-- Where a call's last attempt stands; a batch over the limit is not tried. -/
def lastTry (who : Principal) (req : EditReq) (a : Authority S E) :
    Authority S E × Authority S E :=
  if maxEdits < req.edits.length then (a, a) else lastAttempt env who req.edits 3 a a

/-- The store refuses the model a batch is written into. -/
def SaveRefused (edits : Cells) (a : Authority S E) : Prop :=
  let model := (setCells a.model edits).1
  ∃ r b, save env model ⟨edits.map (·.1), false⟩ { a with model } = .error r b

/-- `b` holds the model, the snapshot, the change log and the undo stacks that
`a` holds. -/
structure SameData (a b : Authority S E) : Prop where
  model : b.model = a.model
  snapshot : b.snapshot = a.snapshot
  log : b.log = a.log
  sessions : b.sessions = a.sessions

/-- `b`'s model is `a`'s with each cell at the last value the edits give it. -/
structure Written (edits : Cells) (a b : Authority S E) : Prop where
  structureOf : b.model.structureOf = a.model.structureOf
  inputs : ∀ c, b.model.inputs.get? c = (lastValue edits c).getD (a.model.inputs.get? c)

/-- Together or not at all: a refused batch leaves the data as it was before it
or as the store's reload made it, and an accepted one the values it gives. -/
def EditAtomic (who : Principal) (session : String) (req : EditReq) (a : Authority S E) :
    Prop :=
  let base := (lastTry env who req a).1
  match edit env who session req a with
  | .error _ b => SameData base b
  | .ok _ b =>
    ∃ checked, checkEdits env who base 0 req.edits = .ok checked ∧ Written checked base b

/-! ## One attempt -/

variable {env}

@[simp] theorem pushLog_model (a : Authority S E)
    (cells : Option (List (MeasureId × CoordKey × Option WireValue))) :
    (a.pushLog cells).model = a.model := by
  unfold pushLog
  rfl

@[simp] theorem pushLog_sessions (a : Authority S E)
    (cells : Option (List (MeasureId × CoordKey × Option WireValue))) :
    (a.pushLog cells).sessions = a.sessions := by
  unfold pushLog
  rfl

@[simp] theorem pushLog_tx (a : Authority S E)
    (cells : Option (List (MeasureId × CoordKey × Option WireValue))) :
    (a.pushLog cells).tx = a.tx := by
  unfold pushLog
  rfl

@[simp] theorem pushLog_world (a : Authority S E)
    (cells : Option (List (MeasureId × CoordKey × Option WireValue))) :
    (a.pushLog cells).world = a.world := by
  unfold pushLog
  rfl

@[simp] theorem pushLog_engine (a : Authority S E)
    (cells : Option (List (MeasureId × CoordKey × Option WireValue))) :
    (a.pushLog cells).engine = a.engine := by
  unfold pushLog
  rfl

@[simp] theorem pushLog_snapshot (a : Authority S E)
    (cells : Option (List (MeasureId × CoordKey × Option WireValue))) :
    (a.pushLog cells).snapshot = a.snapshot := by
  unfold pushLog
  rfl

@[simp] theorem rebuild_model (a : Authority S E) : (rebuild env a).model = a.model := by
  unfold rebuild
  split <;> rfl

@[simp] theorem rebuild_sessions (a : Authority S E) : (rebuild env a).sessions = a.sessions := by
  unfold rebuild
  split <;> rfl

/-- What is pushed through the engine and logged touches no cell and no stack. -/
theorem publishEdits_kept (env : Env S E) (edits : Cells) (a : Authority S E) :
    (publishEdits env edits a).model = a.model ∧
      (publishEdits env edits a).sessions = a.sessions := by
  unfold publishEdits
  simp only
  split
  · simp
  · split <;> simp

theorem applyCells_ok {edits before : Cells} {a a' : Authority S E}
    (h : applyCells env edits a = .ok before a') :
    a'.model = (setCells a.model edits).1 ∧ before = (setCells a.model edits).2 ∧
      a'.sessions = a.sessions := by
  unfold applyCells at h
  simp only at h
  split at h
  · cases h
  · rename_i hsave
    cases h
    have hk := save_ok hsave
    have hp := publishEdits_kept env edits
    exact ⟨(hp _).1.trans hk.model, rfl, (hp _).2.trans hk.sessions⟩

/-- A refused attempt leaves the cells rolled back and the rest as it was. -/
theorem applyCells_error {edits : Cells} {a a' : Authority S E} {r : Refusal}
    (h : applyCells env edits a = .error r a') :
    Kept { a with model := { a.model with inputs := rolledBack a.model.inputs edits } } a' := by
  unfold applyCells at h
  simp only at h
  split at h
  · rename_i hsave
    cases h
    have hk := save_error hsave
    refine ⟨?_, hk.tx, hk.engine, hk.snapshot, hk.log, hk.sessions, hk.structureVersion, hk.loads⟩
    simp only [hk.model]
    rfl
  · cases h

theorem saveRefused_iff {edits : Cells} {a : Authority S E} :
    SaveRefused env edits a ↔ ∃ r b, applyCells env edits a = .error r b := by
  unfold SaveRefused applyCells
  constructor
  · rintro ⟨r, b, h⟩
    simp only [h]
    exact ⟨_, _, rfl⟩
  · rintro ⟨r, b, h⟩
    simp only at h
    split at h
    · rename_i hsave
      exact ⟨_, _, hsave⟩
    · cases h

/-! ## The loop -/

/-- The loop stands at `base`, but for the cells a refused save rolled back. -/
structure Standing (env : Env S E) (who : Principal) (edits : List CellEdit)
    (base a : Authority S E) : Prop where
  kept : Kept { base with model := { base.model with inputs := a.model.inputs } } a
  cells : a.model.inputs = base.model.inputs ∨
    ∃ checked, checkEdits env who base 0 edits = .ok checked ∧
      a.model.inputs = rolledBack base.model.inputs checked

namespace Standing

variable {who : Principal} {edits : List CellEdit} {base a b : Authority S E}

theorem start (env : Env S E) (who : Principal) (edits : List CellEdit) (a : Authority S E) :
    Standing env who edits a a :=
  ⟨.refl a, .inl rfl⟩

theorem checkEdits (h : Standing env who edits base a) :
    checkEdits env who a 0 edits = checkEdits env who base 0 edits := by
  apply SameStructure.checkEdits
  exact ⟨by rw [h.kept.model]; rfl, h.kept.structureVersion⟩

/-- However often it was rolled back, the batch rolls back to the same cells. -/
theorem rolledBack_eq (h : Standing env who edits base a) {checked : Cells}
    (hc : Authority.checkEdits env who base 0 edits = .ok checked) :
    rolledBack a.model.inputs checked = rolledBack base.model.inputs checked := by
  rcases h.cells with heq | ⟨c, hc', heq⟩
  · rw [heq]
  · obtain rfl : checked = c := by simpa [hc] using hc'
    rw [heq, rolledBack_rolledBack]

/-- Written over, the cells rolled back do not count. -/
theorem writeAll_eq (h : Standing env who edits base a) {checked : Cells}
    (hc : Authority.checkEdits env who base 0 edits = .ok checked) :
    (a.model.inputs.writeAll checked).1 = (base.model.inputs.writeAll checked).1 := by
  rcases h.cells with heq | ⟨c, hc', heq⟩
  · rw [heq]
  · obtain rfl : checked = c := by simpa [hc] using hc'
    rw [heq, writeAll_rolledBack]

/-- A refused attempt keeps the loop where it stands. -/
theorem refused (h : Standing env who edits base a) {checked : Cells} {r : Refusal}
    (hc : Authority.checkEdits env who base 0 edits = .ok checked)
    (hr : applyCells env checked a = .error r b) :
    Kept { base with
      model := { base.model with inputs := rolledBack base.model.inputs checked } } b := by
  have hb := applyCells_error hr
  have hmodel : { a.model with inputs := rolledBack a.model.inputs checked } =
      { base.model with inputs := rolledBack base.model.inputs checked } := by
    rw [h.rolledBack_eq hc, h.kept.model]
  exact ⟨hb.model.trans hmodel, hb.tx.trans h.kept.tx, hb.engine.trans h.kept.engine,
    hb.snapshot.trans h.kept.snapshot, hb.log.trans h.kept.log,
    hb.sessions.trans h.kept.sessions, hb.structureVersion.trans h.kept.structureVersion,
    hb.loads.trans h.kept.loads⟩

/-- A loop that stands at `base` still does once rolled back. -/
theorem of_rolledBack {checked : Cells}
    (hc : Authority.checkEdits env who base 0 edits = .ok checked)
    (hk : Kept { base with
      model := { base.model with inputs := rolledBack base.model.inputs checked } } b) :
    Standing env who edits base b := by
  have hinputs : b.model.inputs = rolledBack base.model.inputs checked := by rw [hk.model]
  refine ⟨?_, .inr ⟨checked, hc, hinputs⟩⟩
  rw [hinputs]
  exact hk

end Standing

/-- What the loop leaves, as seen from where its last attempt stands: the batch
written, or the cells as the last refused save rolled them back, or nothing
changed where a check failed. -/
inductive LoopEnd (env : Env S E) (who : Principal) (edits : List CellEdit)
    (base last : Authority S E) : Outcome S E (Cells × Cells) → Prop
  | written {before checked : Cells} {b : Authority S E}
      (check : checkEdits env who base 0 edits = .ok checked)
      (saved : ¬SaveRefused env checked last)
      (model : b.model = { base.model with
        inputs := (base.model.inputs.writeAll checked).1 })
      (sessions : b.sessions = base.sessions) :
      LoopEnd env who edits base last (.ok (before, checked) b)
  | refused {r : Refusal} {b : Authority S E}
      (check : ∀ checked, checkEdits env who base 0 edits ≠ .ok checked)
      (kept : Kept base b) :
      LoopEnd env who edits base last (.error r b)
  | rolledBack {r : Refusal} {checked : Cells} {b : Authority S E}
      (check : checkEdits env who base 0 edits = .ok checked)
      (saveRefused : SaveRefused env checked last)
      (kept : Kept { base with
        model := { base.model with inputs := rolledBack base.model.inputs checked } } b) :
      LoopEnd env who edits base last (.error r b)

theorem Standing.kept_of_error {who : Principal} {edits : List CellEdit}
    {base a : Authority S E} {r : Refusal} (h : Standing env who edits base a)
    (hc : Authority.checkEdits env who base 0 edits = .error r) : Kept base a := by
  rcases h.cells with heq | ⟨c, hc', _⟩
  · have hk := h.kept
    rw [heq] at hk
    exact hk
  · rw [hc] at hc'
    cases hc'

theorem Standing.written {who : Principal} {edits : List CellEdit}
    {base a b : Authority S E} {checked before : Cells}
    (h : Standing env who edits base a)
    (hc : Authority.checkEdits env who base 0 edits = .ok checked)
    (ha : applyCells env checked a = .ok before b) :
    LoopEnd env who edits base a (.ok (before, checked) b) := by
  obtain ⟨hmodel, _, hsessions⟩ := applyCells_ok ha
  refine .written hc ?_ ?_ (hsessions.trans h.kept.sessions)
  · rw [saveRefused_iff]
    rintro ⟨r, c, hr⟩
    rw [ha] at hr
    cases hr
  · rw [hmodel, setCells, h.writeAll_eq hc, h.kept.model]

theorem editLoop_end {env : Env S E} {who : Principal} {edits : List CellEdit} (tries : Nat)
    {base a : Authority S E} (h : Standing env who edits base a) :
    LoopEnd env who edits (lastAttempt env who edits tries base a).1
      (lastAttempt env who edits tries base a).2 (editLoop env who edits tries a) := by
  induction tries generalizing base a with
  | zero =>
      unfold lastAttempt editLoop
      rw [h.checkEdits]
      cases hc : Authority.checkEdits env who base 0 edits with
      | error r => exact .refused (by simp [hc]) (h.kept_of_error hc)
      | ok checked =>
          cases ha : applyCells env checked a with
          | ok before b =>
              simp only [ha]
              exact h.written hc ha
          | error r b =>
              simp only [ha]
              exact .rolledBack hc (saveRefused_iff.mpr ⟨r, b, ha⟩) (h.refused hc ha)
  | succ tries ih =>
      unfold lastAttempt editLoop
      rw [h.checkEdits]
      cases hc : Authority.checkEdits env who base 0 edits with
      | error r => exact .refused (by simp [hc]) (h.kept_of_error hc)
      | ok checked =>
          cases ha : applyCells env checked a with
          | ok before b =>
              simp only [ha]
              exact h.written hc ha
          | error r b =>
              have hb := h.refused hc ha
              by_cases hr : r.status = 409
              · simp only [ha, if_pos hr]
                cases hf : refresh env b with
                | error r c =>
                    exact .rolledBack hc (saveRefused_iff.mpr ⟨_, _, ha⟩)
                      (hb.trans (refresh_error hf))
                | ok reloaded c =>
                    cases reloaded with
                    | true => exact ih (.start env who edits c)
                    | false => exact ih (.of_rolledBack hc (hb.trans (refresh_unmoved hf)))
              · simp only [ha, if_neg hr]
                exact .rolledBack hc (saveRefused_iff.mpr ⟨r, b, ha⟩) hb

/-! ## The batch -/

theorem Kept.sameData {a b : Authority S E} (h : Kept a b) : SameData a b :=
  ⟨h.model, h.snapshot, h.log, h.sessions⟩

theorem written_of_model {checked : Cells} {base b : Authority S E}
    (h : b.model = { base.model with inputs := (base.model.inputs.writeAll checked).1 }) :
    Written checked base b := by
  constructor
  · rw [h]
    rfl
  · intro c
    rw [h]
    exact get?_writeAll base.model.inputs checked c

variable (env) in
/-- A batch is atomic exactly where the store takes the last attempt at it, or
every cell it names more than once held the value it gives the cell last but
one. -/
theorem edit_atomic_iff (who : Principal) (session : String) (req : EditReq)
    (a : Authority S E) :
    EditAtomic env who session req a ↔
      (req.edits.length ≤ maxEdits →
        ∀ checked, checkEdits env who (lastTry env who req a).1 0 req.edits = .ok checked →
          SaveRefused env checked (lastTry env who req a).2 →
            TakenBack (lastTry env who req a).1.model.inputs checked) := by
  unfold EditAtomic edit lastTry
  by_cases hlarge : maxEdits < req.edits.length
  · simp only [if_pos hlarge]
    exact ⟨fun _ hle => absurd hlarge (Nat.not_lt.mpr hle), fun _ => ⟨rfl, rfl, rfl, rfl⟩⟩
  · simp only [if_neg hlarge]
    have hle : req.edits.length ≤ maxEdits := Nat.not_lt.mp hlarge
    have hend := editLoop_end 3 (Standing.start env who req.edits a)
    generalize lastAttempt env who req.edits 3 a a = try_ at hend ⊢
    generalize editLoop env who req.edits 3 a = result at hend ⊢
    cases hend with
    | written hc hsaved hmodel _ =>
        refine ⟨fun _ _ checked hc' hr => ?_, fun _ => ⟨_, hc, written_of_model hmodel⟩⟩
        rw [hc] at hc'
        cases hc'
        exact absurd hr hsaved
    | refused hc hk =>
        exact ⟨fun _ _ checked hc' => absurd hc' (hc checked), fun _ => hk.sameData⟩
    | @rolledBack r checked b hc hr hk =>
        constructor
        · intro h _ checked' hc' _
          rw [hc] at hc'
          cases hc'
          have hsame : SameData try_.1 b := h
          have hinputs := congrArg Model.inputs hsame.model
          rw [hk.model] at hinputs
          exact (rolledBack_eq_iff _ _).mp hinputs
        · intro h
          have htaken := h hle checked hc hr
          rw [← rolledBack_eq_iff] at htaken
          rw [htaken] at hk
          exact hk.sameData

/-! ## A save refused on a full disk -/

/-- A store no one else writes, whose disk is full. -/
def fullDisk : StoreApi Unit where
  openStore w := (.ok (), w)
  txHighWater w := (.ok 1, w)
  loadModel w := (.ok (.new, some 1), w)
  saveChanges _ _ _ w := (.error (.other "disk full"), w)

/-- A store that counts its saves. -/
def counting : StoreApi Int where
  openStore w := (.ok (), w)
  txHighWater w := (.ok w, w)
  loadModel w := (.ok (.new, some w), w)
  saveChanges _ _ _ w := (.ok (some (w + 1)), w + 1)

/-- No engine, no formula and no policy: what a model of inputs needs. -/
def plainEnv (store : StoreApi S) : Env S Unit where
  chrono := ⟨fun _ => "", fun _ => .error "no date", fun _ => none⟩
  policy := openPolicy
  store := store
  engine := ⟨fun _ _ => .error "no engine", fun _ _ => .error "no engine",
    fun _ => .error "no engine"⟩
  formulas :=
    { parseFormula := fun _ _ => .error ("no formula", ⟨none, "no formula", none⟩)
      parseLambda := fun _ _ => .error ("no formula", ⟨none, "no formula", none⟩)
      derivedShape := fun _ _ _ _ => .error "no formula"
      compileFormula := fun _ _ _ => some "no formula"
      compileError := fun _ _ e => ⟨none, e, none⟩
      formulaText := fun _ _ => "" }

/-- One text measure over one category of one item, its cell set. -/
def noteModel : Model where
  categories := .ofList [(⟨1⟩, ⟨⟨1⟩, "Time", [⟨10⟩]⟩)]
  items := .ofList [(⟨10⟩, ⟨⟨10⟩, ⟨1⟩, "Q1"⟩)]
  measures := .ofList [(⟨100⟩, ⟨⟨100⟩, "Note", .text, [⟨1⟩], .input, none, none⟩)]
  inputs := .ofList [(⟨⟨100⟩, .ofList [(⟨1⟩, ⟨10⟩)]⟩, .text "kept")]
  sqlSources := .empty
  views := .empty
  externalFns := .empty
  externalCalls := .empty
  scenarios := .empty
  lambdas := .empty

/-- The authority that loaded a model at the store's first transaction. -/
def opened {S : Type} (w : S) (m : Model) : Authority S Unit where
  world := w
  model := m
  tx := some 1
  store := true
  engine := none
  snapshot := fun _ => ∅
  log := [⟨"1", some []⟩]
  sessions := fun _ => .empty
  structureVersion := 1
  loads := 1
  probes := 0

/-- One cell set twice in one batch. -/
def twice : EditReq :=
  ⟨[⟨100, [(1, 10)], some (.text "first")⟩, ⟨100, [(1, 10)], some (.text "second")⟩]⟩

/-- The refused batch leaves the cell at the value it gave it first. -/
theorem edit_keeps_half_of_twice :
    ¬EditAtomic (plainEnv fullDisk) ⟨"ann", []⟩ "s" twice (opened () noteModel) := by
  intro h
  obtain ⟨r, b, hb⟩ : ∃ r b,
      edit (plainEnv fullDisk) ⟨"ann", []⟩ "s" twice (opened () noteModel) = .error r b :=
    ⟨_, _, rfl⟩
  have hdata : SameData (opened () noteModel) b := by
    have hbase : (lastTry (plainEnv fullDisk) ⟨"ann", []⟩ twice (opened () noteModel)).1 =
        opened () noteModel := rfl
    unfold EditAtomic at h
    rw [hb, hbase] at h
    exact h
  have hcell : (Outcome.state (edit (plainEnv fullDisk) ⟨"ann", []⟩ "s" twice
      (opened () noteModel))).model.inputs.get? ⟨⟨100⟩, .ofList [(⟨1⟩, ⟨10⟩)]⟩ =
        some (.text "first") := by decide +kernel
  rw [hb] at hcell
  change b.model.inputs.get? _ = _ at hcell
  rw [hdata.model] at hcell
  revert hcell
  decide +kernel

end Authority

end Improv.Service
