import Improv.Lib.WriteBatch
import Improv.Service.Policy
import Improv.Service.Wire
/-!
# The authority

One model, its live engine, and the operations a client asks of it, in the order
the source has them.  The store and the engine are parameters: what the
authority calls of them, each call free to answer anything, so that every other
writer and every fault is covered.  An operation is a state transformer that
keeps the state it reached when it refuses.
-/

namespace Improv.Service

open Improv.Lib Improv.CoreModel Improv.Engine

/-- Undo steps kept per session. -/
def undoDepth : Nat := 100

/-- Changes kept for clients that reconnect. -/
def logDepth : Nat := 1024

/-- Most edits in one batch. -/
def maxEdits : Nat := 10000

/-- Most cells one window returns. -/
def maxWindow : Nat := 200000

/-- Cells with the value each is set to, or cleared. -/
abbrev Cells := List (Cell × Option Value)

/-! ## What the authority is built on -/

/-- What changed in a model, as a save names it. -/
structure ChangeSet where
  cells : List Cell
  structural : Bool

/-- A store's refusal: another writer committed, or anything else. -/
inductive StoreError
  | conflict (m : String)
  | other (text : String)

/-- The calls on the store.  `S` is the world behind them: the stored model, the
other writers, what a handle remembers. -/
structure StoreApi (S : Type) where
  openStore : S → Except StoreError Unit × S
  txHighWater : S → Except StoreError Int × S
  /-- The stored model and the transaction it is at. -/
  loadModel : S → Except StoreError (Model × Option Int) × S
  /-- The model saved over the transaction it was loaded at; the one it is then
  at. -/
  saveChanges : Option Int → Model → ChangeSet → S → Except StoreError (Option Int) × S

/-- What an edit round changed, by measure, in measure order. -/
abbrev RoundChanges := List (MeasureId × List CellChange)

/-- The calls on the engine. -/
structure EngineApi (E : Type) where
  new : Model → List MeasureId → Except String (E × Snapshot)
  applyDelta : E → List Edit → Except String (RoundChanges × E)
  snapshot : E → Except String Snapshot

/-- What the parser, the compiler and the formula printer answer. -/
structure FormulaApi where
  /-- A parse error's text and where it stands. -/
  parseFormula : Model → String → Except (String × DiagnosticOut) Formula
  /-- A named lambda's definition; none where the text defines another thing. -/
  parseLambda : Model → String → Except (String × DiagnosticOut) (Option NamedLambda)
  derivedShape : Model → MeasureId → String → Formula →
    Except String (ValueType × List CategoryId)
  compileFormula : Model → MeasureId → Formula → Option String
  /-- A compile error located in the formula's text. -/
  compileError : Model → String → String → DiagnosticOut
  formulaText : Model → Formula → String

structure Env (S E : Type) where
  chrono : Chrono
  policy : Policy
  store : StoreApi S
  engine : EngineApi E
  formulas : FormulaApi

/-! ## The state -/

/-- One undo step: the structure before a change and the cells the change
dropped, or the cells a batch replaced and as it set them. -/
inductive Step
  | structural (before : Model) (dropped : Cells)
  | cells (before after : Cells)

/-- One logged change: its version and the cells it changed; none where the
structure changed and every client reloads. -/
structure Logged where
  version : String
  cells : Option (List (MeasureId × CoordKey × Option WireValue))

/-- A session's undo and redo steps, the last one first. -/
structure Stacks where
  undo : List Step
  redo : List Step

def Stacks.empty : Stacks := ⟨[], []⟩

/-- The authority over one model. -/
structure Authority (S E : Type) where
  world : S
  model : Model
  /-- The store's high-water mark `model` is at. -/
  tx : Option Int
  /-- Whether a store handle is held. -/
  store : Bool
  engine : Option E
  snapshot : Snapshot
  /-- Oldest first. -/
  log : List Logged
  sessions : String → Stacks
  structureVersion : Nat
  loads : Nat
  probes : Nat

/-- What an operation answers, or its refusal, with the state it leaves. -/
abbrev Outcome (S E T : Type) := EStateM.Result Refusal (Authority S E) T

def Outcome.state {S E T : Type} : Outcome S E T → Authority S E
  | .ok _ a | .error _ a => a

def Refusal.ofStore : StoreError → Refusal
  | .conflict m =>
    .conflict s!"another writer changed the model ({m}); reload and try again"
  | .other text => .internal text

/-! ## Coordinates as keys -/

def encodeCoord (c : Coordinate) : CoordKey := c.entries.map fun p => (p.1.id, p.2.id)

def decodeCoord (k : CoordKey) : Coordinate :=
  .fromPairs (k.map fun p => (⟨p.1⟩, ⟨p.2⟩))

namespace Authority

variable {S E : Type} (env : Env S E)

/-- The model's version: opaque, compared for equality only. -/
def version (a : Authority S E) : String := a.tx.elim "0" toString

/-- A store handle is held, opened where none is. -/
def openStore (a : Authority S E) : Outcome S E Unit :=
  if a.store then .ok () a
  else
    match env.store.openStore a.world with
    | (.ok (), world) => .ok () { a with world, store := true }
    | (.error e, world) => .error (.ofStore e) { a with world }

/-- Whether a formula is one the desktop client disabled. -/
def disabled (x : Measure) : Bool :=
  x.isDerived && x.description.any fun d =>
    d = "[improv:formula-disabled]" || d.startsWith "[improv:formula-disabled] "

/-- A live engine over the enabled derived measures, or none when there are
none. -/
def buildEngine (m : Model) : Except String (Option E × Snapshot) :=
  let m := { m with
    measures := m.measures.map fun _ x => if disabled x then { x with kind := .input } else x }
  let derived := (m.measures.values.filter Measure.isDerived).map Measure.id
  if derived.isEmpty then .ok (none, fun _ => ∅)
  else (env.engine.new m derived).map fun x => (some x.1, x.2)

/-- A new engine; a model whose formulas do not build still serves, its derived
cells blank. -/
def rebuild (a : Authority S E) : Authority S E :=
  match buildEngine env a.model with
  | .ok (engine, snapshot) => { a with engine, snapshot }
  | .error _ => { a with engine := none, snapshot := fun _ => ∅ }

def pushLog (a : Authority S E)
    (cells : Option (List (MeasureId × CoordKey × Option WireValue))) : Authority S E :=
  let log := a.log ++ [⟨a.version, cells⟩]
  { a with log := log.drop (log.length - logDepth) }

def reload (a : Authority S E) : Outcome S E Unit :=
  match openStore env a with
  | .error r a => .error r a
  | .ok () a =>
    match env.store.loadModel a.world with
    | (.error e, world) => .error (.ofStore e) { a with world }
    | (.ok (model, tx), world) =>
      .ok () (rebuild env { a with
        world
        loads := a.loads + 1
        structureVersion := a.structureVersion + 1
        model
        tx })

/-- Reload when another writer moved the store; logged as a reload, since the
cells it touched are not known. -/
def refresh (a : Authority S E) : Outcome S E Bool :=
  match openStore env { a with probes := a.probes + 1 } with
  | .error r a => .error r a
  | .ok () a =>
    match env.store.txHighWater a.world with
    | (.error e, world) => .error (.ofStore e) { a with world, store := false }
    | (.ok hw, world) =>
      let a := { a with world }
      if some hw = a.tx then .ok false a
      else
        match reload env a with
        | .error r a => .error r a
        | .ok () a => .ok true (a.pushLog none)

/-- A principal's decisions over the current structure. -/
def gate (who : Principal) (a : Authority S E) : Gate :=
  ⟨env.policy.session a.model a.structureVersion who, a.model⟩

/-! ## Cell edits -/

/-- Whether a coordinate has exactly one item of each of a measure's
categories. -/
def fitsMeasure (m : Model) (x : Measure) (pairs : List (CategoryId × ItemId))
    (coord : Coordinate) : Bool :=
  coord.size = pairs.length && coord.size = x.categories.length &&
    x.categories.all fun c =>
      ((coord.get? c).bind m.items.get?).any fun it => it.category = c

/-- An edit checked: the cell a principal may edit, and its value of the
measure's type.  A hidden cell is refused as a missing one. -/
def checkEdit (who : Principal) (a : Authority S E) (e : CellEdit) :
    Except Refusal (Cell × Option Value) :=
  let g := gate env who a
  let mid : MeasureId := ⟨e.measure⟩
  let gone := Refusal.notFound "such cell in measure" e.measure
  match a.model.measures.get? mid with
  | none => .error gone
  | some x =>
    if !g.seesMeasure mid then .error gone
    else
      let pairs := e.coord.map fun p => ((⟨p.1⟩ : CategoryId), (⟨p.2⟩ : ItemId))
      let coord := Coordinate.fromPairs pairs
      if !fitsMeasure a.model x pairs coord || !g.seesCell mid coord then .error gone
      else if !x.isInput then .error (.bad s!"{x.name} is computed: edit its formula")
      else if a.model.sqlSources.contains mid || a.model.externalCalls.contains mid then
        .error (.bad s!"{x.name} is filled from its source")
      else if !g.editsCell mid coord then .error gone
      else
        match e.value with
        | none => .ok (⟨mid, coord⟩, none)
        | some w =>
          match w.toValue env.chrono x.valueType with
          | .ok v => .ok (⟨mid, coord⟩, some v)
          | .error m => .error (.bad s!"{x.name}: {m}")

/-- Every edit checked, the refusal of the first that fails naming its index. -/
def checkEdits (who : Principal) (a : Authority S E) (i : Nat) :
    List CellEdit → Except Refusal Cells
  | [] => .ok []
  | e :: es =>
    match checkEdit env who a e with
    | .error r => .error (r.atIndex i)
    | .ok w =>
      match checkEdits who a (i + 1) es with
      | .error r => .error r
      | .ok ws => .ok (w :: ws)

/-- Sets or clears each cell; what each held before. -/
def setCells (m : Model) (cells : Cells) : Model × Cells :=
  let written := m.inputs.writeAll cells
  ({ m with inputs := written.1 }, written.2)

/-- `model` saved over the store's current one. -/
def save (model : Model) (changes : ChangeSet) (a : Authority S E) : Outcome S E Unit :=
  match openStore env a with
  | .error r a => .error r a
  | .ok () a =>
    match env.store.saveChanges a.tx model changes a.world with
    | (.ok tx, world) => .ok () { a with world, tx }
    | (.error e, world) => .error (.ofStore e) { a with world, store := false }

/-- The engine cell an input of type `ty` holding `v` feeds; a value of another
type is no cell. -/
def inputCell (ty : ValueType) (v : Value) : Option CellValue :=
  let typed :=
    match ty, v with
    | .number, .number _ | .boolean, .boolean _ | .text, .text _ | .dateTime, .dateTime _ => true
    | _, _ => false
  if typed then some (.fromModelValue v) else none

/-- The written cells, as the log names them. -/
def loggedEdits (edits : Cells) : List (MeasureId × CoordKey × Option WireValue) :=
  edits.map fun w =>
    (w.1.measure, encodeCoord w.1.coord, w.2.map (WireValue.fromValue env.chrono))

/-- The written cells, as the engine is fed them. -/
def feed (m : Model) (edits : Cells) : List Edit :=
  edits.map fun w =>
    { measure := w.1.measure
      coord := encodeCoord w.1.coord
      value := w.2.bind fun v =>
        (m.measures.get? w.1.measure).bind fun x => inputCell x.valueType v }

/-- What the engine's round changed, as the log names it. -/
def loggedRound (delta : RoundChanges) : List (MeasureId × CoordKey × Option WireValue) :=
  delta.flatMap fun x =>
    x.2.map fun c => (x.1, c.coord, c.new.map (WireValue.ofCell env.chrono))

/-- The edits through the engine: what changed, and its cells after. -/
def round (engine : E) (edits : List Edit) : Except String (RoundChanges × E × Snapshot) :=
  match env.engine.applyDelta engine edits with
  | .error e => .error e
  | .ok (delta, engine) =>
    match env.engine.snapshot engine with
    | .error e => .error e
    | .ok snapshot => .ok (delta, engine, snapshot)

/-- The saved edits pushed through the engine, and what changed logged; an
engine that fails is rebuilt and every client reloads. -/
def publishEdits (edits : Cells) (a : Authority S E) : Authority S E :=
  let changed := loggedEdits env edits
  match a.engine with
  | none => a.pushLog (some changed)
  | some engine =>
    match round env engine (feed a.model edits) with
    | .ok (delta, engine, snapshot) =>
      pushLog { a with engine := some engine, snapshot }
        (some (changed ++ loggedRound env delta))
    | .error _ => (rebuild env a).pushLog none

/-- Sets the cells, saves them, pushes them through the engine and logs what
changed; the values they replaced.  The cells are taken back where the save is
refused. -/
def applyCells (edits : Cells) (a : Authority S E) : Outcome S E Cells :=
  let (model, before) := setCells a.model edits
  match save env model ⟨edits.map (·.1), false⟩ { a with model } with
  | .error r a => .error r { a with model := (setCells a.model before).1 }
  | .ok () a => .ok before (publishEdits env edits a)

def record (session : String) (step : Step) (a : Authority S E) : Authority S E :=
  { a with
    sessions := Function.update a.sessions session
      ⟨(step :: (a.sessions session).undo).take undoDepth, []⟩ }

/-- The edits checked and applied; checked and applied again, `tries` times at
most, where the store refuses them because another writer came between. -/
def editLoop (who : Principal) (edits : List CellEdit) :
    Nat → Authority S E → Outcome S E (Cells × Cells)
  | tries, a =>
    match checkEdits env who a 0 edits with
    | .error r => .error r a
    | .ok checked =>
      match applyCells env checked a, tries with
      | .ok before a, _ => .ok (before, checked) a
      | .error r a, 0 => .error r a
      | .error r a, tries + 1 =>
        if r.status = 409 then
          match refresh env a with
          | .error r a => .error r a
          | .ok _ a => editLoop who edits tries a
        else .error r a

def plural (n : Nat) (word : String) : String :=
  s!"{n} {word}" ++ if n = 1 then "" else "s"

/-- The edits applied together, or none. -/
def edit (who : Principal) (session : String) (req : EditReq) (a : Authority S E) :
    Outcome S E Done :=
  if maxEdits < req.edits.length then
    .error (.bad s!"{req.edits.length} edits; at most {maxEdits} in one batch") a
  else
    match editLoop env who req.edits 3 a with
    | .error r a => .error r a
    | .ok (before, after) a =>
      let a := record session (.cells before after) a
      .ok ⟨a.version, plural req.edits.length "cell" ++ " set", none⟩ a

end Authority

end Improv.Service
