import Improv.Engine.Derived
import Improv.Lib.Differences
import Improv.Lib.Bag
import Improv.Lib.Partition
/-!
# The live session

The worker behind a live engine: the input cells with their sessions, the
dataflow advanced component by component, the snapshot kept from its output
differences, and the FIXPOINT measures solved between rounds.  The dataflow
itself is a parameter, known by what its operators' differences add up to.
-/

namespace Improv.Engine

open Improv.Lib Improv.CoreModel

/-- A measure's cells. -/
abbrev MeasureValues := Finmap fun _ : CoordKey => CellValue

/-- Every measure's cells; a measure with no entry has none. -/
abbrev Snapshot := MeasureId → MeasureValues

/-- One cell an edit round changed. -/
structure CellChange where
  coord : CoordKey
  old : Option CellValue
  new : Option CellValue
deriving DecidableEq

/-- What an edit round changed, by measure. -/
abbrev Changes := MeasureId → List CellChange

/-- Each changed cell's value before the round. -/
abbrev Before := Finmap fun _ : MeasureId × CoordKey => Option CellValue

/-- Sets an input cell, or clears it. -/
structure Edit where
  measure : MeasureId
  coord : CoordKey
  value : Option CellValue
deriving DecidableEq

/-- Coordinates in key order. -/
def sortedCoords (s : Finset CoordKey) : List CoordKey :=
  ((s.image fun k => k.map toLex).sort (· ≤ ·)).map fun k => k.map ofLex

/-! ## Differences settled into the snapshot -/

/-- What a difference is of: a measure's cell holding a value. -/
structure DeltaKey where
  measure : MeasureId
  coord : CoordKey
  value : CellValue

namespace DeltaKey

def orderKey (d : DeltaKey) : MeasureId ×ₗ List (ℕ ×ₗ ℕ) ×ₗ CellValue :=
  toLex (d.measure, toLex (d.coord.map toLex, d.value))

theorem orderKey_injective : Function.Injective orderKey := by
  intro a b h
  obtain ⟨m, k, v⟩ := a
  obtain ⟨m', k', v'⟩ := b
  simp only [orderKey, EmbeddingLike.apply_eq_iff_eq, Prod.mk.injEq] at h
  obtain ⟨rfl, hk, rfl⟩ := h
  rw [toLex.injective.list_map hk]

instance : LinearOrder DeltaKey := LinearOrder.lift' orderKey orderKey_injective

end DeltaKey

/-- A difference of a measure's output. -/
abbrev Delta := DeltaKey × ℤ

/-- The snapshot, the measures changed since the round began, and, while a
round records them, the changed cells' values before it. -/
structure Board where
  snapshot : Snapshot
  dirty : MeasureId → Bool
  log : Option Before

/-- A cell's value recorded, unless one is already. -/
def Before.orInsert (b : Before) (x : MeasureId × CoordKey) (v : Option CellValue) : Before :=
  if x ∈ b then b else b.insert x v

namespace Board

def markDirty (b : Board) (m : MeasureId) : Board :=
  { b with dirty := Function.update b.dirty m true }

def setValues (b : Board) (m : MeasureId) (vals : MeasureValues) : Board :=
  { b with snapshot := Function.update b.snapshot m vals }

end Board

/-- A measure's cells after a difference: an assertion sets the cell, a
retraction removes it where it holds the retracted value. -/
def applyDelta (vals : MeasureValues) (d : Delta) : MeasureValues :=
  if 0 < d.2 then vals.insert d.1.coord d.1.value
  else if vals.lookup d.1.coord = some d.1.value then vals.erase d.1.coord
  else vals

/-- One consolidated difference in the pass over retractions or the one over
assertions. -/
def settleDelta (pass : Bool) (b : Board) (d : Delta) : Board :=
  if d.2 = 0 ∨ decide (0 < d.2) ≠ pass then b
  else
    let vals := b.snapshot d.1.measure
    { snapshot := Function.update b.snapshot d.1.measure (applyDelta vals d)
      dirty := Function.update b.dirty d.1.measure true
      log := b.log.map fun l =>
        l.orInsert (d.1.measure, d.1.coord) (vals.lookup d.1.coord) }

/-- A round's differences applied consolidated, every retraction before any
assertion. -/
def settle (b : Board) (d : List Delta) : Board :=
  let net := consolidate d
  net.foldl (settleDelta true) (net.foldl (settleDelta false) b)

/-- A difference of the seed, applied as it arrives. -/
def assertDelta (b : Board) (d : Delta) : Board :=
  let b := b.markDirty d.1.measure
  if d.2 = 0 then b else b.setValues d.1.measure (applyDelta (b.snapshot d.1.measure) d)

/-- The cells that differ from `old` in `new`, recorded at their old value. -/
def note (b : Before) (m : MeasureId) (old new : MeasureValues) : Before :=
  let b := (sortedCoords old.keys).foldl (fun b k =>
    if new.lookup k = old.lookup k then b else Before.orInsert b (m, k) (old.lookup k)) b
  (sortedCoords new.keys).foldl (fun b k =>
    if k ∈ old then b else Before.orInsert b (m, k) none) b

/-- Each recorded cell whose value in the snapshot differs from the one before,
but those of the hidden measures, in key order. -/
def changes (snapshot : Snapshot) (before : Before) (hidden : List MeasureId) : Changes :=
  fun m =>
    if m ∈ hidden then []
    else
      (sortedCoords ((before.keys.filter fun x => x.1 = m).image Prod.snd)).filterMap fun k =>
        let old := (before.lookup (m, k)).getD none
        let new := (snapshot m).lookup k
        if old = new then none else some ⟨k, old, new⟩

/-! ## The graph -/

/-- A FIXPOINT measure: its iterate's session, its first iterate and its body
as measures, and what the body reads besides the iterate.  `host` is the body's
plan where the host evaluates it. -/
structure Fix where
  id : MeasureId
  r : MeasureId
  init : MeasureId
  body : MeasureId
  maxIter : Nat
  tolerance : F64
  host : Option PlanNode
  reads : List MeasureId

/-- The measures with sessions, the plans built as a dataflow, and the FIXPOINT
measures. -/
structure Graph where
  inputs : List MeasureId
  plans : Plans
  fixes : List Fix

namespace Graph

variable (R : Registry) (K : Kernels) (g : Graph)

/-- The sessions' collections, as what the plans read. -/
def sources (colls : MeasureId → Coll) : Sources := fun m =>
  if m ∈ g.inputs then some (colls m) else none

/-- Every derived measure's collection over the sessions'. -/
def outputs (colls : MeasureId → Coll) : MeasureId → Coll := fun m =>
  ((buildDerived R K (g.sources colls) g.plans).derived m).getD 0

/-- The derived measures that have a collection. -/
def built : List MeasureId := (buildDerived R K (g.sources fun _ => 0) g.plans).ids

/-- The measures connected by reads. -/
def comps : Partition MeasureId :=
  let p := g.plans.foldl (fun p x => p.unionAll x.1 (planReads x.2)) .discrete
  g.fixes.foldl (fun p f => p.unionAll f.id ([f.r, f.init, f.body] ++ f.reads)) p

/-- A FIXPOINT's parts: not edited, not reported. -/
def internal : List MeasureId := g.fixes.flatMap fun f => [f.id, f.r, f.init, f.body]

/-- The measures no reply shows. -/
def hidden : List MeasureId := g.fixes.flatMap fun f => [f.init, f.body]

/-- The graph of some plans: a body the host evaluates is no plan of its own,
and one that reads a measure with no collection is none of the host's. -/
def make (inputs : List MeasureId) (plans : Plans) (fixes : List Fix) : Graph :=
  let kept := plans.filter fun x => !fixes.any fun f => decide (f.body = x.1) && f.host.isSome
  let built := Graph.built R K ⟨inputs, kept, []⟩
  ⟨inputs, kept, fixes.map fun f =>
    if f.reads.all fun m => decide (m ∈ inputs ∨ m ∈ built) then f
    else { f with host := none }⟩

end Graph

/-- A dataflow's output differences at each time, for the measures advanced to
it: they add up to the change of each measure's collection.  Those of the seed
only assert. -/
structure Flow where
  emit : ℕ → List MeasureId → (MeasureId → Coll) → (MeasureId → Coll) → List Delta
  accumulates : ∀ t ids old new m k v,
    weight (emit t ids old new) ⟨m, k, v⟩ =
      if m ∈ ids then ((new m).count (k, v) : ℤ) - (old m).count (k, v) else 0
  seed_asserts : ∀ ids new, ∀ d ∈ emit 0 ids (fun _ => 0) new, 0 < d.2

/-! ## The worker -/

/-- What a FIXPOINT's sessions hold: the iterate last fed to `r`, and the
published result and whether it converged. -/
structure FixState where
  r : MeasureValues
  result : MeasureValues
  converged : Bool

def FixState.start : FixState := ⟨∅, ∅, false⟩

/-- The worker's state.  `seen` is what the dataflow has been advanced to of
each session. -/
structure Worker where
  inputs : MeasureId → MeasureValues
  sessions : MeasureId → Coll
  seen : MeasureId → Coll
  board : Board
  time : ℕ
  states : List FixState
  first : MeasureId → Option MeasureValues

/-- The host's evaluation of a body's plan: the iterate's measure, the cells of
what the body reads, the iterate, the step's cells. -/
abbrev HostStep := PlanNode → MeasureId → (MeasureId → MeasureValues) → MeasureValues →
  MeasureValues

section Rounds

variable (R : Registry) (K : Kernels) (flow : Flow) (host : HostStep) (g : Graph)

/-- Whether a round advances a measure's component: it does those of the
measures fed, or all of them. -/
def advanced (fed : Option (List MeasureId)) (m : MeasureId) : Bool :=
  match fed with
  | none => true
  | some ms => ms.any fun f => g.comps.find f = g.comps.find m

/-- The components of the measures fed advanced to the next time, and their
differences settled. -/
def runTo (w : Worker) (fed : Option (List MeasureId)) : Worker :=
  let seen := fun m => if advanced g fed m then w.sessions m else w.seen m
  let ids := (g.built R K).filter (advanced g fed)
  { w with
    time := w.time + 1
    seen := seen
    board := settle w.board
      (flow.emit w.time ids (g.outputs R K w.seen) (g.outputs R K seen)) }

/-- A session's cells turned from `old` into `new`. -/
def replace (session : Coll) (old new : MeasureValues) : Coll :=
  let gone := (rows old).filter fun x => new.lookup x.1 ≠ some x.2
  let come := (rows new).filter fun x => old.lookup x.1 ≠ some x.2
  (session - gone) + come

/-- One change of a cell between two iterates: none where it is the same, their
difference where both are numbers. -/
def cellStep (x : CellValue) (y : Option CellValue) : F64 :=
  if y = some x then .zero
  else
    match x.asNum, y.bind CellValue.asNum with
    | some a, some b => (a.sub b).abs
    | _, _ => .inf false

/-- The change between two iterates, summed in key order; infinite where a
cell appears. -/
def distance (a b : MeasureValues) : F64 :=
  if b.keys ⊆ a.keys then
    (sortedCoords a.keys).foldl (fun sum k =>
      match a.lookup k with
      | some x => sum.add (cellStep x (b.lookup k))
      | none => sum) (F64.zero.neg)
  else .inf false

/-- The cells of what a body reads: an input's own, else the snapshot's. -/
def hostEnv (w : Worker) : MeasureId → MeasureValues := fun m =>
  if m ∈ g.inputs ∧ m ∉ g.internal then w.inputs m else w.board.snapshot m

/-- One step of a FIXPOINT: the body evaluated by the host at the iterate, or,
for one it does not evaluate, by the dataflow fed the iterate. -/
def fixStep (f : Fix) (env : MeasureId → MeasureValues) (w : Worker) (st : FixState)
    (x : MeasureValues) : MeasureValues × Worker × FixState :=
  match f.host with
  | some plan => (host plan f.r env x, w, st)
  | none =>
    let w := { w with
      sessions := Function.update w.sessions f.r (replace (w.sessions f.r) st.r x) }
    let w := runTo R K flow g w (some [f.r])
    (w.board.snapshot f.body, w, { st with r := x })

/-- The iteration from `x`, until a step moves at most the tolerance; whether
it did. -/
def solveFrom (f : Fix) (env : MeasureId → MeasureValues) :
    ℕ → MeasureValues → Worker → FixState → MeasureValues × Bool × Worker × FixState
  | 0, x, w, st => (x, false, w, st)
  | n + 1, x, w, st =>
    let (y, w, st) := fixStep R K flow host g f env w st x
    if (distance x y).le f.tolerance then (y, true, w, st)
    else solveFrom f env n y w st

/-- The cells a warm solve starts from: the previous result's, on those of the
first iterate. -/
def warmStart (init result : MeasureValues) : MeasureValues :=
  (sortedCoords init.keys).foldl (fun x k =>
    match (result.lookup k).or (init.lookup k) with
    | some v => x.insert k v
    | none => x) ∅

/-- Whether a FIXPOINT's result still stands: nothing its step reads has
changed, or the step's output is the result. -/
def stands (f : Fix) (w : Worker) (st : FixState) : Bool :=
  match f.host with
  | some _ => !f.reads.any w.board.dirty
  | none => decide (w.board.snapshot f.body = st.result)

/-- A FIXPOINT's result published on its measure's session. -/
def publish (f : Fix) (init : MeasureValues) (x : MeasureValues) (converged : Bool)
    (w : Worker) (st : FixState) : Worker × FixState :=
  let board :=
    if x = st.result then w.board
    else
      { w.board.markDirty f.id with
        log := w.board.log.map fun l => note l f.id st.result x }
  let w := { w with
    board := board
    sessions := Function.update w.sessions f.id (replace (w.sessions f.id) st.result x)
    first := Function.update w.first f.id (some init) }
  let w := runTo R K flow g w (some [f.id])
  ({ w with board := w.board.setValues f.id x },
    { st with result := x, converged := converged })

/-- One FIXPOINT solved: from the previous result if it converged, else, or if
that does not converge, from the first iterate.  An edit that leaves the first
iterate and what the step reads as they were leaves the result. -/
def solveFixpoint (warm : Bool) (f : Fix) (w : Worker) (st : FixState) : Worker × FixState :=
  let init := w.board.snapshot f.init
  if warm && decide (w.first f.id = some init) && stands f w st then (w, st)
  else
    let env := hostEnv g w
    let cold := fun (w : Worker) (st : FixState) =>
      let (x, ok, w, st) := solveFrom R K flow host g f env f.maxIter init w st
      publish R K flow g f init x ok w st
    if warm && st.converged then
      let (x, ok, w, st) :=
        solveFrom R K flow host g f env f.maxIter (warmStart init st.result) w st
      if ok then publish R K flow g f init x true w st else cold w st
    else cold w st

/-- Every FIXPOINT solved, in build order. -/
def solveFixpoints (warm : Bool) : List Fix → List FixState → Worker → Worker × List FixState
  | f :: fixes, st :: states, w =>
    let (w, st) := solveFixpoint R K flow host g warm f w st
    let (w, states) := solveFixpoints warm fixes states w
    (w, st :: states)
  | _, states, w => (w, states)

/-- Every FIXPOINT of the graph solved. -/
def Worker.solve (warm : Bool) (w : Worker) : Worker :=
  let (w, states) := solveFixpoints R K flow host g warm g.fixes w.states w
  { w with states := states }

/-- The cells a session is seeded with: those of measures with a session of
their own. -/
def Graph.seeded (cells : MeasureId → MeasureValues) : MeasureId → MeasureValues := fun m =>
  if m ∈ g.inputs ∧ m ∉ g.internal then cells m else ∅

/-- The worker seeded with the input cells, its FIXPOINTs solved. -/
def Worker.start (cells : MeasureId → MeasureValues) : Worker :=
  let inputs := g.seeded cells
  let sessions := fun m => rows (inputs m)
  let blank : Board := ⟨fun _ => ∅, fun _ => false, none⟩
  let w : Worker :=
    { inputs := inputs
      sessions := sessions
      seen := sessions
      board := (flow.emit 0 (g.built R K) (fun _ => 0) (g.outputs R K sessions)).foldl
        assertDelta blank
      time := 1
      states := g.fixes.map fun _ => .start
      first := fun _ => none }
  w.solve R K flow host g false

/-- A session with a cell's old value retracted, if it has one. -/
def retractOld (session : Coll) (cells : MeasureValues) (k : CoordKey) : Coll :=
  match cells.lookup k with
  | some old => session.erase (k, old)
  | none => session

/-- An edit applied to the input cells and their session, as a retraction of
the old value and an assertion of the new. -/
def Worker.edit (w : Worker) (e : Edit) : Worker :=
  let session := retractOld (w.sessions e.measure) (w.inputs e.measure) e.coord
  let cells := (w.inputs e.measure).erase e.coord
  { w with
    inputs := Function.update w.inputs e.measure
      (match e.value with
      | some v => cells.insert e.coord v
      | none => cells)
    sessions := Function.update w.sessions e.measure
      (match e.value with
      | some v => (e.coord, v) ::ₘ session
      | none => session)
    board := w.board.markDirty e.measure }

/-- An edit's coordinate in key form. -/
def Edit.sorted (e : Edit) : Edit := { e with coord := sortKey e.coord }

/-- The edits a round takes: those of measures with a session of their own. -/
def Graph.accepts (e : Edit) : Bool := decide (e.measure ∈ g.inputs ∧ e.measure ∉ g.internal)

/-- What a round replies with. -/
inductive Reply
  | snapshot
  | changes
deriving DecidableEq

/-- An edit round: the edits applied, their components advanced, the FIXPOINTs
solved. -/
def Worker.round (w : Worker) (edits : List Edit) (reply : Reply) : Worker :=
  let edits := (edits.map Edit.sorted).filter g.accepts
  let log := if reply = .changes then some ∅ else w.board.log
  let w := { w with board := { w.board with dirty := fun _ => false, log := log } }
  let w := edits.foldl Worker.edit w
  let w := runTo R K flow g w (some (edits.map (·.measure)))
  w.solve R K flow host g true

/-- The snapshot a reply shows. -/
def Worker.snapshot (w : Worker) : Snapshot := fun m =>
  if m ∈ g.hidden then ∅ else w.board.snapshot m

/-- A round that replies with its changes, which takes the log. -/
def Worker.applyDelta (w : Worker) (edits : List Edit) : Worker × Changes :=
  let w := w.round R K flow host g edits .changes
  ({ w with board := { w.board with log := none } },
    changes w.board.snapshot (w.board.log.getD ∅) g.hidden)

/-- A round that replies with the snapshot. -/
def Worker.apply (w : Worker) (edits : List Edit) : Worker × Snapshot :=
  let w := w.round R K flow host g edits .snapshot
  (w, w.snapshot g)

end Rounds

end Improv.Engine
