import Improv.Engine.Settle
/-!
# Edit rounds

A session without FIXPOINT measures keeps its snapshot equal to what its plans
give over the input cells: edits are fed as retractions and assertions, a round
advances the components that read them, and the others' measures have not
changed.  This holds in every run in which every measure's collection holds one
value per coordinate.
-/

namespace Improv.Engine

open Improv.Lib Improv.Lib.Bag Improv.CoreModel

variable {R : Registry} {K : Kernels} {flow : Flow} {host : HostStep} {g : Graph}

/-! ## Components -/

/-- A measure is in one component with each measure its plan reads. -/
theorem find_comps_of_reads {x : MeasureId × PlanNode} (hx : x ∈ g.plans) {m : MeasureId}
    (hm : m ∈ planReads x.2) : g.comps.find x.1 = g.comps.find m := by
  unfold Graph.comps
  refine Partition.finer_foldl (fun p f => p.finer_unionAll f.id _) g.fixes _ _ _ ?_
  exact Partition.find_foldl_of_mem (fun p x => p.finer_unionAll x.1 (planReads x.2))
    (fun p => p.find_unionAll hm) hx _

/-- A round advances a measure with each measure its plan reads. -/
theorem advanced_of_reads {fed : Option (List MeasureId)} {x : MeasureId × PlanNode}
    (hx : x ∈ g.plans) {m : MeasureId} (hm : m ∈ planReads x.2) :
    advanced g fed x.1 = advanced g fed m := by
  unfold advanced
  rw [find_comps_of_reads hx hm]

theorem advanced_of_mem {ms : List MeasureId} {m : MeasureId} (h : m ∈ ms) :
    advanced g (some ms) m = true :=
  List.any_eq_true.mpr ⟨m, h, by simp⟩

/-! ## The measures built -/

theorem isSome_buildNext {inputs : Sources} {b : Built}
    (h : ∀ m, (b.derived m).isSome ↔ m ∈ b.ids) (x : MeasureId × PlanNode) (m : MeasureId) :
    ((buildNext R K inputs b x).derived m).isSome ↔ m ∈ (buildNext R K inputs b x).ids := by
  unfold buildNext
  cases buildColl R K (b.sources inputs) x.2 with
  | error e => exact h m
  | ok c =>
      have hins : ∀ c flat, ((b.insert x.1 c flat).derived m).isSome ↔
          m ∈ (b.insert x.1 c flat).ids := by
        intro c flat
        by_cases hm : m = x.1
        · simp [Built.insert, hm]
        · simp [Built.insert, hm, h m]
      by_cases hf : functional b.flat x.2 = true
      · simpa only [if_pos hf] using hins c true
      · simpa only [if_neg hf] using hins c.dedup false

theorem isSome_buildDerived {inputs : Sources} {plans : Plans} (m : MeasureId) :
    ((buildDerived R K inputs plans).derived m).isSome ↔
      m ∈ (buildDerived R K inputs plans).ids := by
  have hstart : ∀ m, ((Built.start inputs).derived m).isSome ↔ m ∈ (Built.start inputs).ids := by
    simp [Built.start]
  unfold buildDerived
  generalize Built.start inputs = b at hstart
  induction plans generalizing b with
  | nil => exact hstart m
  | cons x plans ih => exact ih _ (isSome_buildNext hstart x)

theorem isSome_sources (colls colls' : MeasureId → Coll) (m : MeasureId) :
    (g.sources colls m).isSome = (g.sources colls' m).isSome := by
  unfold Graph.sources
  split <;> rfl

/-- The measures built do not depend on the cells. -/
theorem ids_buildDerived (colls : MeasureId → Coll) :
    (buildDerived R K (g.sources colls) g.plans).ids = g.built R K :=
  (@buildDerived_alike R K (fun _ => False) _ _ _ (isSome_sources colls _)
    (fun _ => False.elim) fun _ _ => False.elim).ids

theorem outputs_of_not_built {m : MeasureId} (hm : m ∉ g.built R K) (colls : MeasureId → Coll) :
    g.outputs R K colls m = 0 := by
  unfold Graph.outputs
  have hnone : ¬((buildDerived R K (g.sources colls) g.plans).derived m).isSome := by
    rw [isSome_buildDerived, ids_buildDerived]
    exact hm
  rw [Option.not_isSome_iff_eq_none.mp hnone]
  rfl

/-- A measure's collection depends only on the sessions of its component. -/
theorem outputs_congr {P : MeasureId → Prop} {colls colls' : MeasureId → Coll}
    (hP : ∀ m, P m → colls m = colls' m)
    (hclosed : ∀ x ∈ g.plans, P x.1 → ∀ m ∈ planReads x.2, P m) {m : MeasureId} (hm : P m) :
    g.outputs R K colls m = g.outputs R K colls' m := by
  have hsrc : ∀ m, P m → g.sources colls m = g.sources colls' m := fun m hm => by
    simp only [Graph.sources, hP m hm]
  have halike : (buildDerived R K (g.sources colls) g.plans).Alike P
      (buildDerived R K (g.sources colls') g.plans) :=
    buildDerived_alike (isSome_sources colls colls') hsrc hclosed
  unfold Graph.outputs
  rw [halike.derived m hm]

/-! ## One round -/

/-- A measure no round advances keeps its collection. -/
theorem outputs_runTo_of_not_advanced {w : Worker} {fed : Option (List MeasureId)}
    {m : MeasureId} (hm : advanced g fed m = false) :
    g.outputs R K (runTo R K flow g w fed).seen m = g.outputs R K w.seen m := by
  refine outputs_congr (P := fun n => advanced g fed n = false) (fun n hn => ?_) ?_ hm
  · simp only [runTo, hn, Bool.false_eq_true, if_false]
  · exact fun x hx hx' n hn => (advanced_of_reads hx hn).symm.trans hx'

/-- Advancing the components of the measures fed keeps what the snapshot shows of
a measure true. -/
theorem rows_runTo {w : Worker} {m : MeasureId}
    (h : rows (w.board.snapshot m) = g.outputs R K w.seen m) {fed : Option (List MeasureId)}
    (hone : OneValued (g.outputs R K (runTo R K flow g w fed).seen m)) :
    rows ((runTo R K flow g w fed).board.snapshot m) =
      g.outputs R K (runTo R K flow g w fed).seen m := by
  refine rows_settle h (fun k v => ?_) hone
  rw [flow.accumulates]
  by_cases hids : m ∈ (g.built R K).filter (advanced g fed)
  · rw [if_pos hids]
    rfl
  · rw [if_neg hids]
    rw [List.mem_filter, not_and] at hids
    have heq : g.outputs R K (runTo R K flow g w fed).seen m = g.outputs R K w.seen m := by
      by_cases hbuilt : m ∈ g.built R K
      · exact outputs_runTo_of_not_advanced (by simpa using hids hbuilt)
      · rw [outputs_of_not_built hbuilt, outputs_of_not_built hbuilt]
    rw [heq, sub_self]

/-- The snapshot shows what the plans give over what the dataflow has seen. -/
def Shows (R : Registry) (K : Kernels) (g : Graph) (w : Worker) : Prop :=
  ∀ m, rows (w.board.snapshot m) = g.outputs R K w.seen m

theorem Shows.runTo {w : Worker} (h : Shows R K g w) {fed : Option (List MeasureId)}
    (hone : ∀ m, OneValued (g.outputs R K (runTo R K flow g w fed).seen m)) :
    Shows R K g (runTo R K flow g w fed) :=
  fun m => rows_runTo (h m) (hone m)

/-! ## Edits -/

/-- A base cell set or cleared. -/
def setCell (cells : MeasureId → MeasureValues) (e : Edit) : MeasureId → MeasureValues :=
  Function.update cells e.measure
    (match e.value with
    | some v => (cells e.measure).insert e.coord v
    | none => (cells e.measure).erase e.coord)

/-- The edits of a batch that a round takes, in key form. -/
def Graph.taken (g : Graph) (edits : List Edit) : List Edit :=
  (edits.map Edit.sorted).filter g.accepts

/-- The base cells after a batch of edits. -/
def Graph.batch (g : Graph) (cells : MeasureId → MeasureValues) (edits : List Edit) :
    MeasureId → MeasureValues :=
  (g.taken edits).foldl setCell cells

/-- The sessions hold the rows of the input cells. -/
def Feeds (w : Worker) (cells : MeasureId → MeasureValues) : Prop :=
  w.inputs = cells ∧ ∀ m, w.sessions m = rows (cells m)

theorem insert_erase (vals : MeasureValues) (k : CoordKey) (v : CellValue) :
    (vals.erase k).insert k v = vals.insert k v := by
  refine Finmap.ext_lookup fun k' => ?_
  by_cases hk : k' = k
  · subst hk
    rw [Finmap.lookup_insert, Finmap.lookup_insert]
  · rw [Finmap.lookup_insert_of_ne _ hk, Finmap.lookup_insert_of_ne _ hk,
      Finmap.lookup_erase_ne hk]

theorem erase_of_lookup_none {vals : MeasureValues} {k : CoordKey}
    (h : vals.lookup k = none) : vals.erase k = vals := by
  refine Finmap.ext_lookup fun k' => ?_
  by_cases hk : k' = k
  · subst hk
    rw [Finmap.lookup_erase, h]
  · rw [Finmap.lookup_erase_ne hk]

theorem retractOld_rows (vals : MeasureValues) (k : CoordKey) :
    retractOld (rows vals) vals k = rows (vals.erase k) := by
  unfold retractOld
  cases hold : vals.lookup k with
  | none => rw [erase_of_lookup_none hold]
  | some old => exact (rows_erase hold).symm

/-- An edit keeps a session the rows of its measure's cells. -/
theorem Feeds.edit {w : Worker} {cells : MeasureId → MeasureValues} (h : Feeds w cells)
    (e : Edit) : Feeds (w.edit e) (setCell cells e) := by
  obtain ⟨rfl, hrows⟩ := h
  unfold Worker.edit setCell Feeds
  simp only [hrows, retractOld_rows]
  cases e.value with
  | none =>
      refine ⟨rfl, fun m => ?_⟩
      by_cases hm : m = e.measure
      · subst hm
        simp only [Function.update_self]
      · simp only [Function.update_of_ne hm, hrows]
  | some v =>
      refine ⟨by simp only [insert_erase], fun m => ?_⟩
      by_cases hm : m = e.measure
      · subst hm
        simp only [Function.update_self]
        rw [← insert_erase, rows_insert v (Finmap.lookup_erase _ _)]
      · simp only [Function.update_of_ne hm, hrows]

theorem Feeds.edits {w : Worker} {cells : MeasureId → MeasureValues} (h : Feeds w cells)
    (edits : List Edit) : Feeds (edits.foldl Worker.edit w) (edits.foldl setCell cells) := by
  induction edits generalizing w cells with
  | nil => exact h
  | cons e edits ih => exact ih (h.edit e)

/-- Edits leave the dataflow, the snapshot and the record as they were. -/
theorem edits_frame (edits : List Edit) (w : Worker) :
    (edits.foldl Worker.edit w).seen = w.seen ∧
      (edits.foldl Worker.edit w).board.snapshot = w.board.snapshot ∧
      (edits.foldl Worker.edit w).board.log = w.board.log ∧
      (edits.foldl Worker.edit w).states = w.states := by
  induction edits generalizing w with
  | nil => exact ⟨rfl, rfl, rfl, rfl⟩
  | cons e edits ih => exact ih (w.edit e)

theorem sessions_edit_of_ne {w : Worker} {e : Edit} {m : MeasureId} (hm : m ≠ e.measure) :
    (w.edit e).sessions m = w.sessions m := by
  unfold Worker.edit
  cases e.value <;> exact Function.update_of_ne hm _ _

/-- A session no edit names keeps its rows. -/
theorem sessions_edits_of_notMem {edits : List Edit} {m : MeasureId}
    (hm : m ∉ edits.map (·.measure)) (w : Worker) :
    (edits.foldl Worker.edit w).sessions m = w.sessions m := by
  induction edits generalizing w with
  | nil => rfl
  | cons e edits ih =>
      simp only [List.map_cons, List.mem_cons, not_or] at hm
      exact (ih hm.2 (w.edit e)).trans (sessions_edit_of_ne hm.1)

/-! ## Runs -/

/-- Every measure's collection over the base cells has one value per
coordinate. -/
def Graph.OneValuedAt (R : Registry) (K : Kernels) (g : Graph)
    (cells : MeasureId → MeasureValues) : Prop :=
  ∀ m, OneValued (g.outputs R K (fun m => rows (cells m)) m)

/-- The worker between rounds: its sessions hold the base cells, the dataflow
has seen them, and the snapshot shows what the plans give. -/
structure Settled (R : Registry) (K : Kernels) (g : Graph) (w : Worker)
    (cells : MeasureId → MeasureValues) : Prop where
  feeds : Feeds w cells
  seen : w.seen = w.sessions
  shows : Shows R K g w
  states : w.states = []

theorem solve_of_no_fixes (hfixes : g.fixes = []) (warm : Bool) {w : Worker}
    (h : w.states = []) : w.solve R K flow host g warm = w := by
  unfold Worker.solve
  rw [hfixes, h]
  unfold solveFixpoints
  rw [← h]

/-- The worker as a round's differences find it: the batch applied, its
components advanced. -/
theorem round_of_no_fixes (hfixes : g.fixes = []) {w : Worker} (h : w.states = [])
    (edits : List Edit) (reply : Reply) :
    w.round R K flow host g edits reply =
      runTo R K flow g ((g.taken edits).foldl Worker.edit
        { w with board :=
          { w.board with
            dirty := fun _ => false
            log := if reply = .changes then some ∅ else w.board.log } })
        (some ((g.taken edits).map (·.measure))) := by
  unfold Worker.round
  exact solve_of_no_fixes hfixes true ((edits_frame _ _).2.2.2.trans h)

/-- A round leads from settled to settled, over the base cells after its
batch. -/
theorem Settled.round (hfixes : g.fixes = []) {w : Worker}
    {cells : MeasureId → MeasureValues} (h : Settled R K g w cells) (edits : List Edit)
    (reply : Reply) (hone : g.OneValuedAt R K (g.batch cells edits)) :
    Settled R K g (w.round R K flow host g edits reply) (g.batch cells edits) := by
  rw [round_of_no_fixes hfixes h.states]
  generalize hw : ({ w with board := { w.board with
    dirty := fun _ => false
    log := if reply = .changes then some ∅ else w.board.log } } : Worker) = w₀
  have hfeeds₀ : Feeds w₀ cells := hw ▸ h.feeds
  have hseen₀ : w₀.seen = w₀.sessions := by
    rw [← hw]
    exact h.seen
  have hshows₀ : Shows R K g w₀ := by
    rw [← hw]
    exact h.shows
  have hstates₀ : w₀.states = [] := by
    rw [← hw]
    exact h.states
  obtain ⟨hseen, hsnapshot, -, hstates⟩ := edits_frame (g.taken edits) w₀
  have hfeeds := hfeeds₀.edits (g.taken edits)
  have hadvanced : (runTo R K flow g ((g.taken edits).foldl Worker.edit w₀)
      (some ((g.taken edits).map (·.measure)))).seen =
      ((g.taken edits).foldl Worker.edit w₀).sessions := by
    funext m
    by_cases hm : m ∈ (g.taken edits).map (·.measure)
    · simp only [runTo, advanced_of_mem hm, if_true]
    · unfold runTo
      simp only [hseen, hseen₀, sessions_edits_of_notMem hm, ite_self]
  have hshows : Shows R K g ((g.taken edits).foldl Worker.edit w₀) := by
    intro m
    rw [hsnapshot, hseen]
    exact hshows₀ m
  refine ⟨hfeeds, hadvanced, hshows.runTo fun m => ?_, hstates.trans hstates₀⟩
  rw [hadvanced, funext hfeeds.2]
  exact hone m

/-- Taking the record away leaves a settled worker settled. -/
theorem Settled.dropLog {w : Worker} {cells : MeasureId → MeasureValues}
    (h : Settled R K g w cells) :
    Settled R K g { w with board := { w.board with log := none } } cells :=
  ⟨h.feeds, h.seen, h.shows, h.states⟩

/-! ## The seed -/

theorem snapshot_assertDelta {b : Board} {x : Delta} (hx : 0 < x.2) :
    (assertDelta b x).snapshot =
      Function.update b.snapshot x.1.measure (applyDelta (b.snapshot x.1.measure) x) := by
  unfold assertDelta
  simp only [if_neg hx.ne']
  rfl

theorem snapshot_settleDelta {b : Board} {x : Delta} (hx : 0 < x.2) :
    (settleDelta true b x).snapshot =
      Function.update b.snapshot x.1.measure (applyDelta (b.snapshot x.1.measure) x) := by
  have hpass : ¬(x.2 = 0 ∨ decide (0 < x.2) ≠ true) := by
    simp [hx, hx.ne']
  unfold settleDelta
  rw [if_neg hpass]

/-- The seed's assertions set the cells a round's would. -/
theorem snapshot_asserts {d : List Delta} (hpos : ∀ x ∈ d, 0 < x.2) {b b' : Board}
    (h : b.snapshot = b'.snapshot) :
    (d.foldl assertDelta b).snapshot = (d.foldl (settleDelta true) b').snapshot := by
  induction d generalizing b b' with
  | nil => exact h
  | cons x d ih =>
      have hx := hpos x List.mem_cons_self
      refine ih (fun y hy => hpos y (List.mem_cons_of_mem _ hy)) ?_
      rw [snapshot_assertDelta hx, snapshot_settleDelta hx, h]

/-- A seed's assertions leave a measure the rows of its collection. -/
theorem rows_asserts {d : List Delta} (hpos : ∀ x ∈ d, 0 < x.2) {m : MeasureId} {new : Coll}
    (hnew : OneValued new) (hd : ∀ k v, weight d ⟨m, k, v⟩ = (new.count (k, v) : ℤ)) {b : Board}
    (hb : b.snapshot m = ∅) : rows ((d.foldl assertDelta b).snapshot m) = new := by
  have hassert : ∀ k v, Asserts d m k v ↔ (k, v) ∈ new := by
    intro k v
    rw [← Multiset.count_pos]
    constructor
    · intro h
      obtain ⟨n, -, hmem⟩ := h
      have hw := weight_pos_of_mem hpos hmem
      rw [hd] at hw
      exact_mod_cast hw
    · intro h
      have hw : weight d ⟨m, k, v⟩ ≠ 0 := by
        rw [hd]
        exact_mod_cast h.ne'
      have hmem : (⟨m, k, v⟩ : DeltaKey) ∈ d.map Prod.fst := by
        by_contra hnone
        exact hw (weight_eq_zero hnone)
      obtain ⟨x, hx, hkey⟩ := List.mem_map.mp hmem
      exact ⟨x.2, hpos x hx, hkey ▸ hx⟩
  refine eq_of_mem_iff (oneValued_rows _) hnew fun k v => ?_
  have hagree : ∀ v v', Asserts d m k v → Asserts d m k v' → v = v' := by
    intro v v' h h'
    exact congrArg Prod.snd
      (hnew.eq_of_key_eq ((hassert k v).mp h) ((hassert k v').mp h') rfl)
  rw [mem_rows, snapshot_asserts hpos rfl, lookup_asserts hagree, hassert, hb,
    Finmap.lookup_empty]
  simp

/-- A new session is settled over the cells it is seeded with. -/
theorem settled_start (hfixes : g.fixes = []) {cells : MeasureId → MeasureValues}
    (hone : g.OneValuedAt R K (g.seeded cells)) :
    Settled R K g (Worker.start R K flow host g cells) (g.seeded cells) := by
  have hstates : (g.fixes.map fun _ => FixState.start) = [] := by
    rw [hfixes]
    rfl
  unfold Worker.start
  rw [solve_of_no_fixes hfixes false hstates]
  refine ⟨⟨rfl, fun _ => rfl⟩, rfl, fun m => ?_, hstates⟩
  refine rows_asserts (flow.seed_asserts _ _) (hone m) (fun k v => ?_) rfl
  rw [flow.accumulates]
  by_cases hm : m ∈ g.built R K
  · simp [hm]
  · simp [hm, outputs_of_not_built hm]

/-! ## Whole runs -/

/-- A round served with either reply. -/
def Worker.serve (R : Registry) (K : Kernels) (flow : Flow) (host : HostStep) (g : Graph)
    (w : Worker) (round : List Edit × Reply) : Worker :=
  match round.2 with
  | .snapshot => (w.apply R K flow host g round.1).1
  | .changes => (w.applyDelta R K flow host g round.1).1

/-- A session after some rounds. -/
def Worker.run (R : Registry) (K : Kernels) (flow : Flow) (host : HostStep) (g : Graph)
    (cells : MeasureId → MeasureValues) (rounds : List (List Edit × Reply)) : Worker :=
  rounds.foldl (Worker.serve R K flow host g) (Worker.start R K flow host g cells)

/-- The base cells after some rounds. -/
def Graph.cellsAfter (g : Graph) (cells : MeasureId → MeasureValues)
    (rounds : List (List Edit × Reply)) : MeasureId → MeasureValues :=
  rounds.foldl (fun cells r => g.batch cells r.1) (g.seeded cells)

theorem Settled.serve (hfixes : g.fixes = []) {w : Worker} {cells : MeasureId → MeasureValues}
    (h : Settled R K g w cells) (round : List Edit × Reply)
    (hone : g.OneValuedAt R K (g.batch cells round.1)) :
    Settled R K g (w.serve R K flow host g round) (g.batch cells round.1) := by
  obtain ⟨edits, reply⟩ := round
  cases reply with
  | snapshot => exact h.round hfixes edits .snapshot hone
  | changes => exact (h.round hfixes edits .changes hone).dropLog

theorem seeded_batch {cells : MeasureId → MeasureValues} (h : g.seeded cells = cells)
    (edits : List Edit) : g.seeded (g.batch cells edits) = g.batch cells edits := by
  have hstep : ∀ (es : List Edit), (∀ e ∈ es, g.accepts e = true) → ∀ cells,
      g.seeded cells = cells → g.seeded (es.foldl setCell cells) = es.foldl setCell cells := by
    intro es
    induction es with
    | nil => exact fun _ _ h => h
    | cons e es ih =>
        intro hes cells hcells
        refine ih (fun e' he' => hes e' (List.mem_cons_of_mem _ he')) _ ?_
        have he := of_decide_eq_true (hes e List.mem_cons_self)
        funext m
        unfold setCell
        by_cases hm : m = e.measure
        · subst hm
          simp only [Graph.seeded, he, not_false_eq_true, and_self, if_true]
        · have hcell := congrFun hcells m
          simp only [Graph.seeded, Function.update_of_ne hm] at hcell ⊢
          exact hcell
  exact hstep _ (fun e he => (List.mem_filter.mp he).2) cells h

theorem seeded_seeded (cells : MeasureId → MeasureValues) :
    g.seeded (g.seeded cells) = g.seeded cells := by
  funext m
  unfold Graph.seeded
  by_cases hm : m ∈ g.inputs ∧ m ∉ g.internal
  · rw [if_pos hm, if_pos hm]
  · rw [if_neg hm, if_neg hm]

theorem seeded_cellsAfter (cells : MeasureId → MeasureValues)
    (rounds : List (List Edit × Reply)) :
    g.seeded (g.cellsAfter cells rounds) = g.cellsAfter cells rounds := by
  unfold Graph.cellsAfter
  have hstart := seeded_seeded (g := g) cells
  generalize g.seeded cells = cells at hstart
  induction rounds generalizing cells with
  | nil => exact hstart
  | cons r rounds ih => exact ih _ (seeded_batch hstart r.1)

/-- In every state a run reaches, every measure's collection over the base
cells has one value per coordinate. -/
def Graph.OneValuedThrough (R : Registry) (K : Kernels) (g : Graph)
    (cells : MeasureId → MeasureValues) (rounds : List (List Edit × Reply)) : Prop :=
  ∀ done, done <+: rounds → g.OneValuedAt R K (g.cellsAfter cells done)

/-- A session without FIXPOINT measures is settled after every round. -/
theorem settled_run (hfixes : g.fixes = []) {cells : MeasureId → MeasureValues}
    {rounds : List (List Edit × Reply)} (hone : g.OneValuedThrough R K cells rounds) :
    Settled R K g (Worker.run R K flow host g cells rounds) (g.cellsAfter cells rounds) := by
  induction rounds using List.reverseRecOn with
  | nil => exact settled_start hfixes (hone [] List.prefix_rfl)
  | append_singleton rounds r ih =>
      have hbefore := ih fun done hdone => hone done (hdone.trans (List.prefix_append _ _))
      have hafter := hone _ List.prefix_rfl
      unfold Worker.run Graph.cellsAfter at hbefore hafter ⊢
      rw [List.foldl_append, List.foldl_append]
      rw [List.foldl_append] at hafter
      exact hbefore.serve hfixes r hafter

/-- Two settled workers over the same cells show the same snapshot. -/
theorem Settled.snapshot_eq {w w' : Worker} {cells : MeasureId → MeasureValues}
    (h : Settled R K g w cells) (h' : Settled R K g w' cells) :
    w.board.snapshot = w'.board.snapshot := by
  have hseen : w.seen = w'.seen := by
    rw [h.seen, h'.seen]
    funext m
    rw [h.feeds.2, h'.feeds.2]
  funext m
  apply rows_injective
  rw [h.shows m, h'.shows m, hseen]

/-- A round that replies with its changes records them from the snapshot before
it. -/
theorem recorded_round (hfixes : g.fixes = []) {w : Worker} (hstates : w.states = [])
    (edits : List Edit) :
    Recorded w.board.snapshot (w.round R K flow host g edits .changes).board ∧
      ∃ l, (w.round R K flow host g edits .changes).board.log = some l := by
  rw [round_of_no_fixes hfixes hstates]
  generalize hw : ({ w with board := { w.board with
    dirty := fun _ => false
    log := if Reply.changes = .changes then some ∅ else w.board.log } } : Worker) = w₀
  obtain ⟨-, hsnapshot, hlog, -⟩ := edits_frame (g.taken edits) w₀
  have hsnapshot₀ : w₀.board.snapshot = w.board.snapshot := by
    rw [← hw]
  have hlog₀ : w₀.board.log = some ∅ := by
    rw [← hw]
    rfl
  have hrecorded : Recorded w.board.snapshot ((g.taken edits).foldl Worker.edit w₀).board := by
    intro l hl m k
    rw [hlog, hlog₀] at hl
    cases hl
    refine ⟨fun o ho => ?_, fun _ => ?_⟩
    · rw [Finmap.lookup_empty] at ho
      cases ho
    · rw [hsnapshot, hsnapshot₀]
  refine ⟨hrecorded.settle _, ?_⟩
  apply Option.isSome_iff_exists.mp
  unfold runTo
  rw [isSome_log_settle, hlog, hlog₀]
  rfl

theorem snapshot_of_no_fixes (hfixes : g.fixes = []) (w : Worker) :
    w.snapshot g = w.board.snapshot := by
  funext m
  unfold Worker.snapshot Graph.hidden
  rw [hfixes]
  rfl

/-- The changes a round replies with lead from the snapshot before it to the
one after it. -/
theorem Settled.changes_applyDelta (hfixes : g.fixes = []) {w : Worker}
    {cells : MeasureId → MeasureValues} (h : Settled R K g w cells) (edits : List Edit) :
    ChangesBetween (w.snapshot g) ((w.applyDelta R K flow host g edits).1.snapshot g)
      (w.applyDelta R K flow host g edits).2 := by
  obtain ⟨hrecorded, l, hl⟩ := @recorded_round R K flow host g hfixes w h.states edits
  have hhidden : g.hidden = [] := by
    unfold Graph.hidden
    rw [hfixes]
    rfl
  rw [snapshot_of_no_fixes hfixes, snapshot_of_no_fixes hfixes]
  unfold Worker.applyDelta
  simp only [hhidden, hl, Option.getD_some]
  exact changesBetween_changes hrecorded hl

end Improv.Engine
