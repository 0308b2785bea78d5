import Improv.Service.Keyed
/-!
# What a client of the change feed sees

A client's cells are those its principal may see: an input's own, a derived
one's from the engine's snapshot.  A log entry is a batch of writes to them, and
an event is the last value some entries give each cell.
-/

namespace Improv.Service

open Improv.Lib Improv.CoreModel Improv.Engine WriteBatch

/-! ## Coordinates and keys -/

/-- The key of a cell in the feed. -/
def feedCell (c : Cell) : FeedCell := ⟨c.measure.id, encodeCoord c.coord⟩

@[simp] theorem decodeCoord_encodeCoord (c : Coordinate) : decodeCoord (encodeCoord c) = c := by
  unfold decodeCoord encodeCoord Coordinate.fromPairs
  rw [List.map_map]
  have hid : ((fun p : Nat × Nat => ((⟨p.1⟩ : CategoryId), (⟨p.2⟩ : ItemId))) ∘
      fun p : CategoryId × ItemId => (p.1.id, p.2.id)) = id := rfl
  rw [hid, List.map_id]
  exact SortedMap.ofList_entries c

theorem feedCell_injective : Function.Injective feedCell := by
  intro c d h
  obtain ⟨m, k⟩ := c
  obtain ⟨m', k'⟩ := d
  simp only [feedCell, FeedCell.mk.injEq] at h
  have hk := congrArg decodeCoord h.2
  rw [decodeCoord_encodeCoord, decodeCoord_encodeCoord] at hk
  have hm : m = m' := congrArg MeasureId.mk h.1
  rw [hm, hk]

/-- A cell of the feed whose key is a coordinate's. -/
def FeedCell.Canonical (c : FeedCell) : Prop := encodeCoord (decodeCoord c.coord) = c.coord

instance (c : FeedCell) : Decidable c.Canonical :=
  inferInstanceAs (Decidable (encodeCoord (decodeCoord c.coord) = c.coord))

theorem FeedCell.canonical_feedCell (c : Cell) : (feedCell c).Canonical := by
  unfold Canonical feedCell
  rw [decodeCoord_encodeCoord]

theorem FeedCell.Canonical.feedCell_eq {c : FeedCell} (h : c.Canonical) :
    feedCell ⟨⟨c.measure⟩, decodeCoord c.coord⟩ = c := by
  obtain ⟨m, k⟩ := c
  unfold feedCell
  rw [show encodeCoord (decodeCoord k) = k from h]

/-! ## Cells as they are shown -/

namespace Authority

variable {S E : Type} (env : Env S E)

/-- A cell's value as it is shown, whoever asks. -/
def cellValue (a : Authority S E) (c : FeedCell) : Option WireValue :=
  (a.model.measures.get? ⟨c.measure⟩).bind fun x =>
    if x.isDerived || c.Canonical then shownValue env a ⟨c.measure⟩ x c.coord else none

/-- Whether a principal may see a cell. -/
def seesFeedCell (g : Gate) (c : FeedCell) : Bool := g.seesCell ⟨c.measure⟩ (decodeCoord c.coord)

/-- The cells a principal sees. -/
def visibleCells (who : Principal) (a : Authority S E) (c : FeedCell) : Option WireValue :=
  if seesFeedCell (gate env who a) c then cellValue env a c else none

end Authority

/-- A client's cells once it takes an event in. -/
def ChangeEvent.applied (ev : ChangeEvent) (cells : FeedCell → Option WireValue) :
    FeedCell → Option WireValue :=
  ev.cells.foldl (fun cells c => Function.update cells ⟨c.measure, c.coord⟩ c.value) cells

/-! ## Log entries as writes -/

/-- The cells an entry names, as writes. -/
def feedWrites (cells : List (MeasureId × CoordKey × Option WireValue)) :
    List (FeedCell × Option WireValue) :=
  cells.map fun c => (⟨c.1.id, c.2.1⟩, c.2.2)

/-- The writes of some entries; none where one of them is a reload. -/
def logWrites : List Logged → Option (List (FeedCell × Option WireValue))
  | [] => some []
  | l :: ls =>
    match l.cells with
    | none => none
    | some cs => (logWrites ls).map fun ws => feedWrites cs ++ ws

theorem logWrites_append_reload {ls : List Logged} {l : Logged} (hl : l.cells = none) :
    logWrites (ls ++ [l]) = none := by
  induction ls with
  | nil => simp [logWrites, hl]
  | cons k ls ih =>
      rw [List.cons_append, logWrites, ih]
      split <;> rfl

theorem logWrites_append_cells {ls : List Logged} {l : Logged}
    {cs : List (MeasureId × CoordKey × Option WireValue)} (hl : l.cells = some cs) :
    logWrites (ls ++ [l]) = (logWrites ls).map fun ws => ws ++ feedWrites cs := by
  induction ls with
  | nil => simp [logWrites, hl]
  | cons k ls ih =>
      rw [List.cons_append, logWrites, logWrites, ih]
      split
      · rfl
      · cases logWrites ls <;> simp

namespace Authority

/-- The visible cells of some entries are the last values they give them. -/
theorem changedCells_eq (g : Gate) (changed : SortedMap FeedCell (Option WireValue))
    (ls : List Logged) :
    changedCells g changed ls = (logWrites ls).map fun ws =>
      (ws.filter fun w => seesFeedCell g w.1).foldl (fun m w => m.insert w.1 w.2) changed := by
  induction ls generalizing changed with
  | nil => rfl
  | cons l ls ih =>
      unfold changedCells logWrites
      cases hl : l.cells with
      | none => rfl
      | some cs =>
          have hcs : cs.foldl (fun changed c =>
              if g.seesCell c.1 (decodeCoord c.2.1) then changed.insert ⟨c.1.id, c.2.1⟩ c.2.2
              else changed) changed =
              ((feedWrites cs).filter fun w => seesFeedCell g w.1).foldl
                (fun m w => m.insert w.1 w.2) changed := by
            clear hl ih
            induction cs generalizing changed with
            | nil => rfl
            | cons c cs ih =>
                rw [feedWrites, List.map_cons, List.filter_cons, List.foldl_cons, ih]
                unfold feedWrites
                by_cases hsees : g.seesCell c.1 (decodeCoord c.2.1) = true
                · rw [if_pos hsees, if_pos (show seesFeedCell g ⟨c.1.id, c.2.1⟩ = true from hsees)]
                  rfl
                · rw [if_neg hsees, if_neg (show ¬seesFeedCell g ⟨c.1.id, c.2.1⟩ = true from hsees)]
          simp only [ih, hcs, Option.map_map]
          congr 1
          funext ws
          simp [List.filter_append, List.foldl_append]

/-- The cells a gate shows of those some writes change, the last value of
each. -/
def visibleWrites (g : Gate) (ws : List (FeedCell × Option WireValue)) :
    SortedMap FeedCell (Option WireValue) :=
  (ws.filter fun w => seesFeedCell g w.1).foldl (fun m w => m.insert w.1 w.2) .empty

theorem changedCells_empty (g : Gate) (ls : List Logged) :
    changedCells g .empty ls = (logWrites ls).map (visibleWrites g) :=
  changedCells_eq g .empty ls

theorem get?_visibleWrites (g : Gate) (ws : List (FeedCell × Option WireValue)) (c : FeedCell) :
    (visibleWrites g ws).get? c = if seesFeedCell g c then lastValue ws c else none := by
  unfold visibleWrites
  rw [get?_foldl_lastValue, lastValue_filter (fun c => seesFeedCell g c), SortedMap.get?_empty,
    Option.or_none]

theorem sees_of_mem_visibleWrites {g : Gate} {ws : List (FeedCell × Option WireValue)}
    {p : FeedCell × Option WireValue} (h : p ∈ (visibleWrites g ws).entries) :
    seesFeedCell g p.1 = true := by
  have hget : (visibleWrites g ws).get? p.1 = some p.2 := SortedMap.get?_eq_some_iff.mpr h
  rw [get?_visibleWrites] at hget
  by_contra hnot
  rw [if_neg hnot] at hget
  cases hget

end Authority

/-- Changed cells taken in, in key order. -/
def applyEntries (entries : List (FeedCell × Option WireValue))
    (cells : FeedCell → Option WireValue) : FeedCell → Option WireValue :=
  (entries.map fun p => ChangedCell.mk p.1.measure p.1.coord p.2).foldl
    (fun cells c => Function.update cells ⟨c.measure, c.coord⟩ c.value) cells

theorem applyEntries_of_not_mem {entries : List (FeedCell × Option WireValue)} {c : FeedCell}
    (h : c ∉ entries.map (·.1)) (cells : FeedCell → Option WireValue) :
    applyEntries entries cells c = cells c := by
  induction entries generalizing cells with
  | nil => rfl
  | cons p ps ih =>
      simp only [List.map_cons, List.mem_cons, not_or] at h
      calc applyEntries (p :: ps) cells c
          = applyEntries ps (Function.update cells p.1 p.2) c := rfl
        _ = Function.update cells p.1 p.2 c := ih h.2 _
        _ = cells c := Function.update_of_ne h.1 _ _

theorem applyEntries_of_mem {entries : List (FeedCell × Option WireValue)}
    (hsorted : entries.Pairwise fun a b => a.1 < b.1) {c : FeedCell} {v : Option WireValue}
    (h : (c, v) ∈ entries) (cells : FeedCell → Option WireValue) :
    applyEntries entries cells c = v := by
  induction entries generalizing cells with
  | nil => simp at h
  | cons p ps ih =>
      obtain ⟨hp, hps⟩ := List.pairwise_cons.mp hsorted
      rcases List.mem_cons.mp h with heq | hmem
      · subst heq
        have hlater : c ∉ ps.map (·.1) := by
          intro hc
          obtain ⟨q, hq, hqc⟩ := List.mem_map.mp hc
          exact absurd (hp q hq) (by rw [hqc]; exact lt_irrefl _)
        calc applyEntries ((c, v) :: ps) cells c
            = applyEntries ps (Function.update cells c v) c := rfl
          _ = Function.update cells c v c := applyEntries_of_not_mem hlater _
          _ = v := Function.update_self _ _ _
      · exact ih hps hmem _

/-- An event of a map of changed cells gives each the value it has there. -/
theorem applied_entries (version : String) (changed : SortedMap FeedCell (Option WireValue))
    (cells : FeedCell → Option WireValue) (c : FeedCell) :
    (ChangeEvent.mk version (changed.entries.map fun p =>
      ⟨p.1.measure, p.1.coord, p.2⟩) false).applied cells c =
      (changed.get? c).getD (cells c) := by
  change applyEntries changed.entries cells c = _
  cases hget : changed.get? c with
  | none => exact applyEntries_of_not_mem (SortedMap.get?_eq_none_iff.mp hget) cells
  | some v =>
      exact applyEntries_of_mem changed.sorted (SortedMap.mem_entries_of_get? hget) cells

end Improv.Service

/-!
## What one step does to the feed

A step leaves the cells and the log, or logs the cells it changed, or logs a
reload; the transaction it stands at never falls, and where it stays the cells
do.  Each operation that reaches the store or the engine is shown to proceed so,
under what the two promise.
-/

namespace Improv.Service

open Improv.Lib Improv.CoreModel Improv.Engine WriteBatch

namespace Authority

variable {S E : Type} {env : Env S E}

/-! ## Standing at the store -/

/-- The model is the one the store held at the authority's transaction. -/
def AtStore (hs : LawfulStore env.store) (a : Authority S E) : Prop :=
  ∃ t, a.tx = some t ∧ t ≤ hs.clock a.world ∧
    (t = hs.clock a.world → hs.content a.world = a.model)

/-- The snapshot is the engine's, which tracks derived measures alone. -/
def Live (he : LawfulEngine env.engine) (a : Authority S E) : Prop :=
  ∀ e, a.engine = some e → env.engine.snapshot e = .ok a.snapshot ∧
    ∀ id ∈ he.tracked e, (a.model.measures.get? id).any Measure.isDerived = true

theorem openStore_later (hs : LawfulStore env.store) (a : Authority S E) :
    hs.Later a.world (openStore env a).state.world := by
  have h := hs.openStore a.world
  unfold openStore
  split
  · exact .refl _
  · split <;> (rename_i heq; rw [heq] at h; exact h)

theorem save_later (hs : LawfulStore env.store) (m : Model) (changes : ChangeSet)
    (a : Authority S E) : hs.Later a.world (save env m changes a).state.world := by
  have hopen := openStore_later hs a
  unfold save
  cases ho : openStore env a with
  | error r b =>
      rw [ho] at hopen
      exact hopen
  | ok _ b =>
      rw [ho] at hopen
      have h := hs.saveChanges b.tx m changes b.world
      simp only
      split <;> (rename_i heq; rw [heq] at h; exact hopen.trans h)

theorem reload_later (hs : LawfulStore env.store) (a : Authority S E) :
    hs.Later a.world (reload env a).state.world := by
  have hopen := openStore_later hs a
  unfold reload
  cases ho : openStore env a with
  | error r b =>
      rw [ho] at hopen
      exact hopen
  | ok _ b =>
      rw [ho] at hopen
      have h := hs.loadModel b.world
      simp only
      split
      · rename_i heq
        rw [heq] at h
        exact hopen.trans h
      · rename_i world heq
        rw [heq] at h
        have hworld : ∀ c : Authority S E, (rebuild env c).world = c.world := by
          intro c
          unfold rebuild
          split <;> rfl
        simp only [Outcome.state, hworld]
        exact hopen.trans h

/-- A state that stands at the store still does once the world moved on. -/
theorem AtStore.kept {hs : LawfulStore env.store} {a b : Authority S E} (h : AtStore hs a)
    (hk : Kept a b) (hlater : hs.Later a.world b.world) : AtStore hs b := by
  obtain ⟨t, htx, hle, hcontent⟩ := h
  refine ⟨t, hk.tx.trans htx, hle.trans hlater.clock, fun ht => ?_⟩
  have heq : hs.clock b.world = hs.clock a.world :=
    le_antisymm (ht ▸ hle) hlater.clock
  rw [hlater.content heq, hcontent (ht.trans heq), hk.model]

theorem Live.kept {he : LawfulEngine env.engine} {a b : Authority S E} (h : Live he a)
    (hk : Kept a b) : Live he b := by
  unfold Live
  rw [hk.engine, hk.snapshot, hk.model]
  exact h

/-- A save that names what differs stands at the model it saved, no earlier than
before, and where it stayed it changed nothing. -/
theorem save_atStore {hs : LawfulStore env.store} {m old : Model} {changes : ChangeSet}
    {a b : Authority S E} {t : Int} (h : save env m changes a = .ok () b)
    (htx : a.tx = some t) (hle : t ≤ hs.clock a.world)
    (hcontent : t = hs.clock a.world → hs.content a.world = old)
    (hnames : changes.Names old m) :
    ∃ t', b.tx = some t' ∧ t ≤ t' ∧ t' ≤ hs.clock b.world ∧
      (t' = hs.clock b.world → hs.content b.world = m) ∧ (t' = t → old = m) := by
  have hopen := openStore_later hs a
  unfold save at h
  cases ho : openStore env a with
  | error r c =>
      rw [ho] at h
      cases h
  | ok _ c =>
      rw [ho] at h hopen
      have hctx : c.tx = some t := (openStore_ok ho).tx.trans htx
      simp only [hctx] at h
      split at h
      · rename_i tx world heq
        cases h
        obtain ⟨hclock, t', rfl, hlow, hhigh, hsaved⟩ := hs.saved _ _ _ _ _ _ heq
        have hlater : hs.Later a.world c.world := hopen
        have hsame : hs.clock c.world = hs.clock a.world := by
          have := hlater.clock
          omega
        have hold : hs.content c.world = old := by
          rw [hlater.content hsame]
          exact hcontent (hclock.trans hsame)
        rw [hold] at hsaved
        obtain ⟨hcontent', hstay⟩ := hsaved hnames
        exact ⟨t', rfl, hclock ▸ hlow, hhigh, hcontent', fun ht => hstay (ht.trans hclock)⟩
      · cases h

/-! ## Building an engine -/

/-- An engine built over a model with each measure under its id tracks measures
the model derives. -/
theorem buildEngine_live {he : LawfulEngine env.engine} {m : Model} (hkeyed : Keyed m)
    {engine : Option E} {snapshot : Snapshot}
    (h : buildEngine env m = .ok (engine, snapshot)) :
    ∀ e, engine = some e → env.engine.snapshot e = .ok snapshot ∧
      ∀ id ∈ he.tracked e, (m.measures.get? id).any Measure.isDerived = true := by
  intro e hengine
  unfold buildEngine at h
  simp only at h
  split at h
  · cases h
    cases hengine
  · cases hnew : env.engine.new { m with
        measures := m.measures.map fun _ x =>
          if disabled x then { x with kind := .input } else x }
        (((m.measures.map fun _ x =>
          if disabled x then { x with kind := .input } else x).values.filter
            Measure.isDerived).map Measure.id) with
    | error err => simp [hnew, Except.map] at h
    | ok p =>
        obtain ⟨e', s⟩ := p
        simp only [hnew, Except.map, Except.ok.injEq, Prod.mk.injEq] at h
        obtain ⟨rfl, rfl⟩ := h
        cases hengine
        obtain ⟨hsnapshot, htargets⟩ := he.new _ _ _ _ hnew
        refine ⟨hsnapshot, fun id hid => ?_⟩
        obtain ⟨x, hx, rfl⟩ := List.mem_map.mp (htargets id hid)
        obtain ⟨hmem, hderived⟩ := List.mem_filter.mp hx
        obtain ⟨k, hget⟩ := SortedMap.mem_values_iff.mp hmem
        rw [SortedMap.get?_map, Option.map_eq_some_iff] at hget
        obtain ⟨y, hy, rfl⟩ := hget
        split at hderived
        · cases hderived
        · rename_i hdisabled
          rw [if_neg hdisabled, hkeyed.measure k y hy, hy]
          simpa [hdisabled] using hderived

theorem rebuild_live {he : LawfulEngine env.engine} {a : Authority S E}
    (hkeyed : Keyed a.model) : Live he (rebuild env a) := by
  unfold rebuild
  cases h : buildEngine env a.model with
  | error err =>
      intro e hengine
      cases hengine
  | ok p => exact buildEngine_live hkeyed h

/-! ## Proceeding -/

/-- What a step does to the cells and the log. -/
inductive Move (env : Env S E) (a b : Authority S E) : Prop
  | same (model : b.model = a.model) (snapshot : b.snapshot = a.snapshot) (log : b.log = a.log)
  | cells (cs : List (MeasureId × CoordKey × Option WireValue)) (n : Nat)
      (structureOf : b.model.structureOf = a.model.structureOf)
      (log : b.log = (a.log ++ [Logged.mk b.version (some cs)]).drop n)
      (values : ∀ c, cellValue env b c =
        (lastValue (feedWrites cs) c).getD (cellValue env a c))
  | reload (n : Nat) (log : b.log = (a.log ++ [Logged.mk b.version none]).drop n)

/-- The transaction did not fall, and where it stayed the cells did. -/
def NoEarlier (a b : Authority S E) : Prop :=
  ∀ t, a.tx = some t → ∃ t', b.tx = some t' ∧ t ≤ t' ∧
    (t' = t → b.model = a.model ∧ b.snapshot = a.snapshot)

theorem NoEarlier.refl (a : Authority S E) : NoEarlier a a :=
  fun t ht => ⟨t, ht, le_refl t, fun _ => ⟨rfl, rfl⟩⟩

theorem NoEarlier.trans {a b c : Authority S E} (h : NoEarlier a b) (h' : NoEarlier b c) :
    NoEarlier a c := by
  intro t ht
  obtain ⟨u, hu, htu, hsame⟩ := h t ht
  obtain ⟨v, hv, huv, hsame'⟩ := h' u hu
  refine ⟨v, hv, htu.trans huv, fun heq => ?_⟩
  have hut : u = t := le_antisymm (heq ▸ huv) htu
  obtain ⟨hm, hs⟩ := hsame hut
  obtain ⟨hm', hs'⟩ := hsame' (heq.trans hut.symm)
  exact ⟨hm'.trans hm, hs'.trans hs⟩

/-- A step from one state to another, as the feed needs it. -/
structure Proceeds (hs : LawfulStore env.store) (he : LawfulEngine env.engine)
    (a b : Authority S E) : Prop where
  move : Move env a b
  noEarlier : NoEarlier a b
  atStore : AtStore hs b
  live : Live he b

namespace Proceeds

variable {hs : LawfulStore env.store} {he : LawfulEngine env.engine} {a b : Authority S E}

/-- The stacks before a step do not count. -/
theorem of_setStacks {session : String} {s : Stacks}
    (h : Proceeds hs he (Authority.setStacks session s a) b) : Proceeds hs he a b where
  move := by
    cases h.move with
    | same model snapshot log => exact .same model snapshot log
    | cells cs n structureOf log values => exact .cells cs n structureOf log values
    | reload n log => exact .reload n log
  noEarlier := h.noEarlier
  atStore := h.atStore
  live := h.live

/-- Nor do those after it. -/
theorem setStacks (h : Proceeds hs he a b) (session : String) (s : Stacks) :
    Proceeds hs he a (Authority.setStacks session s b) where
  move := by
    cases h.move with
    | same model snapshot log => exact .same model snapshot log
    | cells cs n structureOf log values => exact .cells cs n structureOf log values
    | reload n log => exact .reload n log
  noEarlier := h.noEarlier
  atStore := h.atStore
  live := h.live

theorem of_kept (hstore : AtStore hs a) (hlive : Live he a) (hk : Kept a b)
    (hlater : hs.Later a.world b.world) : Proceeds hs he a b where
  move := .same hk.model hk.snapshot hk.log
  noEarlier := fun t ht => ⟨t, hk.tx.trans ht, le_refl t, fun _ => ⟨hk.model, hk.snapshot⟩⟩
  atStore := hstore.kept hk hlater
  live := hlive.kept hk

end Proceeds

end Authority

end Improv.Service
