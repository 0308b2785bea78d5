import Mathlib.Data.List.TakeWhile
import Improv.StoragePg.Cells
/-!
# Saves and concurrent writers

A save to bound fact tables after any direct writes of others: when it answers
`Conflict`, what it leaves, and exactly when it overwrites nothing of theirs.
-/

namespace Improv.StoragePg

open Improv.Lib Improv.CoreModel

variable {O : Type}

/-! ## One binding -/

section OneBinding

variable {model : Model} {s : Snapshot} {only : Option (List Cell)} {defaults : O} {b : Binding}
  {rows : List (FactRow O)}

theorem writeBound_eq_ok_iff {after : List (FactRow O)} :
    writeBound model (some s) only defaults b rows = .ok after ↔
      ∃ cells, written model b (some s) only = .ok cells ∧ lost true cells rows = none ∧
        after = writeRows true cells defaults rows := by
  unfold writeBound
  rw [bind_eq_ok_iff]
  refine exists_congr fun cells => and_congr_right fun _ => ?_
  simp only [Option.isNone_some, Bool.false_eq_true, if_false]
  cases lost true cells rows with
  | none =>
      constructor
      · intro h
        exact ⟨rfl, (Except.ok.inj h).symm⟩
      · intro h
        rw [h.2]
        rfl
  | some w =>
      constructor
      · intro h
        cases h
      · intro h
        cases h.1

theorem written_error {e : StoreError} (h : written model b (some s) only = .error e) :
    e.isConflict = false := by
  unfold written at h
  cases hm : model.measures.get? b.measure with
  | none =>
      rw [hm] at h
      cases h
  | some measure =>
      simp only [hm, Option.isNone_some, Bool.and_false, Bool.false_eq_true, if_false] at h
      split at h
      · cases h
      · split at h
        · cases h
          rfl
        · obtain ⟨c, _, hc⟩ := mapM_eq_error h
          rw [bind_eq_error_iff] at hc
          have hjson : ∀ v, json v = .error e → e.isConflict = false := by
            intro v hv
            cases v with
            | none => cases hv
            | some v =>
                cases v with
                | number n => cases n <;> cases hv
                | error x =>
                    cases hv
                    rfl
                | _ => cases hv
          rcases hc with hnames | ⟨names, _, hc⟩
          · obtain ⟨d, _, hd⟩ := mapM_eq_error hnames
            cases hname : (c.1.get? d.1).bind (itemName model (some s)) with
            | none =>
                rw [hname] at hd
                cases hd
                rfl
            | some n =>
                rw [hname] at hd
                cases hd
          · rw [bind_eq_error_iff] at hc
            rcases hc with hn | ⟨n, _, hc⟩
            · exact hjson _ hn
            · rw [bind_eq_error_iff] at hc
              rcases hc with ho | ⟨o, _, hc⟩
              · exact hjson _ ho
              · cases hc

/-- A conflict is a cell that does not find its row. -/
theorem writeBound_conflict {e : StoreError} (he : e.isConflict = true)
    (h : writeBound model (some s) only defaults b rows = .error e) :
    ∃ cells, written model b (some s) only = .ok cells ∧ lost true cells rows ≠ none := by
  unfold writeBound at h
  rw [bind_eq_error_iff] at h
  rcases h with h | ⟨cells, hcells, h⟩
  · rw [written_error h] at he
    cases he
  · refine ⟨cells, hcells, fun hnone => ?_⟩
    simp only [Option.isNone_some, Bool.false_eq_true, if_false, hnone] at h
    cases h

theorem writeBound_refused {e : StoreError} (he : e.isConflict = false)
    (h : writeBound model (some s) only defaults b rows = .error e) :
    written model b (some s) only = .error e := by
  unfold writeBound at h
  rw [bind_eq_error_iff] at h
  rcases h with h | ⟨cells, _, h⟩
  · exact h
  · simp only [Option.isNone_some, Bool.false_eq_true, if_false] at h
    cases hlost : lost true cells rows with
    | none =>
        rw [hlost] at h
        cases h
    | some w =>
        rw [hlost] at h
        cases h
        cases he

end OneBinding

/-! ## One binding after the other -/

section Tables

variable {model : Model} {s : Snapshot} {only : Option (List Cell)} {defaults : O}
  {bs : List Binding} {tables : MeasureId → List (FactRow O)}

theorem update_of_nodup {b : Binding} {rows : List (FactRow O)}
    (hnodup : ((b :: bs).map Binding.measure).Nodup) {b' : Binding} (hb' : b' ∈ bs) :
    Function.update tables b.measure rows b'.measure = tables b'.measure := by
  rw [List.map_cons, List.nodup_cons] at hnodup
  refine Function.update_of_ne (fun heq => hnodup.1 ?_) _ _
  rw [← heq]
  exact List.mem_map_of_mem hb'

/-- Each binding's table is written from what it was, and no other is. -/
structure WritesEach (model : Model) (s : Snapshot) (only : Option (List Cell)) (defaults : O)
    (bs : List Binding) (tables after : MeasureId → List (FactRow O)) : Prop where
  each : ∀ b ∈ bs,
    writeBound model (some s) only defaults b (tables b.measure) = .ok (after b.measure)
  others : ∀ m, (∀ b ∈ bs, b.measure ≠ m) → after m = tables m

theorem writesEach_of_ok {after : MeasureId → List (FactRow O)}
    (hnodup : (bs.map Binding.measure).Nodup)
    (h : writeTables model (some s) only defaults bs tables = .ok after) :
    WritesEach model s only defaults bs tables after := by
  induction bs generalizing tables with
  | nil =>
      cases h
      exact ⟨fun b hb => absurd hb List.not_mem_nil, fun m _ => rfl⟩
  | cons b bs ih =>
      unfold writeTables at h
      rw [bind_eq_ok_iff] at h
      obtain ⟨rows, hrows, h⟩ := h
      have hrest := ih (List.nodup_cons.mp hnodup).2 h
      have hfree : ∀ b' ∈ bs, b'.measure ≠ b.measure := by
        intro b' hb' heq
        rw [List.map_cons, List.nodup_cons, ← heq] at hnodup
        exact hnodup.1 (List.mem_map_of_mem hb')
      refine ⟨fun b' hb' => ?_, fun m hm => ?_⟩
      · rcases List.mem_cons.mp hb' with rfl | hb'
        · rw [hrest.others _ hfree, Function.update_self]
          exact hrows
        · have hsame := hrest.each b' hb'
          rwa [update_of_nodup hnodup hb'] at hsame
      · rw [hrest.others m fun b' hb' => hm b' (List.mem_cons_of_mem b hb')]
        exact Function.update_of_ne (hm b List.mem_cons_self).symm _ _

/-- The first binding that fails is tried on its table as it was. -/
theorem exists_of_writeTables_error {e : StoreError} (hnodup : (bs.map Binding.measure).Nodup)
    (h : writeTables model (some s) only defaults bs tables = .error e) :
    ∃ before b later, bs = before ++ b :: later ∧
      (∀ b' ∈ before, ∃ rows,
        writeBound model (some s) only defaults b' (tables b'.measure) = .ok rows) ∧
      writeBound model (some s) only defaults b (tables b.measure) = .error e := by
  induction bs generalizing tables with
  | nil => cases h
  | cons b bs ih =>
      unfold writeTables at h
      rw [bind_eq_error_iff] at h
      rcases h with h | ⟨rows, hrows, h⟩
      · exact ⟨[], b, bs, rfl, fun b' hb' => absurd hb' List.not_mem_nil, h⟩
      · obtain ⟨before, b', later, hsplit, hbefore, herror⟩ := ih (List.nodup_cons.mp hnodup).2 h
        have hmem : ∀ x ∈ before ++ b' :: later, x ∈ bs := by
          intro x hx
          rw [hsplit]
          exact hx
        refine ⟨b :: before, b', later, congrArg (b :: ·) hsplit, fun x hx => ?_, ?_⟩
        · rcases List.mem_cons.mp hx with rfl | hx
          · exact ⟨rows, hrows⟩
          · have hsame := hbefore x hx
            rwa [update_of_nodup hnodup (hmem x (List.mem_append_left _ hx))] at hsame
        · rwa [update_of_nodup hnodup
            (hmem b' (List.mem_append_right _ List.mem_cons_self))] at herror

end Tables

/-! ## Unchanged rows -/

/-- The rows at an address. -/
def rowsAt (names : List String) (rows : List (FactRow O)) : List (FactRow O) :=
  rows.filter (FactRow.isAt names)

/-- What stood at an address when the table was loaded still does, in whatever
order. -/
def Unchanged (loaded now : List (FactRow O)) (names : List String) : Prop :=
  (rowsAt names loaded).Perm (rowsAt names now)

theorem findsAt_iff_rowsAt {names : List String} {old : Option Value} {rows : List (FactRow O)} :
    FindsAt names old rows ↔
      (rowsAt names rows).countP (fun r => sameOpt r.value old) = 1 ∨
        (old = none ∧ rowsAt names rows = []) := by
  unfold FindsAt rowsAt
  have hcount : (rows.filter (FactRow.isAt names)).countP (fun r => sameOpt r.value old) =
      rows.countP (holdsAt names old) := by
    rw [List.countP_filter]
    refine List.countP_congr fun r _ => ?_
    unfold holdsAt
    rw [Bool.and_comm]
  rw [hcount, List.filter_eq_nil_iff, List.any_eq_false]

/-- A cell whose rows are unchanged finds its row as it would have at the load. -/
theorem Unchanged.findsAt_iff {loaded now : List (FactRow O)} {names : List String}
    (h : Unchanged loaded now names) (old : Option Value) :
    FindsAt names old now ↔ FindsAt names old loaded := by
  have hnil : rowsAt names now = [] ↔ rowsAt names loaded = [] := by
    rw [← List.length_eq_zero_iff, ← h.length_eq, List.length_eq_zero_iff]
  rw [findsAt_iff_rowsAt, findsAt_iff_rowsAt, h.countP_eq, hnil]

/-! ## A save after direct writes -/

/-- Another writer's statement on a fact table. -/
inductive DirectWrite : Database O → Database O → Prop
  | write (db : Database O) (m : MeasureId) (rows : List (FactRow O)) :
      DirectWrite db { db with tables := Function.update db.tables m rows }

theorem tx_of_directWrites {loaded db : Database O}
    (h : Relation.ReflTransGen DirectWrite loaded db) : db.tx = loaded.tx := by
  induction h with
  | refl => rfl
  | tail _ hstep ih =>
      cases hstep
      exact ih

/-- A save through a handle that has loaded.  The statements on the catalog and
on unbound cells answer as they may. -/
structure SaveCall (O : Type) where
  model : Model
  base : Snapshot
  bindings : List Binding
  only : Option (List Cell)
  defaults : O
  catalog : Except String Unit
  unbound : Except String Unit

namespace SaveCall

variable (c : SaveCall O)

def keys : Option (List Cell) := c.only.map cellSet

/-- The bindings it writes. -/
def bound : List Binding := boundOf c.keys c.bindings

/-- The cells of a binding it writes. -/
def cells (b : Binding) : Except StoreError (List Written) :=
  written c.model b (some c.base) c.keys

def run (loaded db : Database O) : Except StoreError (Database O) :=
  save db c.model (some c.base) (some loaded.tx) c.bindings c.only c.defaults c.catalog c.unbound

/-- An item's name when it was loaded, or of an item made since. -/
def loadedName (i : ItemId) : Option String :=
  match c.base.names.get? i with
  | some n => some n
  | none => (c.model.items.get? i).map Item.name

/-- Where a written cell's row stood when it was loaded. -/
def loadedNames (b : Binding) (w : Written) : List String :=
  match address b c.loadedName w.coord with
  | .ok names => names
  | .error _ => w.names

/-- No written cell's row was changed, removed or duplicated since the load. -/
def Undisturbed (loaded db : Database O) : Prop :=
  ∀ b ∈ c.bound, ∀ cells, c.cells b = .ok cells → ∀ w ∈ cells,
    Unchanged (loaded.tables b.measure) (db.tables b.measure) (c.loadedNames b w)

/-- The save overwrites no one's change: it fails and changes nothing, with a
conflict only where a written cell's row was changed, or writes its cells alone. -/
structure NeverOverwrites (loaded db : Database O) : Prop where
  failed : ∀ e, c.run loaded db = .error e → afterSave db (c.run loaded db) = db ∧
    (e.isConflict = true → ∃ b ∈ c.bound, ∃ cells, c.cells b = .ok cells ∧ ∃ w ∈ cells,
      ¬Unchanged (loaded.tables b.measure) (db.tables b.measure) (c.loadedNames b w))
  saved : ∀ after, c.run loaded db = .ok after →
    (∀ b ∈ c.bound, ∃ cells, c.cells b = .ok cells ∧
      Saved cells c.defaults (db.tables b.measure) (after.tables b.measure)) ∧
    ∀ m, (∀ b ∈ c.bound, b.measure ≠ m) → after.tables m = db.tables m

/-- The bindings before the first whose cells are refused. -/
def attempted : List Binding := c.bound.takeWhile fun b => (c.cells b).isOk

/-- When a save is right: where each cell finds its row, no other row at a cell's
address has a value; and undisturbed cells find their rows, an added one as the
table was loaded, one whose address has changed as the table is now. -/
structure Meets (loaded db : Database O) : Prop where
  alone : c.catalog = .ok () → c.unbound = .ok () →
    (∀ b ∈ c.bound, ∃ cells, c.cells b = .ok cells ∧
      ∀ w ∈ cells, Finds (db.tables b.measure) w) →
    ∀ b ∈ c.bound, ∀ cells, c.cells b = .ok cells → ∀ w ∈ cells, Clean (db.tables b.measure) w
  found : c.catalog = .ok () → c.Undisturbed loaded db →
    ∀ b ∈ c.attempted, ∀ cells, c.cells b = .ok cells → ∀ w ∈ cells,
      if c.loadedNames b w = w.names then
        w.old = none → FindsAt w.names none (loaded.tables b.measure)
      else Finds (db.tables b.measure) w

/-- The snapshot was loaded from these tables, but for measures a partial load
leaves out, and the catalog admits no two items of one name. -/
structure FromLoad (itemOf : CategoryId → String → Option ItemId) (loaded : Database O) :
    Prop where
  bindings : (c.bindings.map Binding.measure).Nodup
  base : ∀ b ∈ c.bindings, LoadedFrom itemOf b (loaded.tables b.measure) c.base ∨
    ∀ coord, c.base.bound.get? ⟨b.measure, coord⟩ = none
  names : c.catalog = .ok () → ∀ b ∈ c.bindings, Addressable c.model c.base b

variable {c : SaveCall O} {loaded db : Database O} {b : Binding} {cells : List Written}
  {itemOf : CategoryId → String → Option ItemId}

/-! ## What a save answers -/

theorem writes (c : SaveCall O) (hwrites : Relation.ReflTransGen DirectWrite loaded db) :
    c.run loaded db = do
      c.catalog.mapError .pg
      let tables ← writeTables c.model (some c.base) c.keys c.defaults c.bound db.tables
      c.unbound.mapError .pg
      return ⟨db.tx + 1, tables⟩ := by
  unfold run save
  rw [← tx_of_directWrites hwrites]
  simp only [Option.any_some, ne_eq, not_true_eq_false, decide_false, Bool.false_eq_true,
    if_false]
  rfl

theorem run_eq_ok_iff (hwrites : Relation.ReflTransGen DirectWrite loaded db)
    {after : Database O} :
    c.run loaded db = .ok after ↔ c.catalog = .ok () ∧ c.unbound = .ok () ∧
      ∃ tables, writeTables c.model (some c.base) c.keys c.defaults c.bound db.tables = .ok tables ∧
        after = ⟨db.tx + 1, tables⟩ := by
  rw [c.writes hwrites, bind_eq_ok_iff]
  constructor
  · intro ⟨_, hcatalog, h⟩
    rw [bind_eq_ok_iff] at h
    obtain ⟨tables, htables, h⟩ := h
    rw [bind_eq_ok_iff] at h
    obtain ⟨_, hunbound, h⟩ := h
    exact ⟨mapError_eq_ok_iff.mp hcatalog, mapError_eq_ok_iff.mp hunbound, tables, htables,
      (Except.ok.inj h).symm⟩
  · intro ⟨hcatalog, hunbound, tables, htables, hafter⟩
    rw [hcatalog, hunbound, htables, hafter]
    exact ⟨(), rfl, rfl⟩

/-- Where the catalog's statements succeed, the tables' first failure is the
save's. -/
theorem run_of_writeTables_error (hwrites : Relation.ReflTransGen DirectWrite loaded db)
    (hcatalog : c.catalog = .ok ()) {e : StoreError}
    (h : writeTables c.model (some c.base) c.keys c.defaults c.bound db.tables = .error e) :
    c.run loaded db = .error e := by
  rw [c.writes hwrites, hcatalog, h]
  rfl

theorem writeTables_of_conflict (hwrites : Relation.ReflTransGen DirectWrite loaded db)
    {e : StoreError} (he : e.isConflict = true) (h : c.run loaded db = .error e) :
    c.catalog = .ok () ∧
      writeTables c.model (some c.base) c.keys c.defaults c.bound db.tables = .error e := by
  have hpg : ∀ x : Except String Unit, x.mapError StoreError.pg ≠ .error e := by
    intro x hx
    obtain ⟨text, _, htext⟩ := mapError_eq_error_iff.mp hx
    rw [← htext] at he
    cases he
  rw [c.writes hwrites, bind_eq_error_iff] at h
  rcases h with h | ⟨_, hcatalog, h⟩
  · exact absurd h (hpg _)
  · refine ⟨mapError_eq_ok_iff.mp hcatalog, ?_⟩
    rw [bind_eq_error_iff] at h
    rcases h with h | ⟨tables, _, h⟩
    · exact h
    · rw [bind_eq_error_iff] at h
      rcases h with h | ⟨_, _, h⟩
      · exact absurd h (hpg _)
      · cases h

/-! ## Cells of a loaded snapshot -/

theorem mem_bindings (hb : b ∈ c.bound) : b ∈ c.bindings := by
  unfold bound boundOf at hb
  cases hkeys : c.keys with
  | none =>
      rw [hkeys] at hb
      exact hb
  | some keys =>
      rw [hkeys] at hb
      exact (List.mem_filter.mp hb).1

theorem FromLoad.bound_nodup (h : c.FromLoad itemOf loaded) :
    (c.bound.map Binding.measure).Nodup := by
  have hsub : c.bound.Sublist c.bindings := by
    unfold bound boundOf
    cases c.keys with
    | none => exact List.Sublist.refl _
    | some keys => exact List.filter_sublist
  exact h.bindings.sublist (hsub.map _)

theorem keys_nodup (c : SaveCall O) : ∀ keys, c.keys = some keys → keys.Nodup := by
  intro keys hkeys
  unfold SaveCall.keys at hkeys
  obtain ⟨cells, _, rfl⟩ := Option.map_eq_some_iff.mp hkeys
  exact SortedMap.nodup_keys _

theorem FromLoad.nodup_names (h : c.FromLoad itemOf loaded) (hcatalog : c.catalog = .ok ())
    (hb : b ∈ c.bound) (hcells : c.cells b = .ok cells) : (cells.map Written.names).Nodup :=
  (h.names hcatalog b (mem_bindings hb)).nodup_names hcells c.keys_nodup

theorem FromLoad.proper (h : c.FromLoad itemOf loaded) (hb : b ∈ c.bound)
    (hcells : c.cells b = .ok cells) : ∀ w ∈ cells, w.Proper := by
  refine proper_of_written (fun coord v hv => ?_) hcells
  rcases h.base b (mem_bindings hb) with hload | hnone
  · exact hload.kept coord v hv
  · rw [hnone coord] at hv
    cases hv

/-- Where an address is known it stays so under more names. -/
theorem address_mono {name name' : ItemId → Option String} {coord : Coordinate}
    {names : List String} (hname : ∀ i n, name i = some n → name' i = some n)
    (h : address b name coord = .ok names) : address b name' coord = .ok names := by
  rw [address_eq_ok_iff] at h ⊢
  refine h.imp fun d n hn => ?_
  obtain ⟨i, hi, hin⟩ := Option.bind_eq_some_iff.mp hn
  rw [hi]
  exact hname i n hin

/-- The row of a loaded cell was the one of its value at its address then. -/
theorem FromLoad.countP_eq_one (h : c.FromLoad itemOf loaded) (hb : b ∈ c.bound)
    (hcells : c.cells b = .ok cells) {w : Written} (hw : w ∈ cells) {v : Value}
    (hold : w.old = some v) :
    (loaded.tables b.measure).countP (holdsAt (c.loadedNames b w) (some v)) = 1 := by
  obtain ⟨d, hd, hof⟩ := exists_diff_of_written hcells hw
  have hv : c.base.bound.get? ⟨b.measure, w.coord⟩ = some v := by
    rw [hof.coord, ← (of_mem_diff hd).2.1, ← hof.old, hold]
  rcases h.base b (mem_bindings hb) with hload | hnone
  · obtain ⟨names, hnames⟩ := hload.exists_names hv
    have hloaded : address b c.loadedName w.coord = .ok names := by
      refine address_mono (fun i n hn => ?_) hnames
      unfold loadedName
      rw [hn]
    unfold loadedNames
    rw [hloaded]
    exact hload.countP_eq_one hv hnames
  · rw [hnone] at hv
    cases hv

/-! ## Which save succeeds -/

/-- The bindings before one whose cells are refused. -/
theorem attempted_eq {before later : List Binding} (hsplit : c.bound = before ++ b :: later)
    (hbefore : ∀ b' ∈ before, ∃ cells, c.cells b' = .ok cells) :
    c.attempted = before ++ (b :: later).takeWhile fun b => (c.cells b).isOk := by
  unfold attempted
  rw [hsplit]
  refine List.takeWhile_append_of_pos fun b' hb' => ?_
  obtain ⟨cells, hcells⟩ := hbefore b' hb'
  rw [hcells]
  rfl

section Save

variable (h : c.FromLoad itemOf loaded) (hwrites : Relation.ReflTransGen DirectWrite loaded db)
include h hwrites

/-- What each binding's statements left. -/
theorem FromLoad.of_run {after : Database O} (hrun : c.run loaded db = .ok after) {b : Binding}
    (hb : b ∈ c.bound) :
    ∃ cells, c.cells b = .ok cells ∧ (∀ w ∈ cells, Finds (db.tables b.measure) w) ∧
      after.tables b.measure = writeRows true cells c.defaults (db.tables b.measure) := by
  obtain ⟨hcatalog, _, tables, htables, rfl⟩ := (run_eq_ok_iff hwrites).mp hrun
  have hwritten := (writesEach_of_ok h.bound_nodup htables).each b hb
  obtain ⟨cells, hcells, hlost, hafter⟩ := writeBound_eq_ok_iff.mp hwritten
  refine ⟨cells, hcells, ?_, hafter⟩
  exact (lost_eq_none_iff (h.nodup_names hcatalog hb hcells) (h.proper hb hcells)).mp hlost

/-- A save whose cells all find their rows succeeds. -/
theorem FromLoad.run_ok (hcatalog : c.catalog = .ok ()) (hunbound : c.unbound = .ok ())
    (hfinds : ∀ b ∈ c.bound, ∃ cells, c.cells b = .ok cells ∧
      ∀ w ∈ cells, Finds (db.tables b.measure) w) :
    ∃ after, c.run loaded db = .ok after := by
  cases htables : writeTables c.model (some c.base) c.keys c.defaults c.bound db.tables with
  | ok tables => exact ⟨_, (run_eq_ok_iff hwrites).mpr ⟨hcatalog, hunbound, tables, htables, rfl⟩⟩
  | error e =>
      exfalso
      obtain ⟨before, b, later, hsplit, _, herror⟩ :=
        exists_of_writeTables_error h.bound_nodup htables
      have hb : b ∈ c.bound := by
        rw [hsplit]
        exact List.mem_append_right _ List.mem_cons_self
      obtain ⟨cells, hcells, hall⟩ := hfinds b hb
      have hlost := (lost_eq_none_iff (h.nodup_names hcatalog hb hcells)
        (h.proper hb hcells)).mpr hall
      rw [writeBound_eq_ok_iff.mpr ⟨cells, hcells, hlost, rfl⟩] at herror
      cases herror

/-- A save answers `Conflict` when an attempted cell does not find its row. -/
theorem FromLoad.conflict_iff :
    (∃ e, c.run loaded db = .error e ∧ e.isConflict = true) ↔
      c.catalog = .ok () ∧ ∃ b ∈ c.attempted, ∃ cells, c.cells b = .ok cells ∧
        ∃ w ∈ cells, ¬Finds (db.tables b.measure) w := by
  constructor
  · intro ⟨e, hrun, he⟩
    obtain ⟨hcatalog, htables⟩ := writeTables_of_conflict hwrites he hrun
    obtain ⟨before, b, later, hsplit, hbefore, herror⟩ :=
      exists_of_writeTables_error h.bound_nodup htables
    obtain ⟨cells, hcells, hlost⟩ := writeBound_conflict he herror
    have hb : b ∈ c.bound := by
      rw [hsplit]
      exact List.mem_append_right _ List.mem_cons_self
    refine ⟨hcatalog, b, ?_, cells, hcells, ?_⟩
    · rw [attempted_eq hsplit fun b' hb' => ?_]
      · refine List.mem_append_right _ ?_
        rw [List.takeWhile_cons_of_pos (by rw [show c.cells b = .ok cells from hcells]; rfl)]
        exact List.mem_cons_self
      · obtain ⟨rows, hrows⟩ := hbefore b' hb'
        obtain ⟨cells', hcells', _⟩ := writeBound_eq_ok_iff.mp hrows
        exact ⟨cells', hcells'⟩
    · by_contra hall
      push Not at hall
      exact hlost ((lost_eq_none_iff (h.nodup_names hcatalog hb hcells)
        (h.proper hb hcells)).mpr hall)
  · intro ⟨hcatalog, b, hb, cells, hcells, w, hw, hnot⟩
    have hbound : b ∈ c.bound := (List.takeWhile_sublist _).mem hb
    have hlost : ∀ rows, writeBound c.model (some c.base) c.keys c.defaults b
        (db.tables b.measure) ≠ .ok rows := by
      intro rows hrows
      obtain ⟨cells', hcells', hnone, _⟩ := writeBound_eq_ok_iff.mp hrows
      rw [Except.ok.inj (hcells.symm.trans hcells')] at hw
      exact hnot ((lost_eq_none_iff (h.nodup_names hcatalog hbound hcells')
        (h.proper hbound hcells')).mp hnone w hw)
    cases htables : writeTables c.model (some c.base) c.keys c.defaults c.bound db.tables with
    | ok tables => exact absurd ((writesEach_of_ok h.bound_nodup htables).each b hbound) (hlost _)
    | error e =>
        refine ⟨e, run_of_writeTables_error hwrites hcatalog htables, ?_⟩
        obtain ⟨before, b', later, hsplit, hbefore, herror⟩ :=
          exists_of_writeTables_error h.bound_nodup htables
        by_contra hnotConflict
        rw [Bool.not_eq_true] at hnotConflict
        have hrefused : c.cells b' = .error e := writeBound_refused hnotConflict herror
        -- A refused binding ends what is attempted, so `b` was written before it.
        rw [attempted_eq hsplit fun x hx => ?_] at hb
        · rw [List.takeWhile_cons_of_neg (by rw [hrefused]; exact Bool.false_ne_true),
            List.append_nil] at hb
          obtain ⟨rows, hrows⟩ := hbefore b hb
          exact hlost rows hrows
        · obtain ⟨rows, hrows⟩ := hbefore x hx
          obtain ⟨cells', hcells', _⟩ := writeBound_eq_ok_iff.mp hrows
          exact ⟨cells', hcells'⟩

end Save

/-! ## The condition -/

/-- Undisturbed cells find their rows under the condition. -/
theorem FromLoad.finds_of_meets (h : c.FromLoad itemOf loaded) (hmeets : c.Meets loaded db)
    (hcatalog : c.catalog = .ok ()) (hundisturbed : c.Undisturbed loaded db) {b : Binding}
    (hb : b ∈ c.attempted) {cells : List Written} (hcells : c.cells b = .ok cells) {w : Written}
    (hw : w ∈ cells) :
    Finds (db.tables b.measure) w := by
  have hbound : b ∈ c.bound := (List.takeWhile_sublist _).mem hb
  have hfound := hmeets.found hcatalog hundisturbed b hb cells hcells w hw
  by_cases hnames : c.loadedNames b w = w.names
  · rw [if_pos hnames] at hfound
    have hsame := hundisturbed b hbound cells hcells w hw
    rw [hnames] at hsame
    refine (hsame.findsAt_iff w.old).mpr ?_
    cases hold : w.old with
    | none => exact hfound hold
    | some v =>
        left
        rw [← hnames]
        exact h.countP_eq_one hbound hcells hw hold
  · rw [if_neg hnames] at hfound
    exact hfound

/-- Sales by city. -/
def salesBinding : Binding := ⟨⟨1⟩, [(⟨1⟩, "city")], none, by decide⟩

def osloSales : Cell := ⟨⟨1⟩, .fromPairs [(⟨1⟩, ⟨1⟩)]⟩

def salesModel (n : Nat) : Model :=
  { Model.new with
    categories := .ofList [(⟨1⟩, ⟨⟨1⟩, "City", [⟨1⟩]⟩)]
    items := .ofList [(⟨1⟩, ⟨⟨1⟩, ⟨1⟩, "Oslo"⟩)]
    measures := .ofList [(⟨1⟩, ⟨⟨1⟩, "Sales", .number, [⟨1⟩], .input, none, none⟩)]
    inputs := .ofList [(osloSales, .number (.ofNat n))] }

def salesRow (n : Nat) : FactRow Unit := ⟨[some "Oslo"], some (.number (.ofNat n)), ()⟩

def salesTables (rows : List (FactRow Unit)) : Database Unit := ⟨7, fun _ => rows⟩

/-- Oslo's sales were loaded as one and are set to two. -/
def salesCall : SaveCall Unit where
  model := salesModel 2
  base := ⟨.ofList [(osloSales, .number (.ofNat 1))], .ofList [(⟨1⟩, "Oslo")]⟩
  bindings := [salesBinding]
  only := none
  defaults := ()
  catalog := .ok ()
  unbound := .ok ()

def salesItem (c : CategoryId) (n : String) : Option ItemId :=
  if c = ⟨1⟩ ∧ n = "Oslo" then some ⟨1⟩ else none

theorem eq_osloSales {k : Cell} (h : IsCell salesCall.model salesCall.base salesBinding k) :
    k = osloSales := by
  have hkeys : salesCall.model.inputs.keys = [osloSales] ∧
      salesCall.base.bound.keys = [osloSales] := by
    decide +kernel
  rw [IsCell, ← SortedMap.mem_keys_iff, ← SortedMap.mem_keys_iff, hkeys.1, hkeys.2, or_self,
    List.mem_singleton] at h
  exact h.2

theorem salesCall_fromLoad : salesCall.FromLoad salesItem (salesTables [salesRow 1]) where
  bindings := by decide
  base := by
    intro b hb
    rw [List.mem_singleton.mp hb]
    refine .inl ⟨⟨salesCall.base.bound, by decide +kernel, fun _ => rfl⟩, fun c n i h => ?_,
      by decide⟩
    unfold salesItem at h
    by_cases hn : c = ⟨1⟩ ∧ n = "Oslo"
    · rw [if_pos hn] at h
      rw [hn.2, ← Option.some.inj h]
      decide
    · rw [if_neg hn] at h
      cases h
  names := by
    intro _ b hb
    rw [List.mem_singleton.mp hb]
    refine ⟨fun k hk => ?_, fun k k' hk hk' c i j hi hj _ => ?_⟩
    · rw [eq_osloSales hk]
      decide
    · rw [eq_osloSales hk] at hi
      rw [eq_osloSales hk', hi] at hj
      exact Option.some.inj hj

/-- Another writer inserts a second row for Oslo. -/
def salesWritten : Database Unit :=
  { salesTables [salesRow 1] with
    tables := Function.update (salesTables [salesRow 1]).tables ⟨1⟩ [salesRow 1, salesRow 5] }

end SaveCall

end Improv.StoragePg
