import Improv.GuiWeb.Cache
/-!
# The authority, as one caller sees it

Its structure, the cells the caller may see, and the log of what changed: each
entry the cells that changed, or none for a structural change.  A version is the
number of changes so far.
-/

namespace Improv.GuiWeb

open Improv.Lib Improv.CoreModel WriteBatch

/-- The changed cells, with their values after. -/
abbrev Writes (V : Type) := List (Cell × Option V)

variable {T V : Type}

/-- The writes of log entries, where none is a structural change. -/
def joined : List (Option (Writes V)) → Option (Writes V)
  | [] => some []
  | none :: _ => none
  | some ws :: log => (joined log).map (ws ++ ·)

/-- What the log names a cell with since some version is the cell's value. -/
def Records (log : List (Option (Writes V))) (values : SortedMap Cell V) : Prop :=
  ∀ n ws, joined (log.drop n) = some ws → ∀ k v, lastValue ws k = some v → values.get? k = v

structure Authority (T V : Type) where
  struct : T
  values : SortedMap Cell V
  log : List (Option (Writes V))
  /-- The oldest entries, which a bounded log drops. -/
  forgotten : Nat
  records : Records log values

/-- A change as the stream sends it. -/
structure ChangeEvent (V : Type) where
  version : Nat
  cells : Writes V
  reload : Bool

theorem joined_append_none (log : List (Option (Writes V))) : joined (log ++ [none]) = none := by
  induction log with
  | nil => rfl
  | cons e log ih =>
      cases e with
      | none => rfl
      | some ws =>
          rw [List.cons_append, joined, ih]
          rfl

theorem joined_append_some (log : List (Option (Writes V))) (ws : Writes V) :
    joined (log ++ [some ws]) = (joined log).map (· ++ ws) := by
  induction log with
  | nil => simp [joined]
  | cons e log ih =>
      cases e with
      | none => rfl
      | some vs =>
          rw [List.cons_append, joined, joined, ih, Option.map_map, Option.map_map]
          congr 1
          funext us
          exact (List.append_assoc vs us ws).symm

theorem joined_eq_some_iff {log : List (Option (Writes V))} {ws : Writes V} :
    joined log = some ws ↔ ∃ vss : List (Writes V), log = vss.map some ∧ ws = vss.flatten := by
  induction log generalizing ws with
  | nil =>
      constructor
      · intro h
        exact ⟨[], rfl, (Option.some.inj h).symm⟩
      · intro ⟨vss, hlog, hws⟩
        rw [List.map_eq_nil_iff.mp hlog.symm] at hws
        rw [hws]
        rfl
  | cons e log ih =>
      cases e with
      | none =>
          constructor
          · intro h
            cases h
          · intro ⟨vss, hlog, _⟩
            cases vss <;> cases hlog
      | some vs =>
          rw [joined, Option.map_eq_some_iff]
          constructor
          · intro ⟨us, hus, hws⟩
            obtain ⟨vss, hlog, rfl⟩ := ih.mp hus
            exact ⟨vs :: vss, by rw [List.map_cons, hlog], hws.symm⟩
          · intro ⟨vss, hlog, hws⟩
            cases vss with
            | nil => cases hlog
            | cons us vss =>
                obtain ⟨hhead, hlog⟩ := List.cons.inj hlog
                refine ⟨vss.flatten, ih.mpr ⟨vss, hlog, rfl⟩, ?_⟩
                rw [Option.some.inj hhead, hws]
                rfl

theorem records_nil (values : SortedMap Cell V) : Records [] values := by
  intro n ws h k v hv
  rw [List.drop_nil] at h
  rw [← Option.some.inj h] at hv
  cases hv

theorem Records.write {log : List (Option (Writes V))} {values : SortedMap Cell V}
    (h : Records log values) (ws : Writes V) :
    Records (log ++ [some ws]) (values.writeAll ws).1 := by
  intro n us hjoined k v hv
  rw [get?_writeAll]
  by_cases hn : n ≤ log.length
  · rw [List.drop_append_of_le_length hn, joined_append_some, Option.map_eq_some_iff] at hjoined
    obtain ⟨vs, hvs, rfl⟩ := hjoined
    rw [lastValue_append] at hv
    cases hlast : lastValue ws k with
    | some u =>
        rw [hlast] at hv
        exact Option.some.inj hv
    | none =>
        rw [hlast, Option.none_or] at hv
        exact h n vs hvs k v hv
  · rw [List.drop_eq_nil_of_le
      (by rw [List.length_append, List.length_singleton]; omega)] at hjoined
    rw [← Option.some.inj hjoined] at hv
    cases hv

theorem Records.restructure {log : List (Option (Writes V))} (values : SortedMap Cell V) :
    Records (log ++ [none]) values := by
  intro n us hjoined k v hv
  by_cases hn : n ≤ log.length
  · rw [List.drop_append_of_le_length hn, joined_append_none] at hjoined
    cases hjoined
  · rw [List.drop_eq_nil_of_le
      (by rw [List.length_append, List.length_singleton]; omega)] at hjoined
    rw [← Option.some.inj hjoined] at hv
    cases hv

namespace Authority

def version (a : Authority T V) : Nat := a.log.length

/-- Cells change: an edit and its recalculation. -/
def write (a : Authority T V) (ws : Writes V) : Authority T V where
  struct := a.struct
  values := (a.values.writeAll ws).1
  log := a.log ++ [some ws]
  forgotten := a.forgotten
  records := a.records.write ws

/-- The structure changes, and any cell with it. -/
def restructure (a : Authority T V) (t : T) (values : SortedMap Cell V) : Authority T V where
  struct := t
  values := values
  log := a.log ++ [none]
  forgotten := a.forgotten
  records := Records.restructure values

def forget (a : Authority T V) (n : Nat) : Authority T V := { a with forgotten := n }

/-- The coordinate's items are among those a window shows. -/
def shows (w : Window) (coord : Coordinate) : Bool :=
  coord.entries.all fun q => (w.get? q.1).all fun items => items.contains q.2

/-- The visible cells of a measure at the items a window names. -/
def window (a : Authority T V) (m : MeasureId) (w : Window) : List (Coordinate × V) :=
  (a.values.entries.filter fun p => p.1.measure = m && shows w p.1.coord).map fun p =>
    (p.1.coord, p.2)

/-- What changed after a version: the changed cells, or a reload when the
structure changed or the log no longer has the version. -/
def changesSince (a : Authority T V) (since : Nat) : Option (ChangeEvent V) :=
  if since = a.version then none
  else if since ≤ a.forgotten ∨ a.version < since then some ⟨a.version, [], true⟩
  else
    match joined (a.log.drop since) with
    | none => some ⟨a.version, [], true⟩
    | some ws =>
        let cells := ws.foldl (fun cells w => cells.insert w.1 w.2) SortedMap.empty
        if cells.entries.isEmpty then none else some ⟨a.version, cells.entries, false⟩

/-! ## Changes since a version -/

/-- A cell may have changed since a version. -/
def TouchedSince (a : Authority T V) (p : Nat) (k : Cell) : Prop :=
  ∃ e ∈ a.log.drop p, ∀ ws, e = some ws → k ∈ ws.map (·.1)

/-- The structure changed since a version. -/
def RestructuredSince (a : Authority T V) (p : Nat) : Prop := none ∈ a.log.drop p

/-- Changes between two versions to the cells named, and none of the structure. -/
structure Passed (a : Authority T V) (p q : Nat) (named : Cell → Prop) : Prop where
  reached : q ≤ a.version
  cells : ∀ k, a.TouchedSince p k → a.TouchedSince q k ∨ named k
  struct : a.RestructuredSince p → a.RestructuredSince q

/-- An event reloads, or tells what changed since a version. -/
structure Tells (a : Authority T V) (p : Option Nat) (ev : ChangeEvent V) : Prop where
  reached : ev.version ≤ a.version
  passed : ev.reload = false → ∀ q, p = some q →
    a.Passed q ev.version fun k => k ∈ ev.cells.map (·.1)
  values : ∀ k v, (k, v) ∈ ev.cells → a.TouchedSince ev.version k ∨ a.values.get? k = v

/-- Events that tell, one after the other, what changed between two versions. -/
def TellAll (a : Authority T V) : Option Nat → List (ChangeEvent V) → Option Nat → Prop
  | p, [], q => p = q ∨ ∃ n m, p = some n ∧ q = some m ∧ a.Passed n m fun _ => False
  | p, ev :: evs, q => a.Tells p ev ∧ a.TellAll (some ev.version) evs q

variable {a : Authority T V}

theorem not_touchedSince_version (k : Cell) : ¬a.TouchedSince a.version k := by
  unfold TouchedSince version
  rw [List.drop_length]
  intro ⟨e, he, _⟩
  cases he

theorem not_restructuredSince_version : ¬a.RestructuredSince a.version := by
  unfold RestructuredSince version
  rw [List.drop_length]
  exact List.not_mem_nil

theorem Passed.refl {p : Nat} (hp : p ≤ a.version) : a.Passed p p fun _ => False :=
  ⟨hp, fun _ h => .inl h, id⟩

theorem Passed.trans {p q r : Nat} {named : Cell → Prop} (h : a.Passed p q fun _ => False)
    (h' : a.Passed q r named) : a.Passed p r named where
  reached := h'.reached
  cells k hk := h'.cells k ((h.cells k hk).resolve_right id)
  struct hr := h'.struct (h.struct hr)

theorem TellAll.append {evs evs' : List (ChangeEvent V)} {p q r : Option Nat}
    (h : a.TellAll p evs q) (h' : a.TellAll q evs' r) : a.TellAll p (evs ++ evs') r := by
  induction evs generalizing p with
  | cons ev evs ih => exact ⟨h.1, ih h.2⟩
  | nil =>
      rcases h with rfl | ⟨n, m, rfl, rfl, hpass⟩
      · exact h'
      · cases evs' with
        | nil =>
            refine .inr ?_
            rcases h' with rfl | ⟨_, m', heq, rfl, hpass'⟩
            · exact ⟨n, m, rfl, rfl, hpass⟩
            · rw [Option.some.inj heq] at hpass
              exact ⟨n, m', rfl, rfl, hpass.trans hpass'⟩
        | cons ev evs' =>
            refine ⟨⟨h'.1.reached, fun hreload k hk => ?_, h'.1.values⟩, h'.2⟩
            rw [← Option.some.inj hk]
            exact hpass.trans (h'.1.passed hreload m rfl)

/-! ## The authority moves on -/

/-- A later state: its log has more entries, and a cell or the structure is
another only where an entry says so. -/
structure Later (a b : Authority T V) : Prop where
  log : ∃ more, b.log = a.log ++ more
  values : ∀ k, b.values.get? k = a.values.get? k ∨ b.TouchedSince a.version k
  struct : b.struct = a.struct ∨ b.RestructuredSince a.version

variable {b : Authority T V}

theorem Later.refl (a : Authority T V) : Later a a :=
  ⟨⟨[], (List.append_nil _).symm⟩, fun _ => .inl rfl, .inl rfl⟩

theorem Later.version_le (h : Later a b) : a.version ≤ b.version := by
  obtain ⟨more, hlog⟩ := h.log
  unfold version
  rw [hlog, List.length_append]
  omega

theorem Later.drop (h : Later a b) {p : Nat} (hp : p ≤ a.version) :
    b.log.drop p = a.log.drop p ++ b.log.drop a.version := by
  obtain ⟨more, hlog⟩ := h.log
  unfold version at hp ⊢
  rw [hlog, List.drop_append_of_le_length hp, List.drop_left]

theorem Later.touchedSince_iff (h : Later a b) {p : Nat} (hp : p ≤ a.version) (k : Cell) :
    b.TouchedSince p k ↔ a.TouchedSince p k ∨ b.TouchedSince a.version k := by
  unfold TouchedSince
  rw [h.drop hp]
  simp only [List.mem_append, or_and_right, exists_or]

theorem Later.restructuredSince_iff (h : Later a b) {p : Nat} (hp : p ≤ a.version) :
    b.RestructuredSince p ↔ a.RestructuredSince p ∨ b.RestructuredSince a.version := by
  unfold RestructuredSince
  rw [h.drop hp, List.mem_append]

theorem Later.passed (h : Later a b) {p q : Nat} {named : Cell → Prop} (hp : p ≤ a.version)
    (hpass : a.Passed p q named) : b.Passed p q named where
  reached := hpass.reached.trans h.version_le
  cells k hk := by
    rw [h.touchedSince_iff hp] at hk
    rw [h.touchedSince_iff hpass.reached]
    rcases hk with hk | hk
    · exact (hpass.cells k hk).imp_left .inl
    · exact .inl (.inr hk)
  struct hr := by
    rw [h.restructuredSince_iff hp] at hr
    rw [h.restructuredSince_iff hpass.reached]
    exact hr.imp_left hpass.struct

theorem Later.tells (h : Later a b) {p : Option Nat} (hp : ∀ q, p = some q → q ≤ a.version)
    {ev : ChangeEvent V} (htells : a.Tells p ev) : b.Tells p ev where
  reached := htells.reached.trans h.version_le
  passed hreload q hq := h.passed (hp q hq) (htells.passed hreload q hq)
  values k v hmem := by
    rw [h.touchedSince_iff htells.reached]
    rcases htells.values k v hmem with htouched | hv
    · exact .inl (.inl htouched)
    · rcases h.values k with hsame | htouched
      · exact .inr (hsame.trans hv)
      · exact .inl (.inr htouched)

theorem Later.tellAll (h : Later a b) {evs : List (ChangeEvent V)} {p q : Option Nat}
    (hp : ∀ n, p = some n → n ≤ a.version) (htells : a.TellAll p evs q) : b.TellAll p evs q := by
  induction evs generalizing p with
  | nil =>
      rcases htells with rfl | ⟨n, m, rfl, rfl, hpass⟩
      · exact .inl rfl
      · exact .inr ⟨n, m, rfl, rfl, h.passed (hp n rfl) hpass⟩
  | cons ev evs ih =>
      refine ⟨h.tells hp htells.1, ih (fun n hn => ?_) htells.2⟩
      rw [← Option.some.inj hn]
      exact htells.1.reached

theorem later_write (a : Authority T V) (ws : Writes V) : Later a (a.write ws) where
  log := ⟨[some ws], rfl⟩
  values k := by
    by_cases hk : k ∈ ws.map (·.1)
    · refine .inr ⟨some ws, ?_, fun us hus => ?_⟩
      · unfold write version
        rw [List.drop_left]
        exact List.mem_singleton_self _
      · rw [← Option.some.inj hus]
        exact hk
    · left
      unfold write
      rw [get?_writeAll, lastValue_eq_none_iff.mpr hk]
      rfl
  struct := .inl rfl

theorem later_restructure (a : Authority T V) (t : T) (values : SortedMap Cell V) :
    Later a (a.restructure t values) := by
  have hdrop : (a.restructure t values).log.drop a.version = [none] := by
    unfold restructure version
    rw [List.drop_left]
  refine ⟨⟨[none], rfl⟩, fun k => .inr ⟨none, ?_, fun us hus => (by cases hus)⟩, .inr ?_⟩
  · rw [hdrop]
    exact List.mem_singleton_self _
  · unfold RestructuredSince
    rw [hdrop]
    exact List.mem_singleton_self _

theorem later_forget (a : Authority T V) (n : Nat) : Later a (a.forget n) :=
  ⟨⟨[], (List.append_nil _).symm⟩, fun _ => .inl rfl, .inl rfl⟩

/-! ## The stream's looks -/

theorem touchedSince_iff_of_joined {p : Nat} {ws : Writes V}
    (h : joined (a.log.drop p) = some ws) (k : Cell) :
    a.TouchedSince p k ↔ k ∈ ws.map (·.1) := by
  obtain ⟨vss, hlog, rfl⟩ := joined_eq_some_iff.mp h
  unfold TouchedSince
  rw [hlog]
  simp only [List.mem_map, List.mem_flatten]
  constructor
  · rintro ⟨_, ⟨vs, hvs, rfl⟩, hall⟩
    obtain ⟨w, hw, rfl⟩ := hall vs rfl
    exact ⟨w, ⟨vs, hvs, hw⟩, rfl⟩
  · rintro ⟨w, ⟨vs, hvs, hw⟩, rfl⟩
    refine ⟨some vs, ⟨vs, hvs, rfl⟩, fun us hus => ?_⟩
    rw [← Option.some.inj hus]
    exact ⟨w, hw, rfl⟩

theorem not_restructuredSince_of_joined {p : Nat} {ws : Writes V}
    (h : joined (a.log.drop p) = some ws) : ¬a.RestructuredSince p := by
  obtain ⟨vss, hlog, _⟩ := joined_eq_some_iff.mp h
  unfold RestructuredSince
  rw [hlog]
  simp

/-- A look tells what changed since a version, or nothing changed. -/
theorem tellAll_changesSince (a : Authority T V) (since : Nat) :
    a.TellAll (some since) (a.changesSince since).toList (some a.version) := by
  have hreload : a.TellAll (some since) [⟨a.version, [], true⟩] (some a.version) := by
    refine ⟨⟨Nat.le_refl _, fun h => (by cases h), fun k v h => (by cases h)⟩, .inl rfl⟩
  unfold changesSince
  split
  · rename_i hsame
    left
    rw [hsame]
  · split
    · exact hreload
    · split
      · exact hreload
      · rename_i ws hjoined
        have hget := get?_foldl_lastValue ws SortedMap.empty
        simp only [SortedMap.get?_empty, Option.or_none] at hget
        have htouched : ∀ k, a.TouchedSince since k ↔
            k ∈ (ws.foldl (fun cells w => cells.insert w.1 w.2) SortedMap.empty).keys := by
          intro k
          rw [touchedSince_iff_of_joined hjoined, SortedMap.mem_keys_iff, SortedMap.contains, hget,
            Option.isSome_iff_ne_none, ne_eq, lastValue_eq_none_iff, not_not]
        simp only
        split
        · rename_i hempty
          refine .inr ⟨since, a.version, rfl, rfl, Nat.le_refl _, fun k hk => ?_, fun hr => ?_⟩
          · rw [htouched, SortedMap.keys, List.isEmpty_iff.mp hempty] at hk
            cases hk
          · exact absurd hr (not_restructuredSince_of_joined hjoined)
        · refine ⟨⟨Nat.le_refl _, fun _ q hq => ?_, fun k v hmem => ?_⟩, .inl rfl⟩
          · rw [← Option.some.inj hq]
            refine ⟨Nat.le_refl _, fun k hk => ?_, fun hr => ?_⟩
            · exact .inr ((htouched k).mp hk)
            · exact absurd hr (not_restructuredSince_of_joined hjoined)
          · right
            refine a.records since ws hjoined k v ?_
            rw [← hget]
            exact SortedMap.get?_eq_some_iff.mpr hmem

end Authority

end Improv.GuiWeb
