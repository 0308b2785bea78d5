import Improv.Engine.Session
/-!
# Settling differences

A round's differences, settled into the snapshot, turn the rows of a measure
into its new collection when they add up to the change and the collection holds
one value per coordinate.  While a round records its changes, a cell is
recorded before it first changes, so the record tells every cell's old value.
-/

namespace Improv.Engine

open Improv.Lib Improv.Lib.Bag Improv.CoreModel

/-! ## Retractions, then assertions -/

/-- A list asserts a value of a cell. -/
def Asserts (d : List Delta) (m : MeasureId) (k : CoordKey) (v : CellValue) : Prop :=
  ∃ n, 0 < n ∧ ((⟨m, k, v⟩, n) : Delta) ∈ d

/-- A list retracts a value of a cell. -/
def Retracts (d : List Delta) (m : MeasureId) (k : CoordKey) (v : CellValue) : Prop :=
  ∃ n < 0, ((⟨m, k, v⟩, n) : Delta) ∈ d

theorem asserts_cons {x : Delta} {d : List Delta} {m : MeasureId} {k : CoordKey}
    {v : CellValue} : Asserts (x :: d) m k v ↔ (x.1 = ⟨m, k, v⟩ ∧ 0 < x.2) ∨ Asserts d m k v := by
  unfold Asserts
  constructor
  · intro h
    obtain ⟨n, hn, hmem⟩ := h
    rcases List.mem_cons.mp hmem with heq | hmem
    · exact .inl ⟨by rw [← heq], by rw [← heq]; exact hn⟩
    · exact .inr ⟨n, hn, hmem⟩
  · intro h
    rcases h with ⟨hx, hpos⟩ | ⟨n, hn, hmem⟩
    · exact ⟨x.2, hpos, by rw [← hx]; exact List.mem_cons_self⟩
    · exact ⟨n, hn, List.mem_cons_of_mem _ hmem⟩

theorem retracts_cons {x : Delta} {d : List Delta} {m : MeasureId} {k : CoordKey}
    {v : CellValue} : Retracts (x :: d) m k v ↔ (x.1 = ⟨m, k, v⟩ ∧ x.2 < 0) ∨ Retracts d m k v := by
  unfold Retracts
  constructor
  · intro h
    obtain ⟨n, hn, hmem⟩ := h
    rcases List.mem_cons.mp hmem with heq | hmem
    · exact .inl ⟨by rw [← heq], by rw [← heq]; exact hn⟩
    · exact .inr ⟨n, hn, hmem⟩
  · intro h
    rcases h with ⟨hx, hneg⟩ | ⟨n, hn, hmem⟩
    · exact ⟨x.2, hneg, by rw [← hx]; exact List.mem_cons_self⟩
    · exact ⟨n, hn, List.mem_cons_of_mem _ hmem⟩

variable {b : Board} {d : List Delta} {m : MeasureId} {k : CoordKey} {v : CellValue}

/-- A retraction takes away the cell it names, where it holds the value. -/
theorem lookup_settleDelta_retract (x : Delta) :
    ((settleDelta false b x).snapshot m).lookup k = some v ↔
      (b.snapshot m).lookup k = some v ∧ ¬(x.1 = ⟨m, k, v⟩ ∧ x.2 < 0) := by
  obtain ⟨⟨m', k', v'⟩, n⟩ := x
  unfold settleDelta
  by_cases hneg : n < 0
  · have hpass : ¬(n = 0 ∨ decide (0 < n) ≠ false) := by
      simp
      omega
    rw [if_neg hpass]
    simp only [applyDelta, if_neg (by omega : ¬0 < n)]
    by_cases hm : m = m'
    · subst hm
      rw [Function.update_self]
      by_cases hhold : (b.snapshot m).lookup k' = some v'
      · rw [if_pos hhold]
        by_cases hk : k = k'
        · subst hk
          rw [Finmap.lookup_erase, hhold]
          simp only [reduceCtorEq, Option.some.injEq, DeltaKey.mk.injEq, hneg, false_iff]
          simp
        · rw [Finmap.lookup_erase_ne hk]
          simp [Ne.symm hk]
      · rw [if_neg hhold]
        simp only [DeltaKey.mk.injEq, hneg, and_true, true_and]
        constructor
        · intro h
          refine ⟨h, ?_⟩
          rintro ⟨rfl, rfl⟩
          exact hhold h
        · exact fun h => h.1
    · rw [Function.update_of_ne hm]
      simp [Ne.symm hm]
  · have hskip : n = 0 ∨ decide (0 < n) ≠ false := by
      simp
      omega
    rw [if_pos hskip]
    simp [hneg]

/-- An assertion sets the cell it names. -/
theorem lookup_settleDelta_assert (x : Delta) :
    ((settleDelta true b x).snapshot m).lookup k =
      if x.1.measure = m ∧ x.1.coord = k ∧ 0 < x.2 then some x.1.value
      else (b.snapshot m).lookup k := by
  obtain ⟨⟨m', k', v'⟩, n⟩ := x
  unfold settleDelta
  by_cases hpos : 0 < n
  · have hpass : ¬(n = 0 ∨ decide (0 < n) ≠ true) := by
      simp [hpos]
      omega
    rw [if_neg hpass]
    simp only [applyDelta, if_pos hpos]
    by_cases hm : m = m'
    · subst hm
      rw [Function.update_self]
      by_cases hk : k = k'
      · subst hk
        simp [Finmap.lookup_insert, hpos]
      · rw [Finmap.lookup_insert_of_ne _ hk]
        simp [Ne.symm hk]
    · rw [Function.update_of_ne hm]
      simp [Ne.symm hm]
  · have hskip : n = 0 ∨ decide (0 < n) ≠ true := by
      simp [hpos]
    rw [if_pos hskip]
    simp [hpos]

theorem lookup_retracts (d : List Delta) (b : Board) :
    ((d.foldl (settleDelta false) b).snapshot m).lookup k = some v ↔
      (b.snapshot m).lookup k = some v ∧ ¬Retracts d m k v := by
  induction d generalizing b with
  | nil => simp [Retracts]
  | cons x d ih =>
      rw [List.foldl_cons, ih, lookup_settleDelta_retract, retracts_cons]
      tauto

/-- After assertions that agree on a cell, it holds what they assert, or what
it held. -/
theorem lookup_asserts {d : List Delta} {b : Board}
    (hagree : ∀ v v', Asserts d m k v → Asserts d m k v' → v = v') :
    ((d.foldl (settleDelta true) b).snapshot m).lookup k = some v ↔
      Asserts d m k v ∨ ((b.snapshot m).lookup k = some v ∧ ∀ v', ¬Asserts d m k v') := by
  induction d generalizing b with
  | nil => simp [Asserts]
  | cons x d ih =>
      have hagree' : ∀ v v', Asserts d m k v → Asserts d m k v' → v = v' := fun v v' h h' =>
        hagree v v' (asserts_cons.mpr (.inr h)) (asserts_cons.mpr (.inr h'))
      rw [List.foldl_cons, ih hagree', lookup_settleDelta_assert]
      obtain ⟨⟨m', k', w⟩, n⟩ := x
      by_cases hx : m' = m ∧ k' = k ∧ 0 < n
      · obtain ⟨rfl, rfl, hpos⟩ := hx
        have hw : Asserts ((⟨m', k', w⟩, n) :: d) m' k' w := asserts_cons.mpr (.inl ⟨rfl, hpos⟩)
        rw [if_pos ⟨rfl, rfl, hpos⟩]
        constructor
        · intro h
          rcases h with h | ⟨h, -⟩
          · exact .inl (asserts_cons.mpr (.inr h))
          · exact .inl (Option.some.inj h ▸ hw)
        · intro h
          rcases h with h | ⟨-, h⟩
          · have hwv : w = v := hagree w v hw h
            subst hwv
            by_cases hsome : ∃ v', Asserts d m' k' v'
            · obtain ⟨v', hv'⟩ := hsome
              have hwv' := hagree w v' hw (asserts_cons.mpr (.inr hv'))
              exact .inl (hwv' ▸ hv')
            · exact .inr ⟨rfl, fun v' hv' => hsome ⟨v', hv'⟩⟩
          · exact absurd hw (h w)
      · have hcons : ∀ v', Asserts ((⟨m', k', w⟩, n) :: d) m k v' ↔ Asserts d m k v' := by
          intro v'
          rw [asserts_cons, or_iff_right_iff_imp]
          intro h
          simp only [DeltaKey.mk.injEq] at h
          exact absurd ⟨h.1.1, h.1.2.1, h.2⟩ hx
        rw [if_neg hx]
        simp only [hcons]

/-! ## A round's differences -/

theorem asserts_consolidate : Asserts (consolidate d) m k v ↔ 0 < weight d ⟨m, k, v⟩ := by
  constructor
  · intro h
    obtain ⟨n, hn, hmem⟩ := h
    rw [mem_consolidate hmem]
    exact hn
  · exact fun h => ⟨_, h, mem_consolidate_of_weight (ne_of_gt h)⟩

theorem retracts_consolidate : Retracts (consolidate d) m k v ↔ weight d ⟨m, k, v⟩ < 0 := by
  constructor
  · intro h
    obtain ⟨n, hn, hmem⟩ := h
    rw [mem_consolidate hmem]
    exact hn
  · exact fun h => ⟨_, h, mem_consolidate_of_weight (ne_of_lt h)⟩

/-- How often a collection with one value per coordinate holds a row. -/
theorem count_eq_ite {c : Coll} (hc : OneValued c) (x : CoordKey × CellValue) :
    c.count x = if x ∈ c then 1 else 0 := by
  by_cases hx : x ∈ c
  · rw [if_pos hx]
    exact Multiset.count_eq_one_of_mem hc.nodup hx
  · rw [if_neg hx]
    exact Multiset.count_eq_zero_of_notMem hx

/-- Differences that add up to a measure's change turn its rows into its new
collection. -/
theorem rows_settle {old new : Coll} (hold : rows (b.snapshot m) = old)
    (hd : ∀ k v, weight d ⟨m, k, v⟩ = (new.count (k, v) : ℤ) - old.count (k, v))
    (hnew : OneValued new) : rows ((settle b d).snapshot m) = new := by
  have holdOne : OneValued old := hold ▸ oneValued_rows _
  have hw : ∀ k v, weight d ⟨m, k, v⟩ =
      (if (k, v) ∈ new then 1 else 0) - (if (k, v) ∈ old then 1 else 0) := by
    intro k v
    rw [hd, count_eq_ite hnew, count_eq_ite holdOne]
    split <;> split <;> rfl
  have hassert : ∀ k v, Asserts (consolidate d) m k v ↔ (k, v) ∈ new ∧ (k, v) ∉ old := by
    intro k v
    rw [asserts_consolidate, hw]
    by_cases hn : (k, v) ∈ new <;> by_cases ho : (k, v) ∈ old <;> simp [hn, ho]
  have hretract : ∀ k v, Retracts (consolidate d) m k v ↔ (k, v) ∈ old ∧ (k, v) ∉ new := by
    intro k v
    rw [retracts_consolidate, hw]
    by_cases hn : (k, v) ∈ new <;> by_cases ho : (k, v) ∈ old <;> simp [hn, ho]
  refine eq_of_mem_iff (oneValued_rows _) hnew fun k v => ?_
  have hagree : ∀ v v', Asserts (consolidate d) m k v → Asserts (consolidate d) m k v' →
      v = v' := by
    intro v v' h h'
    have hrow := hnew.eq_of_key_eq ((hassert k v).mp h).1 ((hassert k v').mp h').1 rfl
    exact congrArg Prod.snd hrow
  unfold settle
  rw [mem_rows, lookup_asserts hagree, lookup_retracts, hretract, hassert,
    ← mem_rows (m := b.snapshot m), hold]
  constructor
  · intro h
    rcases h with ⟨h, -⟩ | ⟨⟨ho, hr⟩, -⟩
    · exact h
    · by_contra hn
      exact hr ⟨ho, hn⟩
  · intro hn
    by_cases ho : (k, v) ∈ old
    · refine .inr ⟨⟨ho, fun h => h.2 hn⟩, fun v' h => ?_⟩
      -- An assertion at the cell would be of the value it already holds.
      obtain ⟨hn', ho'⟩ := (hassert k v').mp h
      have hrow := hnew.eq_of_key_eq hn hn' rfl
      exact ho' (hrow ▸ ho)
    · exact .inl ⟨hn, ho⟩

/-! ## What a round records -/

/-- The record holds the cells' values in `s`, and every cell it does not hold
is as it is there. -/
def Recorded (s : Snapshot) (b : Board) : Prop :=
  ∀ l, b.log = some l → ∀ m k,
    (∀ o, l.lookup (m, k) = some o → o = (s m).lookup k) ∧
      ((m, k) ∉ l → (b.snapshot m).lookup k = (s m).lookup k)

theorem lookup_applyDelta_of_ne {vals : MeasureValues} {x : Delta} (h : k ≠ x.1.coord) :
    (applyDelta vals x).lookup k = vals.lookup k := by
  unfold applyDelta
  by_cases hpos : 0 < x.2
  · rw [if_pos hpos, Finmap.lookup_insert_of_ne _ h]
  · rw [if_neg hpos]
    by_cases hhold : vals.lookup x.1.coord = some x.1.value
    · rw [if_pos hhold, Finmap.lookup_erase_ne h]
    · rw [if_neg hhold]

theorem lookup_orInsert (l : Before) (x y : MeasureId × CoordKey) (o : Option CellValue) :
    (Before.orInsert l x o).lookup y =
      if y = x ∧ x ∉ l then some o else l.lookup y := by
  unfold Before.orInsert
  by_cases hx : x ∈ l
  · simp [hx]
  · by_cases hy : y = x
    · subst hy
      simp [hx, Finmap.lookup_insert]
    · simp [hx, hy, Finmap.lookup_insert_of_ne]

theorem mem_orInsert {l : Before} {x y : MeasureId × CoordKey} {o : Option CellValue} :
    y ∈ Before.orInsert l x o ↔ y = x ∨ y ∈ l := by
  unfold Before.orInsert
  by_cases hx : x ∈ l
  · rw [if_pos hx]
    exact (or_iff_right_of_imp fun h => h ▸ hx).symm
  · rw [if_neg hx, Finmap.mem_insert]

/-- A difference is recorded before it changes its cell. -/
theorem Recorded.settleDelta {s : Snapshot} (h : Recorded s b) (pass : Bool) (x : Delta) :
    Recorded s (settleDelta pass b x) := by
  unfold Engine.settleDelta
  by_cases hskip : x.2 = 0 ∨ decide (0 < x.2) ≠ pass
  · rw [if_pos hskip]
    exact h
  rw [if_neg hskip]
  intro l' hl' m k
  obtain ⟨l, hl, rfl⟩ := Option.map_eq_some_iff.mp hl'
  obtain ⟨hold, hkeep⟩ := h l hl m k
  have hcell : (m, k) ≠ (x.1.measure, x.1.coord) →
      ((Function.update b.snapshot x.1.measure
        (applyDelta (b.snapshot x.1.measure) x)) m).lookup k = (b.snapshot m).lookup k := by
    intro hne
    by_cases hm : m = x.1.measure
    · subst hm
      rw [Function.update_self]
      exact lookup_applyDelta_of_ne fun hk => hne (hk ▸ rfl)
    · rw [Function.update_of_ne hm]
  refine ⟨fun o ho => ?_, fun hnone => ?_⟩
  · rw [lookup_orInsert] at ho
    by_cases hx : (m, k) = (x.1.measure, x.1.coord) ∧ (x.1.measure, x.1.coord) ∉ l
    · rw [if_pos hx] at ho
      obtain ⟨heq, hnew⟩ := hx
      cases ho
      rw [Prod.mk.injEq] at heq
      obtain ⟨rfl, rfl⟩ := heq
      exact hkeep hnew
    · rw [if_neg hx] at ho
      exact hold o ho
  · rw [mem_orInsert, not_or] at hnone
    exact (hcell hnone.1).trans (hkeep hnone.2)

theorem Recorded.settle {s : Snapshot} (h : Recorded s b) (d : List Delta) :
    Recorded s (settle b d) := by
  have hfold : ∀ (pass : Bool) (net : List Delta) (b : Board), Recorded s b →
      Recorded s (net.foldl (Engine.settleDelta pass) b) := by
    intro pass net
    induction net with
    | nil => exact fun _ h => h
    | cons x net ih => exact fun b h => ih _ (h.settleDelta pass x)
  exact hfold true _ _ (hfold false _ _ h)

theorem isSome_log_settle (b : Board) (d : List Delta) :
    (settle b d).log.isSome = b.log.isSome := by
  have hfold : ∀ (pass : Bool) (net : List Delta) (b : Board),
      (net.foldl (settleDelta pass) b).log.isSome = b.log.isSome := by
    intro pass net
    induction net with
    | nil => exact fun _ => rfl
    | cons x net ih =>
        intro b
        rw [List.foldl_cons, ih]
        unfold settleDelta
        split
        · rfl
        · exact Option.isSome_map
  exact (hfold true _ _).trans (hfold false _ _)

/-! ## Changes -/

/-- A list of changes set in a measure's cells. -/
def applyChanges (vals : MeasureValues) (ch : List CellChange) : MeasureValues :=
  ch.foldl (fun vals c =>
    match c.new with
    | some v => vals.insert c.coord v
    | none => vals.erase c.coord) vals

/-- The changes that lead from one snapshot to another: each changed cell once,
with its values in both. -/
structure ChangesBetween (s s' : Snapshot) (ch : Changes) : Prop where
  once : ∀ m, ((ch m).map (·.coord)).Nodup
  old : ∀ m, ∀ c ∈ ch m, c.old = (s m).lookup c.coord
  new : ∀ m, ∀ c ∈ ch m, c.new = (s' m).lookup c.coord
  differ : ∀ m, ∀ c ∈ ch m, c.old ≠ c.new
  apply : ∀ m, applyChanges (s m) (ch m) = s' m

theorem map_ofLex_toLex (k : CoordKey) : (k.map toLex).map ofLex = k := by
  rw [List.map_map]
  exact List.map_id k

theorem mem_sortedCoords {s : Finset CoordKey} : k ∈ sortedCoords s ↔ k ∈ s := by
  unfold sortedCoords
  simp only [List.mem_map, Finset.mem_sort, Finset.mem_image]
  constructor
  · intro h
    obtain ⟨_, ⟨k', hk', rfl⟩, rfl⟩ := h
    rw [map_ofLex_toLex]
    exact hk'
  · exact fun h => ⟨_, ⟨k, h, rfl⟩, map_ofLex_toLex k⟩

theorem nodup_sortedCoords (s : Finset CoordKey) : (sortedCoords s).Nodup :=
  (Finset.sort_nodup _ _).map ofLex.injective.list_map

theorem lookup_applyChanges_of_notMem {ch : List CellChange} (vals : MeasureValues)
    (h : k ∉ ch.map (·.coord)) : (applyChanges vals ch).lookup k = vals.lookup k := by
  induction ch generalizing vals with
  | nil => rfl
  | cons c ch ih =>
      simp only [List.map_cons, List.mem_cons, not_or] at h
      unfold applyChanges
      rw [List.foldl_cons]
      refine (ih _ h.2).trans ?_
      cases c.new with
      | some v => exact Finmap.lookup_insert_of_ne _ h.1
      | none => exact Finmap.lookup_erase_ne h.1

theorem lookup_applyChanges_of_mem {ch : List CellChange} (hch : (ch.map (·.coord)).Nodup)
    {c : CellChange} (h : c ∈ ch) (vals : MeasureValues) :
    (applyChanges vals ch).lookup c.coord = c.new := by
  induction ch generalizing vals with
  | nil => simp at h
  | cons c' ch ih =>
      rw [List.map_cons, List.nodup_cons] at hch
      unfold applyChanges
      rw [List.foldl_cons]
      rcases List.mem_cons.mp h with rfl | hmem
      · refine (lookup_applyChanges_of_notMem _ hch.1).trans ?_
        cases c.new with
        | some v => exact Finmap.lookup_insert _
        | none => exact Finmap.lookup_erase _ _
      · exact ih hch.2 hmem _

/-- The change of a recorded cell, if it changed. -/
def changeOf (s s' : Snapshot) (m : MeasureId) (k : CoordKey) : Option CellChange :=
  if (s m).lookup k = (s' m).lookup k then none
  else some ⟨k, (s m).lookup k, (s' m).lookup k⟩

theorem changeOf_eq_some {s s' : Snapshot} {c : CellChange} :
    changeOf s s' m k = some c ↔
      c = ⟨k, (s m).lookup k, (s' m).lookup k⟩ ∧ (s m).lookup k ≠ (s' m).lookup k := by
  unfold changeOf
  by_cases heq : (s m).lookup k = (s' m).lookup k
  · simp [heq]
  · simp [heq, eq_comm]

/-- The changes are those of the recorded cells. -/
theorem changes_eq {s : Snapshot} {l : Before} (h : Recorded s b) (hl : b.log = some l)
    (m : MeasureId) :
    changes b.snapshot l [] m =
      (sortedCoords ((l.keys.filter fun x => x.1 = m).image Prod.snd)).filterMap
        (changeOf s b.snapshot m) := by
  simp only [changes, List.not_mem_nil, if_false]
  refine List.filterMap_congr fun k hk => ?_
  simp only [mem_sortedCoords, Finset.mem_image, Finset.mem_filter, Finmap.mem_keys] at hk
  obtain ⟨⟨m', k'⟩, ⟨hin, rfl⟩, rfl⟩ := hk
  obtain ⟨o, ho⟩ := Finmap.mem_iff.mp hin
  have hold := (h l hl _ _).1 o ho
  simp only [ho, Option.getD_some, hold, changeOf]

theorem nodup_coords_changeOf {s s' : Snapshot} {coords : List CoordKey} (h : coords.Nodup) :
    ((coords.filterMap (changeOf s s' m)).map (·.coord)).Nodup := by
  induction coords with
  | nil => exact List.nodup_nil
  | cons k coords ih =>
      rw [List.nodup_cons] at h
      cases hc : changeOf s s' m k with
      | none =>
          rw [List.filterMap_cons_none hc]
          exact ih h.2
      | some c =>
          rw [List.filterMap_cons_some hc, List.map_cons, List.nodup_cons]
          refine ⟨fun hin => ?_, ih h.2⟩
          obtain ⟨c', hc', heq⟩ := List.mem_map.mp hin
          obtain ⟨k', hk', hc'⟩ := List.mem_filterMap.mp hc'
          rw [(changeOf_eq_some.mp hc).1, (changeOf_eq_some.mp hc').1] at heq
          have hkk : k' = k := heq
          exact h.1 (hkk ▸ hk')

/-- The changes told from a round's record lead from the snapshot before the
round to the one after it. -/
theorem changesBetween_changes {s : Snapshot} {l : Before} (h : Recorded s b)
    (hl : b.log = some l) : ChangesBetween s b.snapshot (changes b.snapshot l []) := by
  have honce : ∀ m, ((changes b.snapshot l [] m).map (·.coord)).Nodup := fun m => by
    rw [changes_eq h hl]
    exact nodup_coords_changeOf (nodup_sortedCoords _)
  have hmem : ∀ m, ∀ c ∈ changes b.snapshot l [] m, changeOf s b.snapshot m c.coord = some c := by
    intro m c hc
    rw [changes_eq h hl] at hc
    obtain ⟨k, -, hk⟩ := List.mem_filterMap.mp hc
    have hcoord : c.coord = k := congrArg CellChange.coord (changeOf_eq_some.mp hk).1
    rw [hcoord]
    exact hk
  refine ⟨honce, fun m c hc => ?_, fun m c hc => ?_, fun m c hc => ?_, fun m => ?_⟩
  · exact congrArg CellChange.old (changeOf_eq_some.mp (hmem m c hc)).1
  · exact congrArg CellChange.new (changeOf_eq_some.mp (hmem m c hc)).1
  · obtain ⟨heq, hne⟩ := changeOf_eq_some.mp (hmem m c hc)
    rw [heq]
    exact hne
  · refine Finmap.ext_lookup fun k => ?_
    by_cases hk : k ∈ (changes b.snapshot l [] m).map (·.coord)
    · obtain ⟨c, hc, rfl⟩ := List.mem_map.mp hk
      rw [lookup_applyChanges_of_mem (honce m) hc]
      exact congrArg CellChange.new (changeOf_eq_some.mp (hmem m c hc)).1
    · rw [lookup_applyChanges_of_notMem _ hk]
      -- A cell without a change was not recorded, or is as it was.
      by_cases hin : (m, k) ∈ l
      · by_contra hne
        refine hk (List.mem_map.mpr ⟨⟨k, (s m).lookup k, (b.snapshot m).lookup k⟩, ?_, rfl⟩)
        rw [changes_eq h hl]
        refine List.mem_filterMap.mpr ⟨k, ?_, changeOf_eq_some.mpr ⟨rfl, hne⟩⟩
        rw [mem_sortedCoords, Finset.mem_image]
        exact ⟨(m, k), Finset.mem_filter.mpr ⟨Finmap.mem_keys.mpr hin, rfl⟩, rfl⟩
      · exact ((h l hl m k).2 hin).symm

end Improv.Engine
