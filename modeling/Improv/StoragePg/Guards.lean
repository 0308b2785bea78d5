import Mathlib.Data.List.Nodup
import Mathlib.Data.Option.Basic
import Improv.StoragePg.FactTables
/-!
# Guarded writes

What the two statements of a binding do to its fact table, for cells with
different addresses: a save goes through exactly when each cell finds its row,
it changes those rows only, and each cell reads back exactly when no other row
with a value stands at its address.
-/

namespace Improv.StoragePg

open Improv.Lib Improv.CoreModel

variable {O : Type}

/-! ## Values -/

/-- JSON has the value: it is no number that is not finite. -/
def kept : Value → Bool
  | .number n => n.isFinite
  | _ => true

theorem eq_finite_of_plain {s s' : Bool} {u : Nat} {h : representable u = true} (n : F64)
    (hs : u = 0 ∨ s = s') : n.eq (.finite s u h) = n.eq (.finite s' u h) := by
  rcases hs with rfl | rfl
  · cases n <;> cases s <;> cases s' <;> rfl
  · rfl

/-- A column compares a value as the model does. -/
theorem same_of_valueToJson {v w : Value} (hkept : kept v = true)
    (h : valueToJson v = .ok (some w)) (x : Value) : same x w = same x v := by
  cases v with
  | number n =>
      cases n with
      | finite s u hu =>
          cases h
          cases x with
          | number m =>
              refine eq_finite_of_plain m ?_
              by_cases hz : u = 0
              · exact .inl hz
              · exact .inr (if_neg hz)
          | _ => rfl
      | _ => cases hkept
  | error e => cases h
  | _ =>
      cases h
      rfl

theorem exists_valueToJson {v : Value} {n : Option Value} (h : valueToJson v = .ok n) :
    n.isSome = kept v := by
  cases v with
  | number m =>
      cases m <;> cases h <;> rfl
  | error e => cases h
  | _ =>
      cases h
      rfl

theorem sameOpt_json {old o : Option Value} (hkept : ∀ v, old = some v → kept v = true)
    (h : json old = .ok o) (x : Option Value) : sameOpt x o = sameOpt x old := by
  cases old with
  | none =>
      cases h
      rfl
  | some v =>
      have hv := hkept v rfl
      have hsome := exists_valueToJson h
      rw [hv] at hsome
      obtain ⟨w, rfl⟩ := Option.isSome_iff_exists.mp hsome
      cases x with
      | none => rfl
      | some x => exact same_of_valueToJson hv h x

theorem eq_self_of_isFinite {n : F64} (h : n.isFinite = true) : n.eq n = true := by
  cases n with
  | finite s u hu => exact decide_eq_true rfl
  | _ => cases h

theorem same_self {v : Value} (h : kept v = true) : same v v = true := by
  cases v with
  | number n => exact eq_self_of_isFinite h
  | _ => exact decide_eq_true rfl

/-- A stored value that reads as some value. -/
def Reads (stored v : Value) : Prop := ∃ w, jsonToValue stored = .ok w ∧ same w v = true

theorem reads_of_valueToJson {v w : Value} (h : valueToJson v = .ok (some w)) : Reads w v := by
  have hkept : kept v = true := by
    rw [← exists_valueToJson h]
    rfl
  have hsame : same w v = same w w := (same_of_valueToJson hkept h w).symm
  cases v with
  | number n =>
      cases n with
      | finite s u hu =>
          cases h
          exact ⟨_, rfl, hsame.trans (same_self rfl)⟩
      | _ => cases hkept
  | error e => cases h
  | _ =>
      cases h
      exact ⟨_, rfl, hsame.trans (same_self rfl)⟩

theorem jsonToValue_ok {v w : Value} (h : jsonToValue v = .ok w) :
    w = v ∧ kept v = true ∧ v.isError = false := by
  cases v with
  | number n =>
      cases n with
      | finite s u hu =>
          cases h
          exact ⟨rfl, rfl, rfl⟩
      | _ => cases h
  | error e => cases h
  | _ =>
      cases h
      exact ⟨rfl, rfl, rfl⟩

theorem kept_of_reads {stored v : Value} (h : Reads stored v) : kept v = true := by
  obtain ⟨w, hw, hsame⟩ := h
  obtain ⟨rfl, hkept, _⟩ := jsonToValue_ok hw
  cases v with
  | number n =>
      cases w with
      | number m =>
          cases m with
          | finite s u hu => cases n <;> first | rfl | cases hsame
          | _ => cases hkept
      | _ => cases hsame
  | _ => rfl

/-! ## Rows of a cell -/

theorem FactRow.isAt_iff {names : List String} {r : FactRow O} :
    r.isAt names = true ↔ r.dims = names.map some := decide_eq_true_iff

theorem names_eq_of_isAt {names names' : List String} {r : FactRow O} (h : r.isAt names = true)
    (h' : r.isAt names' = true) : names = names' := by
  rw [FactRow.isAt_iff] at h h'
  exact (Option.some_injective String).list_map (h.symm.trans h')

/-- A cell to write as it is made from the snapshot: an added one has a value. -/
structure Written.Proper (w : Written) : Prop where
  n : json w.new = .ok w.n
  o : json w.old = .ok w.o
  new : w.old = none → w.new.isSome = true
  old : ∀ v, w.old = some v → kept v = true

/-- The row stands at the names and holds the value. -/
def holdsAt (names : List String) (v : Option Value) (r : FactRow O) : Bool :=
  r.isAt names && sameOpt r.value v

/-- The row holds the value a cell was loaded with. -/
def holdsOld (w : Written) : FactRow O → Bool := holdsAt w.names w.old

theorem Written.Proper.guards_eq {w : Written} (h : w.Proper) (r : FactRow O) :
    guards true w r = holdsOld w r := by
  unfold guards holdsOld holdsAt
  rw [if_pos rfl, sameOpt_json h.old h.o]

/-- One row at the names holds the loaded value, or no row is there where none
was loaded. -/
def FindsAt (names : List String) (old : Option Value) (rows : List (FactRow O)) : Prop :=
  rows.countP (holdsAt names old) = 1 ∨ (old = none ∧ rows.any (FactRow.isAt names) = false)

/-- The guard of a cell holds. -/
def Finds (rows : List (FactRow O)) (w : Written) : Prop := FindsAt w.names w.old rows

theorem finds_iff {rows : List (FactRow O)} {w : Written} :
    Finds rows w ↔ rows.countP (holdsOld w) = 1 ∨
      (w.old = none ∧ rows.any (FactRow.isAt w.names) = false) := Iff.rfl

section Statements

variable {cells : List Written} {rows : List (FactRow O)}

theorem eq_of_names (hnodup : (cells.map Written.names).Nodup) {w w' : Written} (hw : w ∈ cells)
    (hw' : w' ∈ cells) (h : w.names = w'.names) : w = w' :=
  List.inj_on_of_nodup_map hnodup hw hw' h

/-- A row is updated by the cell whose loaded value it holds. -/
theorem updater_eq_some_iff (hnodup : (cells.map Written.names).Nodup)
    (hproper : ∀ w ∈ cells, w.Proper) {r : FactRow O} {w : Written} :
    updater true cells r = some w ↔ w ∈ cells ∧ holdsOld w r = true := by
  unfold updater
  constructor
  · intro h
    have hmem := List.mem_of_find?_eq_some h
    rw [← (hproper w hmem).guards_eq]
    exact ⟨hmem, List.find?_some (p := fun w => guards true w r) h⟩
  · intro ⟨hmem, hold⟩
    rw [← (hproper w hmem).guards_eq] at hold
    obtain ⟨w', hw'⟩ := Option.isSome_iff_exists.mp
      (List.find?_isSome.mpr ⟨w, hmem, hold⟩ : (cells.find? fun w => guards true w r).isSome)
    have hmem' := List.mem_of_find?_eq_some hw'
    have hold' := List.find?_some (p := fun w => guards true w r) hw'
    simp only [guards, Bool.and_eq_true] at hold hold'
    rw [hw', eq_of_names hnodup hmem' hmem (names_eq_of_isAt hold'.1 hold.1)]

theorem hits_eq (hnodup : (cells.map Written.names).Nodup) (hproper : ∀ w ∈ cells, w.Proper)
    {w : Written} (hw : w ∈ cells) : hits true cells rows w = rows.countP (holdsOld w) := by
  unfold hits
  refine List.countP_congr fun r _ => ?_
  rw [decide_eq_true_iff, updater_eq_some_iff hnodup hproper]
  exact and_iff_right hw

theorem updateRow_dims (r : FactRow O) : (updateRow true cells r).dims = r.dims := by
  unfold updateRow
  split <;> rfl

theorem any_isAt_update (names : List String) :
    (rows.map (updateRow true cells)).any (FactRow.isAt names) = rows.any (FactRow.isAt names) := by
  rw [List.any_map]
  refine congrArg rows.any (funext fun r => ?_)
  unfold Function.comp FactRow.isAt
  rw [updateRow_dims]

theorem any_isAt_of_count {w : Written} (h : rows.countP (holdsOld w) ≠ 0) :
    rows.any (FactRow.isAt w.names) = true := by
  obtain ⟨r, hr, hold⟩ := List.countP_pos_iff.mp (Nat.pos_of_ne_zero h)
  unfold holdsOld holdsAt at hold
  rw [Bool.and_eq_true] at hold
  exact List.any_eq_true.mpr ⟨r, hr, hold.1⟩

/-- A save goes through when each cell finds its row. -/
theorem lost_eq_none_iff (hnodup : (cells.map Written.names).Nodup)
    (hproper : ∀ w ∈ cells, w.Proper) :
    lost true cells rows = none ↔ ∀ w ∈ cells, Finds rows w := by
  unfold lost
  rw [List.find?_eq_none]
  refine forall₂_congr fun w hw => ?_
  have htaken : taken true cells rows w =
      (hits true cells rows w = 0 && w.new.isSome && w.old.isNone &&
        rows.any (FactRow.isAt w.names)) := by
    unfold taken added
    rw [any_isAt_update]
    cases hold : w.old <;> simp [List.mem_filter, hw, hold]
  rw [htaken, hits_eq hnodup hproper hw]
  rw [finds_iff]
  cases hold : w.old with
  | some v =>
      simp only [Option.isSome_some, Bool.true_or, Bool.and_true, Bool.or_eq_true,
        decide_eq_true_iff, reduceCtorEq, false_and, or_false]
      omega
  | none =>
      have hnew := (hproper w hw).new hold
      simp only [hnew, Option.isSome_none, Option.isNone_none, Bool.and_true, Bool.false_or,
        true_and]
      by_cases hzero : rows.countP (holdsOld w) = 0
      · simp [hzero]
      · have hany := any_isAt_of_count hzero
        simp only [hany, Bool.and_true, Bool.or_eq_true, Bool.and_eq_true, decide_eq_true_iff,
          Bool.true_eq_false, or_false]
        omega

/-! ## Reading back -/

/-- The values that stand at an address. -/
def valuesAt (names : List String) (rows : List (FactRow O)) : List Value :=
  (rows.filter (FactRow.isAt names)).filterMap FactRow.value

/-- A load reads the cell as the user set it. -/
def ReadsBack (rows : List (FactRow O)) (w : Written) : Prop :=
  List.Forall₂ Reads (valuesAt w.names rows) w.new.toList

/-- No other row at the cell's address has a value, and JSON has the new one. -/
def Clean (rows : List (FactRow O)) (w : Written) : Prop :=
  (∀ r ∈ rows, r.isAt w.names = true → r.value = none ∨ sameOpt r.value w.old = true) ∧
    ∀ v, w.new = some v → kept v = true

theorem value_updateRow (hnodup : (cells.map Written.names).Nodup)
    (hproper : ∀ w ∈ cells, w.Proper) {w : Written} (hw : w ∈ cells) {r : FactRow O}
    (hr : r.isAt w.names = true) :
    (updateRow true cells r).value = if sameOpt r.value w.old then w.n else r.value := by
  unfold updateRow
  cases hu : updater true cells r with
  | some w' =>
      have ⟨hw', hold⟩ := (updater_eq_some_iff hnodup hproper).mp hu
      unfold holdsOld holdsAt at hold
      rw [Bool.and_eq_true] at hold
      have heq := eq_of_names hnodup hw' hw (names_eq_of_isAt hold.1 hr)
      rw [heq] at hold ⊢
      rw [if_pos hold.2]
  | none =>
      have hnot : sameOpt r.value w.old ≠ true := by
        intro hsame
        have hsome := (updater_eq_some_iff hnodup hproper).mpr
          ⟨hw, (Bool.and_eq_true _ _).mpr ⟨hr, hsame⟩⟩
        rw [hu] at hsome
        cases hsome
      rw [if_neg hnot]

theorem valuesAt_update (hnodup : (cells.map Written.names).Nodup)
    (hproper : ∀ w ∈ cells, w.Proper) {w : Written} (hw : w ∈ cells) :
    valuesAt w.names (rows.map (updateRow true cells)) =
      (rows.filter (FactRow.isAt w.names)).filterMap fun r =>
        if sameOpt r.value w.old then w.n else r.value := by
  unfold valuesAt
  have hat : FactRow.isAt w.names ∘ updateRow true cells =
      (FactRow.isAt w.names : FactRow O → Bool) := by
    funext r
    unfold Function.comp FactRow.isAt
    rw [updateRow_dims]
  rw [List.filter_map, hat, List.filterMap_map]
  refine List.filterMap_congr fun r hr => ?_
  exact value_updateRow hnodup hproper hw (List.mem_filter.mp hr).2

/-- A cell's own row is inserted where no row stands. -/
theorem valuesAt_insert (hnodup : (cells.map Written.names).Nodup)
    (hproper : ∀ w ∈ cells, w.Proper) (defaults : O) {w : Written} (hw : w ∈ cells)
    (hfinds : Finds rows w) :
    valuesAt w.names (insertRows true cells defaults rows) =
      if rows.any (FactRow.isAt w.names) then [] else w.n.toList := by
  unfold valuesAt insertRows
  simp only [any_isAt_update]
  have hat : ∀ w' ∈ (added true cells rows).filter fun w => !rows.any (FactRow.isAt w.names),
      (FactRow.isAt w.names ∘ fun w' : Written =>
        (⟨w'.names.map some, w'.n, defaults⟩ : FactRow O)) w' = (w' == w) := by
    intro w' hw'
    have hmem : w' ∈ cells := (List.mem_filter.mp (List.mem_filter.mp hw').1).1
    rw [Bool.eq_iff_iff, beq_iff_eq, Function.comp_apply, FactRow.isAt_iff]
    constructor
    · intro heq
      exact eq_of_names hnodup hmem hw ((Option.some_injective String).list_map heq)
    · intro heq
      rw [heq]
  rw [List.filter_map, List.filter_congr hat, List.filter_beq]
  have hcells : cells.Nodup := hnodup.of_map Written.names
  have hadded : ((added true cells rows).filter fun w =>
      !rows.any (FactRow.isAt w.names)).Nodup := (hcells.filter _).filter _
  by_cases hany : rows.any (FactRow.isAt w.names) = true
  · have hnot : w ∉ (added true cells rows).filter fun w =>
        !rows.any (FactRow.isAt w.names) := by
      intro hmem
      have hfree := (List.mem_filter.mp hmem).2
      rw [hany] at hfree
      cases hfree
    rw [List.count_eq_zero_of_not_mem hnot, if_pos hany]
    rfl
  · have hold : w.old = none := by
      rcases finds_iff.mp hfinds with hone | ⟨hold, _⟩
      · exact absurd (any_isAt_of_count (by omega)) hany
      · exact hold
    have hzero : rows.countP (holdsOld w) = 0 := by
      by_contra hne
      exact hany (any_isAt_of_count hne)
    have hmem : w ∈ (added true cells rows).filter fun w =>
        !rows.any (FactRow.isAt w.names) := by
      refine List.mem_filter.mpr ⟨List.mem_filter.mpr ⟨hw, ?_⟩, by simpa using hany⟩
      rw [hits_eq hnodup hproper hw, hzero, (hproper w hw).new hold, hold]
      rfl
    rw [List.count_eq_one_of_mem hadded hmem, if_neg hany, List.replicate_one, List.map_singleton]
    cases w.n <;> simp

/-- One of a list has a property, and so no other. -/
theorem exists_split_of_countP_eq_one {α : Type} {p : α → Bool} {l : List α}
    (h : l.countP p = 1) : ∃ before a later, l = before ++ a :: later ∧ p a = true ∧
      (∀ b ∈ before, p b = false) ∧ ∀ b ∈ later, p b = false := by
  obtain ⟨a, ha⟩ : ∃ a, l.find? p = some a := by
    rw [← Option.isSome_iff_exists, List.find?_isSome]
    exact List.countP_pos_iff.mp (by omega)
  obtain ⟨hpa, before, later, rfl, hbefore⟩ := List.find?_eq_some_iff_append.mp ha
  rw [List.countP_append, List.countP_cons_of_pos hpa] at h
  have hlater : later.countP p = 0 := by omega
  refine ⟨before, a, later, rfl, hpa, fun b hb => ?_, fun b hb => ?_⟩
  · simpa using hbefore b hb
  · simpa using List.countP_eq_zero.mp hlater b hb

/-- The new value alone reads back, if JSON has it. -/
theorem forall₂_reads_iff {w : Written} (hproper : w.Proper) {before later : List Value} :
    List.Forall₂ Reads (before ++ w.n.toList ++ later) w.new.toList ↔
      before = [] ∧ later = [] ∧ ∀ v, w.new = some v → kept v = true := by
  cases hnew : w.new with
  | none =>
      have hn : w.n = none := by
        have hjson := hproper.n
        rw [hnew] at hjson
        exact (Except.ok.inj hjson).symm
      rw [hn]
      simp
  | some v =>
      have hjson := hproper.n
      rw [hnew] at hjson
      have hsome := exists_valueToJson hjson
      rw [Option.toList_some, List.forall₂_cons_right_iff]
      constructor
      · rintro ⟨stored, rest, hreads, hrest, heq⟩
        have hkept := kept_of_reads hreads
        rw [hkept] at hsome
        obtain ⟨n, hn⟩ := Option.isSome_iff_exists.mp hsome
        have hlen := congrArg List.length heq
        rw [List.forall₂_nil_right_iff.mp hrest] at hlen
        simp only [hn, List.length_append, Option.toList_some, List.length_cons,
          List.length_nil] at hlen
        refine ⟨List.length_eq_zero_iff.mp (by omega), List.length_eq_zero_iff.mp (by omega),
          fun u hu => ?_⟩
        rw [← Option.some.inj hu]
        exact hkept
      · rintro ⟨rfl, rfl, hkept⟩
        rw [hkept v rfl] at hsome
        obtain ⟨n, hn⟩ := Option.isSome_iff_exists.mp hsome
        rw [hn] at hjson ⊢
        exact ⟨n, [], reads_of_valueToJson hjson, .nil, rfl⟩

/-- A written cell reads back when no other row at its address has a value. -/
theorem readsBack_iff (hnodup : (cells.map Written.names).Nodup)
    (hproper : ∀ w ∈ cells, w.Proper) (defaults : O) {w : Written} (hw : w ∈ cells)
    (hfinds : Finds rows w) :
    ReadsBack (writeRows true cells defaults rows) w ↔ Clean rows w := by
  have hvalues : valuesAt w.names (writeRows true cells defaults rows) =
      ((rows.filter (FactRow.isAt w.names)).filterMap fun r =>
        if sameOpt r.value w.old then w.n else r.value) ++
          if rows.any (FactRow.isAt w.names) then [] else w.n.toList := by
    rw [← valuesAt_update hnodup hproper hw, ← valuesAt_insert hnodup hproper defaults hw hfinds]
    unfold valuesAt writeRows
    rw [List.filter_append, List.filterMap_append]
  unfold ReadsBack Clean
  rw [hvalues]
  have hw' := hproper w hw
  by_cases hany : rows.any (FactRow.isAt w.names) = true
  · rw [if_pos hany, List.append_nil]
    have hone : (rows.filter (FactRow.isAt w.names)).countP
        (fun r => sameOpt r.value w.old) = 1 := by
      rcases finds_iff.mp hfinds with hone | ⟨_, hnone⟩
      · rw [List.countP_filter, ← hone]
        refine List.countP_congr fun r _ => ?_
        unfold holdsOld holdsAt
        rw [Bool.and_comm]
      · rw [hany] at hnone
        cases hnone
    obtain ⟨before, r, later, hsplit, hr, hbefore, hlater⟩ := exists_split_of_countP_eq_one hone
    have hother : ∀ l : List (FactRow O), (∀ x ∈ l, sameOpt x.value w.old = false) →
        l.filterMap (fun x => if sameOpt x.value w.old then w.n else x.value) =
          l.filterMap FactRow.value := by
      intro l hl
      refine List.filterMap_congr fun x hx => ?_
      rw [hl x hx]
      rfl
    have hmiddle : (before ++ r :: later).filterMap
        (fun x => if sameOpt x.value w.old then w.n else x.value) =
          before.filterMap FactRow.value ++ w.n.toList ++ later.filterMap FactRow.value := by
      rw [List.filterMap_append, List.filterMap_cons, hother before hbefore, hother later hlater,
        if_pos hr]
      cases w.n with
      | none => rw [Option.toList_none, List.append_nil]
      | some n => rw [Option.toList_some, List.append_assoc]; rfl
    rw [hsplit, hmiddle, forall₂_reads_iff hw']
    have hmem : ∀ x, x ∈ before ++ r :: later ↔ x ∈ rows ∧ x.isAt w.names = true := by
      intro x
      rw [← hsplit, List.mem_filter]
    rw [List.filterMap_eq_nil_iff, List.filterMap_eq_nil_iff]
    constructor
    · intro ⟨hb, hl, hkept⟩
      refine ⟨fun x hx hat => ?_, hkept⟩
      rcases List.mem_append.mp ((hmem x).mpr ⟨hx, hat⟩) with hxb | hxl
      · exact .inl (hb x hxb)
      · rcases List.mem_cons.mp hxl with rfl | hxl
        · exact .inr hr
        · exact .inl (hl x hxl)
    · intro ⟨hclean, hkept⟩
      refine ⟨fun x hx => ?_, fun x hx => ?_, hkept⟩
      · have hin := (hmem x).mp (List.mem_append_left _ hx)
        rcases hclean x hin.1 hin.2 with hnone | hsame
        · exact hnone
        · rw [hbefore x hx] at hsame
          cases hsame
      · have hin := (hmem x).mp (List.mem_append_right _ (List.mem_cons_of_mem r hx))
        rcases hclean x hin.1 hin.2 with hnone | hsame
        · exact hnone
        · rw [hlater x hx] at hsame
          cases hsame
  · have hnone : rows.filter (FactRow.isAt w.names) = [] := by
      rw [List.filter_eq_nil_iff]
      intro x hx hat
      exact hany (List.any_eq_true.mpr ⟨x, hx, hat⟩)
    rw [if_neg hany, hnone, List.filterMap_nil, List.nil_append]
    have hreads : List.Forall₂ Reads ([] ++ w.n.toList ++ []) w.new.toList ↔ _ :=
      forall₂_reads_iff hw'
    rw [List.nil_append, List.append_nil] at hreads
    rw [hreads]
    simp only [true_and]
    refine (and_iff_right fun x hx hat => ?_).symm
    exact absurd (List.any_eq_true.mpr ⟨x, hx, hat⟩) hany

/-! ## What a save leaves -/

/-- A save wrote the cells alone: each row it changed held a cell's loaded value
and no other row at its address did, each row it inserted is an added cell's
where none stood, and each cell reads back. -/
structure Saved (cells : List Written) (defaults : O) (before after : List (FactRow O)) :
    Prop where
  rows : ∃ (change : FactRow O → FactRow O) (inserted : List (FactRow O)),
    after = before.map change ++ inserted ∧
    (∀ r ∈ before, change r = r ∨ ∃ w ∈ cells, holdsOld w r = true ∧
      change r = { r with value := w.n } ∧ before.countP (holdsOld w) = 1) ∧
    (∀ r ∈ inserted, ∃ w ∈ cells, w.old = none ∧ r = ⟨w.names.map some, w.n, defaults⟩ ∧
      before.any (FactRow.isAt w.names) = false) ∧
    (inserted.map FactRow.dims).Nodup
  reads : ∀ w ∈ cells, ReadsBack after w

theorem rows_writeRows (hnodup : (cells.map Written.names).Nodup)
    (hproper : ∀ w ∈ cells, w.Proper) (defaults : O) (hfinds : ∀ w ∈ cells, Finds rows w) :
    ∃ (change : FactRow O → FactRow O) (inserted : List (FactRow O)),
      writeRows true cells defaults rows = rows.map change ++ inserted ∧
      (∀ r ∈ rows, change r = r ∨ ∃ w ∈ cells, holdsOld w r = true ∧
        change r = { r with value := w.n } ∧ rows.countP (holdsOld w) = 1) ∧
      (∀ r ∈ inserted, ∃ w ∈ cells, w.old = none ∧ r = ⟨w.names.map some, w.n, defaults⟩ ∧
        rows.any (FactRow.isAt w.names) = false) ∧
      (inserted.map FactRow.dims).Nodup := by
  refine ⟨updateRow true cells, insertRows true cells defaults rows, rfl, fun r hr => ?_,
    fun r hr => ?_, ?_⟩
  · unfold updateRow
    cases hu : updater true cells r with
    | none => exact .inl rfl
    | some w =>
        have ⟨hw, hold⟩ := (updater_eq_some_iff hnodup hproper).mp hu
        refine .inr ⟨w, hw, hold, rfl, ?_⟩
        rcases finds_iff.mp (hfinds w hw) with hone | ⟨_, hnone⟩
        · exact hone
        · unfold holdsOld holdsAt at hold
          rw [Bool.and_eq_true] at hold
          rw [List.any_eq_true.mpr ⟨r, hr, hold.1⟩] at hnone
          cases hnone
  · unfold insertRows at hr
    obtain ⟨w, hmem, rfl⟩ := List.mem_map.mp hr
    have ⟨hadded, hfree⟩ := List.mem_filter.mp hmem
    have ⟨hw, hcond⟩ := List.mem_filter.mp hadded
    rw [any_isAt_update] at hfree
    simp only [Bool.not_true, Bool.false_or, Bool.and_eq_true, Option.isNone_iff_eq_none] at hcond
    exact ⟨w, hw, hcond.2, rfl, by simpa using hfree⟩
  · unfold insertRows
    rw [List.map_map]
    have hdims : (FactRow.dims ∘ fun w : Written =>
        (⟨w.names.map some, w.n, defaults⟩ : FactRow O)) = List.map some ∘ Written.names := rfl
    rw [hdims, ← List.map_map]
    refine List.Nodup.map ((Option.some_injective String).list_map) ?_
    exact hnodup.sublist ((List.filter_sublist.trans List.filter_sublist).map Written.names)

/-- Where each cell finds its row, a save is right when no other row at a cell's
address has a value. -/
theorem saved_iff (hnodup : (cells.map Written.names).Nodup) (hproper : ∀ w ∈ cells, w.Proper)
    (defaults : O) (hfinds : ∀ w ∈ cells, Finds rows w) :
    Saved cells defaults rows (writeRows true cells defaults rows) ↔ ∀ w ∈ cells, Clean rows w := by
  constructor
  · intro h w hw
    exact (readsBack_iff hnodup hproper defaults hw (hfinds w hw)).mp (h.reads w hw)
  · intro h
    refine ⟨rows_writeRows hnodup hproper defaults hfinds, fun w hw => ?_⟩
    exact (readsBack_iff hnodup hproper defaults hw (hfinds w hw)).mpr (h w hw)

end Statements

end Improv.StoragePg
