import Improv.Lib.SortedMap
/-!
# Batches of writes

A batch sets or clears keys of a map in order and returns what each write
replaced.  Writing the replaced values back, in the same order, leaves at each
key the value it held before the batch's last write to it: the batch is taken
back exactly where no key written twice held another value in between.
-/

namespace Improv.Lib

namespace SortedMap

variable {κ α : Type*} [LinearOrder κ]

/-- A key set, or cleared. -/
def write (m : SortedMap κ α) (k : κ) : Option α → SortedMap κ α
  | some a => m.insert k a
  | none => m.erase k

theorem get?_write (m : SortedMap κ α) (k : κ) (v : Option α) (j : κ) :
    (m.write k v).get? j = if j = k then v else m.get? j := by
  cases v with
  | none => exact get?_erase m k j
  | some a => exact get?_insert m k a j

/-- The writes in order: the map after them, and what each replaced. -/
def writeAll (m : SortedMap κ α) : List (κ × Option α) → SortedMap κ α × List (κ × Option α)
  | [] => (m, [])
  | w :: ws =>
    let rest := (m.write w.1 w.2).writeAll ws
    (rest.1, (w.1, m.get? w.1) :: rest.2)

end SortedMap

namespace WriteBatch

open SortedMap

variable {κ α : Type*} [LinearOrder κ]

/-- The values a batch gives a key, in order. -/
def valuesOf (ws : List (κ × Option α)) (k : κ) : List (Option α) :=
  ws.filterMap fun w => if w.1 = k then some w.2 else none

/-- The value a batch leaves a key with, where it names it. -/
def lastValue (ws : List (κ × Option α)) (k : κ) : Option (Option α) :=
  (valuesOf ws k).getLast?

/-- The value a batch gives a key before its last write to it. -/
def lastButOne (ws : List (κ × Option α)) (k : κ) : Option (Option α) :=
  (valuesOf ws k).dropLast.getLast?

@[simp] theorem valuesOf_nil (k : κ) : valuesOf ([] : List (κ × Option α)) k = [] := rfl

theorem valuesOf_cons (w : κ × Option α) (ws : List (κ × Option α)) (k : κ) :
    valuesOf (w :: ws) k = if w.1 = k then w.2 :: valuesOf ws k else valuesOf ws k := by
  by_cases h : w.1 = k <;> simp [valuesOf, h]

theorem valuesOf_eq_nil_iff {ws : List (κ × Option α)} {k : κ} :
    valuesOf ws k = [] ↔ k ∉ ws.map (·.1) := by
  induction ws with
  | nil => simp
  | cons w ws ih =>
      rw [valuesOf_cons]
      by_cases h : w.1 = k
      · simp [h]
      · rw [if_neg h, ih, List.map_cons, List.mem_cons, not_or]
        exact ⟨fun hws => ⟨fun hk => h hk.symm, hws⟩, fun hws => hws.2⟩

theorem valuesOf_append (ws vs : List (κ × Option α)) (k : κ) :
    valuesOf (ws ++ vs) k = valuesOf ws k ++ valuesOf vs k :=
  List.filterMap_append

/-- What a later batch gives a key counts. -/
theorem lastValue_append (ws vs : List (κ × Option α)) (k : κ) :
    lastValue (ws ++ vs) k = (lastValue vs k).or (lastValue ws k) := by
  rw [lastValue, valuesOf_append, List.getLast?_append]
  rfl

theorem lastValue_eq_none_iff {ws : List (κ × Option α)} {k : κ} :
    lastValue ws k = none ↔ k ∉ ws.map (·.1) := by
  rw [lastValue, List.getLast?_eq_none_iff, valuesOf_eq_nil_iff]

theorem mem_of_lastValue {ws : List (κ × Option α)} {k : κ} {v : Option α}
    (h : lastValue ws k = some v) : (k, v) ∈ ws := by
  obtain ⟨w, hw, hv⟩ := List.mem_filterMap.mp (List.mem_of_getLast? h)
  by_cases hk : w.1 = k
  · rw [if_pos hk] at hv
    rw [← hk, ← Option.some.inj hv]
    exact hw
  · rw [if_neg hk] at hv
    cases hv

/-- Of batches joined, the one that alone names a key gives its value. -/
theorem lastValue_flatMap_of_mem {ι : Type*} {f : ι → List (κ × Option α)} {is : List ι}
    (his : is.Nodup) {i : ι} (hi : i ∈ is) {k : κ}
    (hothers : ∀ j ∈ is, j ≠ i → lastValue (f j) k = none) :
    lastValue (is.flatMap f) k = lastValue (f i) k := by
  induction is with
  | nil => cases hi
  | cons j is ih =>
      rw [List.nodup_cons] at his
      rw [List.flatMap_cons, lastValue_append]
      by_cases hj : j = i
      · subst hj
        have hrest : lastValue (is.flatMap f) k = none := by
          rw [lastValue_eq_none_iff, List.map_flatMap, List.mem_flatMap]
          intro h
          obtain ⟨l, hl, hmem⟩ := h
          have hne : l ≠ j := fun heq => his.1 (heq ▸ hl)
          exact lastValue_eq_none_iff.mp (hothers l (List.mem_cons_of_mem j hl) hne) hmem
        rw [hrest, Option.none_or]
      · have hmem := (List.mem_cons.mp hi).resolve_left (Ne.symm hj)
        rw [ih his.2 hmem fun l hl => hothers l (List.mem_cons_of_mem j hl),
          hothers j List.mem_cons_self hj, Option.or_none]

/-- A batch over other keys and values gives each what it gave before. -/
theorem lastValue_map {ι β : Type*} [LinearOrder ι] {f : κ → ι} (hf : Function.Injective f)
    (g : Option α → Option β) (ws : List (κ × Option α)) (k : κ) :
    lastValue (ws.map fun w => (f w.1, g w.2)) (f k) = (lastValue ws k).map g := by
  have hvalues : valuesOf (ws.map fun w => (f w.1, g w.2)) (f k) = (valuesOf ws k).map g := by
    induction ws with
    | nil => rfl
    | cons w ws ih =>
        rw [List.map_cons, valuesOf_cons, valuesOf_cons, ih]
        by_cases h : w.1 = k
        · rw [if_pos (congrArg f h), if_pos h]
          rfl
        · rw [if_neg fun hk => h (hf hk), if_neg h]
  rw [lastValue, hvalues, List.getLast?_map]
  rfl

/-- A batch without the keys left out gives the others what it gave them. -/
theorem lastValue_filter (keep : κ → Bool) (ws : List (κ × Option α)) (k : κ) :
    lastValue (ws.filter fun w => keep w.1) k =
      if keep k then lastValue ws k else none := by
  have hvalues : valuesOf (ws.filter fun w => keep w.1) k =
      if keep k then valuesOf ws k else [] := by
    induction ws with
    | nil => simp
    | cons w ws ih =>
        rw [List.filter_cons, valuesOf_cons]
        by_cases hw : w.1 = k
        · subst hw
          split
          · rename_i hkeep
            rw [valuesOf_cons, if_pos rfl, ih, if_pos hkeep, if_pos rfl]
          · rename_i hkeep
            rw [ih, if_neg hkeep]
        · rw [if_neg hw]
          split
          · rw [valuesOf_cons, if_neg hw, ih]
          · exact ih
  rw [lastValue, hvalues]
  split <;> rfl

/-- The last value a batch gives each key, put into a map of them. -/
theorem get?_foldl_lastValue (ws : List (κ × Option α)) (m : SortedMap κ (Option α)) (k : κ) :
    (ws.foldl (fun m w => m.insert w.1 w.2) m).get? k =
      (lastValue ws k).or (m.get? k) := by
  induction ws generalizing m with
  | nil => rfl
  | cons w ws ih =>
      rw [List.foldl_cons, ih, get?_insert, lastValue, lastValue, valuesOf_cons]
      by_cases h : w.1 = k
      · rw [if_pos h, if_pos h.symm, List.getLast?_cons]
        cases (valuesOf ws k).getLast? <;> rfl
      · rw [if_neg h, if_neg fun hk => h hk.symm]

/-- A batch's last value at each key it names, and nothing else, is written. -/
theorem get?_writeAll (m : SortedMap κ α) (ws : List (κ × Option α)) (k : κ) :
    (m.writeAll ws).1.get? k = (lastValue ws k).getD (m.get? k) := by
  induction ws generalizing m with
  | nil => rfl
  | cons w ws ih =>
      rw [writeAll, ih, get?_write, lastValue, lastValue, valuesOf_cons]
      by_cases h : w.1 = k
      · rw [if_pos h, if_pos h.symm, List.getLast?_cons]
        cases (valuesOf ws k).getLast? <;> rfl
      · rw [if_neg h, if_neg fun hk => h hk.symm]

/-- What a batch replaced at a key: its value before, then each value the batch
gave it but the last. -/
theorem valuesOf_replaced (m : SortedMap κ α) (ws : List (κ × Option α)) (k : κ) :
    valuesOf (m.writeAll ws).2 k =
      if valuesOf ws k = [] then [] else m.get? k :: (valuesOf ws k).dropLast := by
  induction ws generalizing m with
  | nil => rfl
  | cons w ws ih =>
      rw [writeAll, valuesOf_cons, ih, valuesOf_cons, get?_write]
      by_cases h : w.1 = k
      · subst h
        simp only [if_true, List.cons_ne_nil, if_false]
        split
        · rename_i hnil
          rw [hnil]
          rfl
        · rename_i hcons
          rw [List.dropLast_cons_of_ne_nil hcons]
      · have hk : ¬k = w.1 := fun hk => h hk.symm
        simp only [if_neg h, if_neg hk]

/-- The map once a batch is written and what it replaced is written back, in the
order of the batch. -/
def rolledBack (m : SortedMap κ α) (ws : List (κ × Option α)) : SortedMap κ α :=
  ((m.writeAll ws).1.writeAll (m.writeAll ws).2).1

theorem lastValue_replaced (m : SortedMap κ α) (ws : List (κ × Option α)) (k : κ) :
    lastValue (m.writeAll ws).2 k =
      if valuesOf ws k = [] then none else some ((lastButOne ws k).getD (m.get? k)) := by
  rw [lastValue, valuesOf_replaced]
  split
  · rfl
  · rw [List.getLast?_cons]
    rfl

/-- A key rolled back holds what the batch gave it last but one. -/
theorem get?_rolledBack (m : SortedMap κ α) (ws : List (κ × Option α)) (k : κ) :
    (rolledBack m ws).get? k = (lastButOne ws k).getD (m.get? k) := by
  rw [rolledBack, get?_writeAll, lastValue_replaced, get?_writeAll]
  split
  · rename_i hnil
    rw [lastValue, lastButOne, hnil]
    rfl
  · rfl

/-- A batch is taken back at a key it names more than once only where the value
it gives the key last but one is the one the key held before. -/
def TakenBack (m : SortedMap κ α) (ws : List (κ × Option α)) : Prop :=
  ∀ k v, lastButOne ws k = some v → v = m.get? k

theorem rolledBack_eq_iff (m : SortedMap κ α) (ws : List (κ × Option α)) :
    rolledBack m ws = m ↔ TakenBack m ws := by
  constructor
  · intro h k v hv
    have hk := get?_rolledBack m ws k
    rw [h, hv] at hk
    exact hk.symm
  · intro h
    ext1 k
    rw [get?_rolledBack]
    cases hv : lastButOne ws k with
    | none => rfl
    | some v => exact h k v hv

/-- A batch that names no key twice is taken back. -/
theorem takenBack_of_nodup (m : SortedMap κ α) {ws : List (κ × Option α)}
    (h : (ws.map (·.1)).Nodup) : TakenBack m ws := by
  intro k v hv
  have hshort : (valuesOf ws k).length ≤ 1 := by
    clear hv
    induction ws with
    | nil => simp
    | cons w ws ih =>
        obtain ⟨hw, hws⟩ := List.nodup_cons.mp h
        rw [valuesOf_cons]
        by_cases hk : w.1 = k
        · subst hk
          rw [if_pos rfl, valuesOf_eq_nil_iff.mpr hw]
          simp
        · rw [if_neg hk]
          exact ih hws
  have hnil : (valuesOf ws k).dropLast = [] := by
    rw [← List.length_eq_zero_iff, List.length_dropLast]
    omega
  rw [lastButOne, hnil] at hv
  simp at hv

/-- A batch writes the same over what it was rolled back to. -/
theorem writeAll_rolledBack (m : SortedMap κ α) (ws : List (κ × Option α)) :
    ((rolledBack m ws).writeAll ws).1 = (m.writeAll ws).1 := by
  ext1 k
  rw [get?_writeAll, get?_writeAll, get?_rolledBack]
  cases hv : lastValue ws k with
  | some v => rfl
  | none =>
      rw [lastValue, List.getLast?_eq_none_iff] at hv
      rw [lastButOne, hv]
      rfl

/-- Rolling back again changes nothing more. -/
theorem rolledBack_rolledBack (m : SortedMap κ α) (ws : List (κ × Option α)) :
    rolledBack (rolledBack m ws) ws = rolledBack m ws := by
  ext1 k
  rw [get?_rolledBack, get?_rolledBack]
  cases lastButOne ws k <;> rfl

end WriteBatch

end Improv.Lib
