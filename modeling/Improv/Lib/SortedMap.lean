import Mathlib.Data.List.Lex
import Mathlib.Data.Prod.Lex
import Mathlib.Order.Basic
import Mathlib.Tactic.Common
/-!
# Maps with ordered keys

A finite map as a list of entries in strictly increasing key order.  The order
is a field, so a map has at most one entry for a key, iterates in key order by
construction, and is determined by what its keys look up.
-/

namespace Improv.Lib

/-- A finite map whose entries stand in strictly increasing key order. -/
structure SortedMap (κ α : Type*) [LinearOrder κ] where
  entries : List (κ × α)
  sorted : entries.Pairwise fun a b => a.1 < b.1
deriving DecidableEq

namespace SortedMap

variable {κ α β : Type*} [LinearOrder κ]

def empty : SortedMap κ α := ⟨[], .nil⟩

def get? (m : SortedMap κ α) (k : κ) : Option α :=
  (m.entries.find? fun p => p.1 = k).map (·.2)

def size (m : SortedMap κ α) : Nat := m.entries.length

def keys (m : SortedMap κ α) : List κ := m.entries.map (·.1)

def values (m : SortedMap κ α) : List α := m.entries.map (·.2)

def contains (m : SortedMap κ α) (k : κ) : Bool := (m.get? k).isSome

@[simp] theorem length_keys (m : SortedMap κ α) : m.keys.length = m.size := by
  simp [keys, size]

theorem mem_entries_of_get? {m : SortedMap κ α} {k : κ} {a : α}
    (h : m.get? k = some a) : (k, a) ∈ m.entries := by
  obtain ⟨p, hp, rfl⟩ := Option.map_eq_some_iff.mp h
  have hkey : p.1 = k := by simpa using List.find?_some hp
  subst hkey
  exact List.mem_of_find?_eq_some hp

theorem mem_keys_of_get? {m : SortedMap κ α} {k : κ} {a : α}
    (h : m.get? k = some a) : k ∈ m.keys :=
  List.mem_map.mpr ⟨(k, a), mem_entries_of_get? h, rfl⟩

/-! ## Entries and look-ups -/

theorem entries_unique {entries : List (κ × α)}
    (hsorted : entries.Pairwise fun a b => a.1 < b.1) {k : κ} {a b : α}
    (ha : (k, a) ∈ entries) (hb : (k, b) ∈ entries) : a = b := by
  induction entries with
  | nil => simp at ha
  | cons p ps ih =>
      obtain ⟨hp, hps⟩ := List.pairwise_cons.mp hsorted
      rcases List.mem_cons.mp ha with ha | ha <;> rcases List.mem_cons.mp hb with hb | hb
      · have hab := ha.trans hb.symm
        simpa using hab
      · have hlt := hp _ hb
        rw [← ha] at hlt
        exact absurd hlt (lt_irrefl k)
      · have hlt := hp _ ha
        rw [← hb] at hlt
        exact absurd hlt (lt_irrefl k)
      · exact ih hps ha hb

theorem get?_eq_some_iff {m : SortedMap κ α} {k : κ} {a : α} :
    m.get? k = some a ↔ (k, a) ∈ m.entries := by
  constructor
  · exact mem_entries_of_get?
  · intro h
    cases hget : m.get? k with
    | some b =>
        have hb := mem_entries_of_get? hget
        rw [entries_unique m.sorted hb h]
    | none =>
        rw [get?, Option.map_eq_none_iff, List.find?_eq_none] at hget
        have hne := hget (k, a) h
        simp at hne

theorem get?_eq_none_iff {m : SortedMap κ α} {k : κ} : m.get? k = none ↔ k ∉ m.keys := by
  simp [get?, keys, List.find?_eq_none]
  grind

theorem mem_keys_iff {m : SortedMap κ α} {k : κ} : k ∈ m.keys ↔ m.contains k = true := by
  rw [contains, Option.isSome_iff_ne_none, Ne, get?_eq_none_iff, not_not]

theorem sorted_keys (m : SortedMap κ α) : m.keys.Pairwise (· < ·) :=
  List.pairwise_map.mpr m.sorted

theorem nodup_keys (m : SortedMap κ α) : m.keys.Nodup :=
  m.sorted_keys.imp fun h => h.ne

theorem mem_values_iff {m : SortedMap κ α} {a : α} :
    a ∈ m.values ↔ ∃ k, m.get? k = some a := by
  simp only [values, List.mem_map, Prod.exists, exists_eq_right, get?_eq_some_iff]

@[simp] theorem get?_empty (k : κ) : (empty : SortedMap κ α).get? k = none := rfl

theorem eq_of_mem_iff {as bs : List (κ × α)}
    (ha : as.Pairwise fun a b => a.1 < b.1) (hb : bs.Pairwise fun a b => a.1 < b.1)
    (h : ∀ p, p ∈ as ↔ p ∈ bs) : as = bs := by
  have hasymm : ∀ a b, a ∈ as → b ∈ bs → a.1 < b.1 → b.1 < a.1 → a = b :=
    fun a b _ _ hab hba => absurd (hab.trans hba) (lt_irrefl _)
  apply List.Perm.eq_of_pairwise hasymm ha hb
  rw [List.perm_ext_iff_of_nodup]
  · exact h
  · exact ha.imp fun hlt heq => by rw [heq] at hlt; exact lt_irrefl _ hlt
  · exact hb.imp fun hlt heq => by rw [heq] at hlt; exact lt_irrefl _ hlt

/-- A map is what its keys look up. -/
@[ext] theorem ext {m n : SortedMap κ α} (h : ∀ k, m.get? k = n.get? k) : m = n := by
  obtain ⟨as, ha⟩ := m
  obtain ⟨bs, hb⟩ := n
  have hmem : as = bs := by
    apply eq_of_mem_iff ha hb
    rintro ⟨k, a⟩
    have hk := h k
    have hl := get?_eq_some_iff (m := ⟨as, ha⟩) (k := k) (a := a)
    have hr := get?_eq_some_iff (m := ⟨bs, hb⟩) (k := k) (a := a)
    simp only at hl hr
    rw [← hl, ← hr, hk]
  subst hmem
  rfl

/-! ## Setting and clearing a key -/

def insertEntry (k : κ) (a : α) : List (κ × α) → List (κ × α)
  | [] => [(k, a)]
  | p :: ps =>
    if k < p.1 then (k, a) :: p :: ps
    else if k = p.1 then (k, a) :: ps
    else p :: insertEntry k a ps

theorem mem_insertEntry {k : κ} {a : α} {ps : List (κ × α)}
    (hsorted : ps.Pairwise fun a b => a.1 < b.1) (p : κ × α) :
    p ∈ insertEntry k a ps ↔ p = (k, a) ∨ p.1 ≠ k ∧ p ∈ ps := by
  induction ps with
  | nil => simp [insertEntry]
  | cons q qs ih =>
      obtain ⟨hq, hqs⟩ := List.pairwise_cons.mp hsorted
      rw [insertEntry]
      split
      · rename_i hlt
        have hne : ∀ x ∈ q :: qs, x.1 ≠ k := by
          intro x hx heq
          rcases List.mem_cons.mp hx with rfl | hx
          · exact absurd hlt (by rw [heq]; exact lt_irrefl k)
          · exact absurd (hlt.trans (hq x hx)) (by rw [heq]; exact lt_irrefl k)
        rw [List.mem_cons]
        exact or_congr_right ⟨fun h => ⟨hne p h, h⟩, fun h => h.2⟩
      · split
        · rename_i heq
          have hne : ∀ x ∈ qs, x.1 ≠ k := by
            intro x hx hxk
            exact absurd (hq x hx) (by rw [hxk, heq]; exact lt_irrefl _)
          simp only [List.mem_cons]
          constructor
          · rintro (rfl | h)
            · exact .inl rfl
            · exact .inr ⟨hne p h, .inr h⟩
          · rintro (rfl | ⟨hk, rfl | h⟩)
            · exact .inl rfl
            · exact absurd heq.symm hk
            · exact .inr h
        · rename_i hlt hne
          simp only [List.mem_cons, ih hqs]
          constructor
          · rintro (rfl | rfl | ⟨hk, h⟩)
            · exact .inr ⟨fun h => hne h.symm, .inl rfl⟩
            · exact .inl rfl
            · exact .inr ⟨hk, .inr h⟩
          · rintro (rfl | ⟨hk, rfl | h⟩)
            · exact .inr (.inl rfl)
            · exact .inl rfl
            · exact .inr (.inr ⟨hk, h⟩)

theorem sorted_insertEntry {k : κ} {a : α} {ps : List (κ × α)}
    (hsorted : ps.Pairwise fun a b => a.1 < b.1) :
    (insertEntry k a ps).Pairwise fun a b => a.1 < b.1 := by
  induction ps with
  | nil => simp [insertEntry]
  | cons q qs ih =>
      obtain ⟨hq, hqs⟩ := List.pairwise_cons.mp hsorted
      rw [insertEntry]
      split
      · rename_i hlt
        refine List.pairwise_cons.mpr ⟨?_, hsorted⟩
        intro x hx
        rcases List.mem_cons.mp hx with rfl | hx
        · exact hlt
        · exact hlt.trans (hq x hx)
      · split
        · rename_i heq
          refine List.pairwise_cons.mpr ⟨?_, hqs⟩
          intro x hx
          simpa [heq] using hq x hx
        · rename_i hlt hne
          refine List.pairwise_cons.mpr ⟨?_, ih hqs⟩
          intro x hx
          rcases (mem_insertEntry hqs x).mp hx with rfl | ⟨_, hx⟩
          · exact lt_of_le_of_ne (not_lt.mp hlt) (fun h => hne h.symm)
          · exact hq x hx

/-- The map with `k` set to `a`. -/
def insert (m : SortedMap κ α) (k : κ) (a : α) : SortedMap κ α :=
  ⟨insertEntry k a m.entries, sorted_insertEntry m.sorted⟩

/-- The entries that pass `keep`. -/
def filter (m : SortedMap κ α) (keep : κ → α → Bool) : SortedMap κ α :=
  ⟨m.entries.filter fun p => keep p.1 p.2, m.sorted.filter _⟩

/-- The map without `k`. -/
def erase (m : SortedMap κ α) (k : κ) : SortedMap κ α :=
  m.filter fun j _ => j ≠ k

/-- The map with `f` applied to every value. -/
def map (m : SortedMap κ α) (f : κ → α → β) : SortedMap κ β :=
  ⟨m.entries.map fun p => (p.1, f p.1 p.2), List.pairwise_map.mpr m.sorted⟩

/-- The map with `f` applied to every value, without the keys it gives none. -/
def filterMap (m : SortedMap κ α) (f : κ → α → Option β) : SortedMap κ β :=
  ⟨m.entries.filterMap fun p => (f p.1 p.2).map (p.1, ·), by
    refine List.Pairwise.filterMap _ ?_ m.sorted
    intro a b hab x hx y hy
    obtain ⟨_, _, rfl⟩ := Option.map_eq_some_iff.mp hx
    obtain ⟨_, _, rfl⟩ := Option.map_eq_some_iff.mp hy
    exact hab⟩

/-- The entries in order, a later one of a key replacing the earlier. -/
def ofList (ps : List (κ × α)) : SortedMap κ α :=
  ps.foldl (fun m p => m.insert p.1 p.2) empty

theorem get?_insert (m : SortedMap κ α) (k : κ) (a : α) (j : κ) :
    (m.insert k a).get? j = if j = k then some a else m.get? j := by
  apply Option.ext
  intro b
  rw [get?_eq_some_iff]
  change (j, b) ∈ insertEntry k a m.entries ↔ _
  rw [mem_insertEntry m.sorted]
  by_cases hjk : j = k
  · simp [hjk, eq_comm]
  · simp [hjk, get?_eq_some_iff]

theorem get?_filter (m : SortedMap κ α) (keep : κ → α → Bool) (k : κ) :
    (m.filter keep).get? k = (m.get? k).filter (keep k) := by
  apply Option.ext
  intro b
  simp [get?_eq_some_iff, filter, Option.filter_eq_some_iff]

theorem get?_erase (m : SortedMap κ α) (k j : κ) :
    (m.erase k).get? j = if j = k then none else m.get? j := by
  rw [erase, get?_filter]
  by_cases hjk : j = k
  · simp [hjk]
  · cases m.get? j <;> simp [hjk]

theorem get?_map (m : SortedMap κ α) (f : κ → α → β) (k : κ) :
    (m.map f).get? k = (m.get? k).map (f k) := by
  apply Option.ext
  intro b
  rw [Option.map_eq_some_iff]
  simp only [get?_eq_some_iff, map, List.mem_map, Prod.mk.injEq, Prod.exists]
  constructor
  · rintro ⟨j, a, h, rfl, rfl⟩
    exact ⟨a, h, rfl⟩
  · rintro ⟨a, h, rfl⟩
    exact ⟨k, a, h, rfl, rfl⟩

theorem get?_filterMap (m : SortedMap κ α) (f : κ → α → Option β) (k : κ) :
    (m.filterMap f).get? k = (m.get? k).bind (f k) := by
  apply Option.ext
  intro b
  rw [Option.bind_eq_some_iff]
  simp only [get?_eq_some_iff, filterMap, List.mem_filterMap, Option.map_eq_some_iff,
    Prod.mk.injEq, Prod.exists]
  constructor
  · rintro ⟨j, a, h, c, hc, rfl, rfl⟩
    exact ⟨a, h, hc⟩
  · rintro ⟨a, h, hb⟩
    exact ⟨k, a, h, b, hb, rfl, rfl⟩

@[simp] theorem get?_insert_self (m : SortedMap κ α) (k : κ) (a : α) :
    (m.insert k a).get? k = some a := by
  rw [get?_insert, if_pos rfl]

@[simp] theorem get?_erase_self (m : SortedMap κ α) (k : κ) : (m.erase k).get? k = none := by
  rw [get?_erase, if_pos rfl]

theorem mem_keys_insert (m : SortedMap κ α) (k : κ) (a : α) (j : κ) :
    j ∈ (m.insert k a).keys ↔ j = k ∨ j ∈ m.keys := by
  rw [mem_keys_iff, mem_keys_iff, contains, contains, get?_insert]
  by_cases hjk : j = k <;> simp [hjk]

theorem contains_insert (m : SortedMap κ α) (k : κ) (a : α) (j : κ) :
    (m.insert k a).contains j = true ↔ j = k ∨ m.contains j = true := by
  rw [contains, contains, get?_insert]
  by_cases h : j = k <;> simp [h]

theorem contains_erase (m : SortedMap κ α) (k j : κ) :
    (m.erase k).contains j = true ↔ j ≠ k ∧ m.contains j = true := by
  rw [contains, contains, get?_erase]
  by_cases h : j = k <;> simp [h]

theorem contains_map {β : Type*} (m : SortedMap κ α) (f : κ → α → β) (j : κ) :
    (m.map f).contains j = m.contains j := by
  rw [contains, contains, get?_map, Option.isSome_map]

theorem contains_filter (m : SortedMap κ α) (keep : κ → α → Bool) (j : κ) :
    (m.filter keep).contains j = (m.get? j).any (keep j) := by
  rw [contains, get?_filter]
  cases m.get? j with
  | none => rfl
  | some a => by_cases h : keep j a = true <;> simp [Option.filter, h]

theorem contains_of_get? {m : SortedMap κ α} {k : κ} {a : α} (h : m.get? k = some a) :
    m.contains k = true := by
  rw [contains, h]
  rfl

/-- A key set again is no new key. -/
theorem contains_insert_of_get? {m : SortedMap κ α} {k : κ} {b : α} (h : m.get? k = some b)
    (a : α) (j : κ) : (m.insert k a).contains j = m.contains j := by
  rw [Bool.eq_iff_iff, contains_insert]
  constructor
  · rintro (rfl | hj)
    · exact contains_of_get? h
    · exact hj
  · exact .inr

theorem get?_foldl_insert {ps : List (κ × α)} (hps : ps.Pairwise fun a b => a.1 < b.1)
    (m : SortedMap κ α) (k : κ) (a : α) :
    (ps.foldl (fun m p => m.insert p.1 p.2) m).get? k = some a ↔
      (k, a) ∈ ps ∨ k ∉ ps.map (·.1) ∧ m.get? k = some a := by
  induction ps generalizing m with
  | nil => simp
  | cons p ps ih =>
      obtain ⟨hp, hps⟩ := List.pairwise_cons.mp hps
      rw [List.foldl_cons, ih hps, get?_insert]
      by_cases hk : k = p.1
      · subst hk
        have hnot : ∀ b, (p.1, b) ∉ ps := fun b hb => lt_irrefl p.1 (hp (p.1, b) hb)
        have hkeys : p.1 ∉ ps.map (·.1) := by
          intro hmem
          obtain ⟨q, hq, hqk⟩ := List.mem_map.mp hmem
          exact hnot q.2 (hqk ▸ hq)
        simp [hnot, hkeys, Prod.ext_iff, eq_comm]
      · simp [hk, Prod.ext_iff]

/-- Entries of different keys are looked up in the map of them. -/
theorem get?_ofList_of_nodup {ps : List (κ × α)} (hps : (ps.map (·.1)).Nodup) {k : κ} {a : α} :
    (ofList ps).get? k = some a ↔ (k, a) ∈ ps := by
  have hfold : ∀ (ps : List (κ × α)) (m : SortedMap κ α), (ps.map (·.1)).Nodup →
      ((ps.foldl (fun m p => m.insert p.1 p.2) m).get? k = some a ↔
        (k, a) ∈ ps ∨ k ∉ ps.map (·.1) ∧ m.get? k = some a) := by
    intro ps
    induction ps with
    | nil => simp
    | cons p ps ih =>
        intro m hps
        rw [List.map_cons, List.nodup_cons] at hps
        rw [List.foldl_cons, ih _ hps.2, get?_insert]
        by_cases hk : k = p.1
        · subst hk
          have hnot : ∀ b, (p.1, b) ∉ ps := fun b hb => hps.1 (List.mem_map.mpr ⟨_, hb, rfl⟩)
          simp [hnot, hps.1, Prod.ext_iff, eq_comm]
        · simp [hk, Prod.ext_iff]
  rw [ofList, hfold ps empty hps]
  simp

/-- A map is the list of its entries, put together again. -/
theorem mem_keys_foldl_insert {ps : List (κ × α)} {m : SortedMap κ α} {k : κ} :
    k ∈ (ps.foldl (fun m p => m.insert p.1 p.2) m).keys ↔ k ∈ m.keys ∨ k ∈ ps.map (·.1) := by
  induction ps generalizing m with
  | nil => simp
  | cons p ps ih =>
      rw [List.foldl_cons, ih, mem_keys_insert, List.map_cons, List.mem_cons]
      tauto

/-- The keys of a list's map are the list's. -/
theorem mem_keys_ofList {ps : List (κ × α)} {k : κ} :
    k ∈ (ofList ps).keys ↔ k ∈ ps.map (·.1) := by
  rw [ofList, mem_keys_foldl_insert]
  simp [empty, keys]

@[simp] theorem ofList_entries (m : SortedMap κ α) : ofList m.entries = m := by
  ext1 k
  apply Option.ext
  intro a
  rw [ofList, get?_foldl_insert m.sorted, get?_empty, ← get?_eq_some_iff]
  simp

/-! ## The order of maps -/

/-- Maps compare as their lists of entries do. -/
instance [LinearOrder α] : LinearOrder (SortedMap κ α) :=
  LinearOrder.lift' (fun m => m.entries.map toLex) <| by
    rintro ⟨as, ha⟩ ⟨bs, hb⟩ h
    have heq : as = bs := toLex.injective.list_map h
    subst heq
    rfl

end SortedMap

end Improv.Lib

/-!
## Grouping

Values gathered by key: each is appended to its key's list, in the order they
come.
-/

namespace Improv.Lib

variable {κ α : Type*} [LinearOrder κ]

namespace SortedMap

/-- A value appended to its key's list. -/
def push (m : SortedMap κ (List α)) (k : κ) (a : α) : SortedMap κ (List α) :=
  m.insert k ((m.get? k).getD [] ++ [a])

/-- A key's list, empty for a key that has none. -/
def group (m : SortedMap κ (List α)) (k : κ) : List α := (m.get? k).getD []

@[simp] theorem group_empty (k : κ) : (empty : SortedMap κ (List α)).group k = [] := rfl

theorem group_of_get? {m : SortedMap κ (List α)} {k : κ} {as : List α} (h : m.get? k = some as) :
    m.group k = as := by
  rw [group, h, Option.getD_some]

theorem group_push (m : SortedMap κ (List α)) (k : κ) (a : α) (j : κ) :
    (m.push k a).group j = m.group j ++ if k = j then [a] else [] := by
  unfold group push
  rw [get?_insert]
  by_cases hj : j = k
  · rw [if_pos hj, if_pos hj.symm, hj, Option.getD_some]
  · rw [if_neg hj, if_neg (Ne.symm hj), List.append_nil]

theorem group_foldl_push (ps : List (κ × α)) (m : SortedMap κ (List α)) (j : κ) :
    (ps.foldl (fun m p => m.push p.1 p.2) m).group j =
      m.group j ++ (ps.filter fun p => p.1 = j).map (·.2) := by
  induction ps generalizing m with
  | nil => simp
  | cons p ps ih =>
      rw [List.foldl_cons, ih, group_push, List.append_assoc]
      by_cases hp : p.1 = j
      · rw [if_pos hp, List.filter_cons_of_pos (by simpa using hp)]
        simp
      · rw [if_neg hp, List.filter_cons_of_neg (by simpa using hp)]
        simp

/-- Every key with a list has something in it. -/
def Nonempty (m : SortedMap κ (List α)) : Prop := ∀ k as, m.get? k = some as → as ≠ []

theorem Nonempty.empty : Nonempty (SortedMap.empty : SortedMap κ (List α)) := by
  intro k as h
  cases h

theorem Nonempty.push {m : SortedMap κ (List α)} (h : Nonempty m) (k : κ) (a : α) :
    Nonempty (m.push k a) := by
  intro j as hj
  unfold SortedMap.push at hj
  rw [get?_insert] at hj
  by_cases hjk : j = k
  · rw [if_pos hjk, Option.some.injEq] at hj
    simp [← hj]
  · rw [if_neg hjk] at hj
    exact h j as hj

theorem Nonempty.foldl_push {m : SortedMap κ (List α)} (h : Nonempty m) (ps : List (κ × α)) :
    Nonempty (ps.foldl (fun m p => m.push p.1 p.2) m) := by
  induction ps generalizing m with
  | nil => exact h
  | cons p ps ih => exact ih (h.push p.1 p.2)

/-- The entries of one key. -/
theorem filter_entries {entries : List (κ × α)}
    (hsorted : entries.Pairwise fun a b => a.1 < b.1) (j : κ) :
    (entries.filter fun p => p.1 = j).map (·.2) =
      ((entries.find? fun p => p.1 = j).map (·.2)).toList := by
  induction entries with
  | nil => rfl
  | cons p ps ih =>
      obtain ⟨hp, hps⟩ := List.pairwise_cons.mp hsorted
      by_cases hpj : p.1 = j
      · have hrest : ps.filter (fun q => q.1 = j) = [] := by
          rw [List.filter_eq_nil_iff]
          intro q hq
          have hlt := hp q hq
          simpa using (hpj ▸ hlt).ne'
        rw [List.filter_cons_of_pos (by simpa using hpj),
          List.find?_cons_of_pos (by simpa using hpj), hrest]
        rfl
      · rw [List.filter_cons_of_neg (by simpa using hpj),
          List.find?_cons_of_neg (by simpa using hpj)]
        exact ih hps

/-- A map whose lists are none of them empty, from its lists. -/
theorem Nonempty.filter_entries {m : SortedMap κ (List α)} (h : Nonempty m) (j : κ) :
    (m.entries.filter fun p => p.1 = j).map (·.2) =
      if m.group j = [] then [] else [m.group j] := by
  rw [SortedMap.filter_entries m.sorted]
  change (m.get? j).toList = _
  cases hj : m.get? j with
  | none => simp [group, hj]
  | some as =>
      rw [group_of_get? hj, if_neg (h j as hj)]
      rfl

end SortedMap

end Improv.Lib
