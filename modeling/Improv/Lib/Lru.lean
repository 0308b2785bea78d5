import Mathlib.Data.List.Dedup
import Mathlib.Data.List.MinMax
import Mathlib.Data.List.Perm.Basic
import Mathlib.Tactic.Common
/-!
# Least recently used

Values kept by key, each with the time of its last use, and no more of them than
fit: the one used least recently makes room.  The keys kept are the ones asked
for last, as many as fit, in whatever order the entries lie.
-/

namespace Improv.Lib

universe u v

/-- A kept value and the time of its last use. -/
structure LruEntry (κ : Type u) (α : Type v) where
  key : κ
  used : Nat
  value : α

/-- At most `capacity` values. -/
structure Lru (κ : Type u) (α : Type v) where
  capacity : Nat
  tick : Nat
  entries : List (LruEntry κ α)

namespace Lru

variable {κ : Type u} {α : Type v}

def empty (capacity : Nat) : Lru κ α := ⟨capacity, 0, []⟩

/-- A property of each kept value and its key. -/
def Each (P : κ → α → Prop) (c : Lru κ α) : Prop := ∀ e ∈ c.entries, P e.key e.value

theorem each_empty {P : κ → α → Prop} (capacity : Nat) : Each P (empty capacity) := by
  intro e he
  cases he

theorem Each.imp {P Q : κ → α → Prop} {c : Lru κ α} (h : Each P c)
    (himp : ∀ k a, P k a → Q k a) : Each Q c :=
  fun e he => himp _ _ (h e he)

variable [DecidableEq κ]

def find? (c : Lru κ α) (k : κ) : Option α := (c.entries.find? (·.key = k)).map LruEntry.value

/-- A use of a key's entry at a time. -/
def touch (k : κ) (t : Nat) (e : LruEntry κ α) : LruEntry κ α :=
  if e.key = k then { e with used := t } else e

/-- The entries after the one used least recently went. -/
def evicted (es : List (LruEntry κ α)) : List (LruEntry κ α) :=
  match es.argmin LruEntry.used with
  | none => es
  | some oldest => es.filter (·.key ≠ oldest.key)

/-- The value of a key, made where none is kept. -/
def get (c : Lru κ α) (k : κ) (make : α) : α × Lru κ α :=
  match c.find? k with
  | some value => (value, ⟨c.capacity, c.tick + 1, c.entries.map (touch k (c.tick + 1))⟩)
  | none =>
      let room := if c.capacity ≤ c.entries.length then evicted c.entries else c.entries
      (make, ⟨c.capacity, c.tick + 1, ⟨k, c.tick + 1, make⟩ :: room⟩)

/-- Keys by their last use, the latest first, after one more use. -/
def use (recent : List κ) (k : κ) : List κ := k :: recent.erase k

/-! ## What holds of every kept value -/

theorem mem_of_mem_evicted {es : List (LruEntry κ α)} {e : LruEntry κ α} (he : e ∈ evicted es) :
    e ∈ es := by
  unfold evicted at he
  split at he
  · exact he
  · exact (List.mem_filter.mp he).1

theorem of_find? {c : Lru κ α} {k : κ} {a : α} (h : c.find? k = some a) :
    ∃ e ∈ c.entries, e.key = k ∧ e.value = a := by
  obtain ⟨e, he, rfl⟩ := Option.map_eq_some_iff.mp h
  have hkey := List.find?_some he
  exact ⟨e, List.mem_of_find?_eq_some he, of_decide_eq_true hkey, rfl⟩

theorem get_of_find? {c : Lru κ α} {k : κ} {a : α} (h : c.find? k = some a) (make : α) :
    (c.get k make).1 = a := by
  unfold get
  rw [h]

theorem get_of_find?_none {c : Lru κ α} {k : κ} (h : c.find? k = none) (make : α) :
    (c.get k make).1 = make := by
  unfold get
  rw [h]

/-- A kept value has the property, and one made with it keeps it of all. -/
theorem Each.get {P : κ → α → Prop} {c : Lru κ α} (h : Each P c) {k : κ} (make : α)
    (hmake : c.find? k = none → P k make) :
    P k (c.get k make).1 ∧ Each P (c.get k make).2 := by
  unfold Lru.get
  split
  · rename_i a hfind
    obtain ⟨e, he, rfl, rfl⟩ := of_find? hfind
    refine ⟨h e he, fun e' he' => ?_⟩
    obtain ⟨e₀, he₀, rfl⟩ := List.mem_map.mp he'
    unfold touch
    split
    · exact h e₀ he₀
    · exact h e₀ he₀
  · rename_i hfind
    refine ⟨hmake hfind, fun e' he' => ?_⟩
    rcases List.mem_cons.mp he' with rfl | hroom
    · exact hmake hfind
    · split at hroom
      · exact h e' (mem_of_mem_evicted hroom)
      · exact h e' hroom

/-! ## Looking up after a use -/

theorem capacity_get (c : Lru κ α) (k : κ) (make : α) : (c.get k make).2.capacity = c.capacity := by
  unfold get
  split
  · rfl
  · rfl

theorem find?_map_touch (es : List (LruEntry κ α)) (k j : κ) (t : Nat) :
    ((es.map (touch k t)).find? (·.key = j)).map LruEntry.value =
      (es.find? (·.key = j)).map LruEntry.value := by
  have htouch : ∀ e : LruEntry κ α, (touch k t e).key = e.key ∧ (touch k t e).value = e.value := by
    intro e
    unfold touch
    split
    · exact ⟨rfl, rfl⟩
    · exact ⟨rfl, rfl⟩
  induction es with
  | nil => rfl
  | cons e es ih =>
      rw [List.map_cons, List.find?_cons, List.find?_cons, (htouch e).1]
      split
      · exact congrArg some (htouch e).2
      · exact ih

theorem find?_get_self (c : Lru κ α) (k : κ) (make : α) :
    (c.get k make).2.find? k = some (c.get k make).1 := by
  unfold get
  split
  · rename_i a hfind
    exact (find?_map_touch _ _ _ _).trans hfind
  · simp [find?]

/-- A use of another key keeps a key's value or drops it. -/
theorem find?_get_of_ne {c : Lru κ α} {k j : κ} (hj : k ≠ j) (make : α) :
    (c.get k make).2.find? j = c.find? j ∨ (c.get k make).2.find? j = none := by
  unfold get
  split
  · exact .inl (find?_map_touch _ _ _ _)
  · unfold find?
    dsimp only
    rw [List.find?_cons_of_neg (by simpa using hj)]
    split
    · unfold evicted
      split
      · exact .inl rfl
      · rename_i oldest _
        rw [List.find?_filter]
        by_cases ho : j = oldest.key
        · subst ho
          right
          simp
        · left
          congr 2
          funext e
          by_cases he : e.key = j
          · simp [he, ho]
          · simp [he]
    · exact .inl rfl

/-! ## Recency -/

theorem nodup_use {recent : List κ} (h : recent.Nodup) (k : κ) : (use recent k).Nodup :=
  List.nodup_cons.mpr ⟨h.not_mem_erase, h.erase k⟩

theorem take_erase_of_mem {l : List κ} {k : κ} {n : Nat} (hk : k ∈ l.take (n + 1)) :
    (l.erase k).take n = (l.take (n + 1)).erase k := by
  induction l generalizing n with
  | nil => cases hk
  | cons x l ih =>
      by_cases hx : x = k
      · subst hx
        simp
      · rw [List.take_succ_cons] at hk ⊢
        have hmem := (List.mem_cons.mp hk).resolve_left (Ne.symm hx)
        cases n with
        | zero => simp at hmem
        | succ n =>
            rw [List.erase_cons_tail (by simpa using hx), List.erase_cons_tail (by simpa using hx),
              List.take_succ_cons, ih hmem]

theorem take_erase_of_not_mem {l : List κ} {k : κ} {n : Nat} (hk : k ∉ l.take n) :
    (l.erase k).take n = l.take n := by
  induction l generalizing n with
  | nil => rfl
  | cons x l ih =>
      cases n with
      | zero => simp
      | succ n =>
          rw [List.take_succ_cons, List.mem_cons, not_or] at hk
          rw [List.erase_cons_tail (by simpa using Ne.symm hk.1), List.take_succ_cons,
            List.take_succ_cons, ih hk.2]

/-- Entries by their last use, the latest first. -/
def Sorted (es : List (LruEntry κ α)) : Prop := es.Pairwise fun e e' => e'.used < e.used

/-- The entries are those of the latest keys, as many as fit. -/
structure Recent (c : Lru κ α) (recent : List κ) : Prop where
  room : 0 < c.capacity
  nodup : recent.Nodup
  entries : ∃ es : List (LruEntry κ α), es.Perm c.entries ∧ Sorted es ∧
    es.map LruEntry.key = recent.take c.capacity ∧ ∀ e ∈ es, e.used ≤ c.tick

omit [DecidableEq κ] in
theorem recent_empty {capacity : Nat} (h : 0 < capacity) :
    Recent (empty capacity : Lru κ α) [] where
  room := h
  nodup := .nil
  entries := ⟨[], .refl _, .nil, by simp, by simp⟩

omit [DecidableEq κ] in
theorem Recent.keys_perm {c : Lru κ α} {recent : List κ} (h : Recent c recent) :
    (c.entries.map LruEntry.key).Perm (recent.take c.capacity) := by
  obtain ⟨es, hperm, _, hkeys, _⟩ := h.entries
  rw [← hkeys]
  exact (hperm.map _).symm

/-- A key is kept when it is among the latest ones that fit. -/
theorem Recent.isSome_find?_iff {c : Lru κ α} {recent : List κ} (h : Recent c recent) {k : κ} :
    (c.find? k).isSome ↔ k ∈ recent.take c.capacity := by
  rw [← h.keys_perm.mem_iff, find?, Option.isSome_map, List.find?_isSome, List.mem_map]
  simp

theorem map_touch_of_not_mem {es : List (LruEntry κ α)} {k : κ} (t : Nat)
    (hk : k ∉ es.map LruEntry.key) : es.map (touch k t) = es := by
  induction es with
  | nil => rfl
  | cons e es ih =>
      rw [List.map_cons, List.mem_cons, not_or] at hk
      rw [List.map_cons, ih hk.2, touch, if_neg (Ne.symm hk.1)]

/-- The least recently used of sorted entries is the last. -/
theorem evicted_perm {es entries : List (LruEntry κ α)} {e : LruEntry κ α}
    (hperm : (es ++ [e]).Perm entries) (hsorted : Sorted (es ++ [e]))
    (hnodup : ((es ++ [e]).map LruEntry.key).Nodup) : es.Perm (evicted entries) := by
  have hmem : e ∈ entries := hperm.subset (by simp)
  have hmin : entries.argmin LruEntry.used = some e := by
    have hsome : entries.argmin LruEntry.used ≠ none := fun hnone =>
      List.ne_nil_of_mem hmem (List.argmin_eq_none.mp hnone)
    obtain ⟨m, hm⟩ := Option.ne_none_iff_exists'.mp hsome
    have hle := List.le_of_mem_argmin hmem hm
    rw [hm]
    rcases List.mem_append.mp (hperm.symm.subset (List.argmin_mem hm)) with hin | hlast
    · have hlt := (List.pairwise_append.mp hsorted).2.2 m hin e (by simp)
      omega
    · rw [List.mem_singleton.mp hlast]
  have hne : ∀ x ∈ es, x.key ≠ e.key := by
    rw [List.map_append] at hnodup
    intro x hx heq
    exact (List.nodup_append.mp hnodup).2.2 _ (List.mem_map_of_mem hx) e.key (by simp) heq
  have hfilter : (es ++ [e]).filter (·.key ≠ e.key) = es := by
    rw [List.filter_append, List.filter_eq_self.mpr (by simpa using hne)]
    simp
  unfold evicted
  rw [hmin]
  conv_lhs => rw [← hfilter]
  exact hperm.filter _

/-- One more use of a key. -/
theorem Recent.get {c : Lru κ α} {recent : List κ} (h : Recent c recent) (k : κ) (make : α) :
    Recent (c.get k make).2 (use recent k) := by
  obtain ⟨es, hperm, hsorted, hkeys, htick⟩ := h.entries
  obtain ⟨n, hn⟩ := Nat.exists_eq_add_of_lt h.room
  rw [Nat.zero_add] at hn
  have hnodup : (es.map LruEntry.key).Nodup := hkeys ▸ h.nodup.sublist (List.take_sublist _ _)
  have hiff := h.isSome_find?_iff (k := k)
  unfold Lru.get
  split
  · rename_i a hfind
    rw [hfind] at hiff
    have hin := hiff.mp rfl
    rw [← hkeys] at hin
    obtain ⟨e, he, rfl⟩ := List.mem_map.mp hin
    obtain ⟨front, back, rfl⟩ := List.append_of_mem he
    simp only [List.map_append, List.map_cons] at hnodup hkeys
    have hfront : e.key ∉ front.map LruEntry.key := by
      intro hmem
      exact (List.nodup_append.mp hnodup).2.2 _ hmem _ List.mem_cons_self rfl
    have hback : e.key ∉ back.map LruEntry.key :=
      (List.nodup_cons.mp (List.nodup_append.mp hnodup).2.1).1
    refine ⟨h.room, nodup_use h.nodup _, ⟨{ e with used := c.tick + 1 } :: (front ++ back),
      ?_, ?_, ?_, ?_⟩⟩
    · have hmap := hperm.map (touch e.key (c.tick + 1))
      rw [List.map_append, List.map_cons, map_touch_of_not_mem _ hfront,
        map_touch_of_not_mem _ hback, touch, if_pos rfl] at hmap
      exact List.perm_middle.symm.trans hmap
    · refine List.pairwise_cons.mpr ⟨fun x hx => ?_, hsorted.sublist (by simp)⟩
      exact Nat.lt_succ_of_le (htick x (by simp at hx ⊢; tauto))
    · have htake : recent.take (n + 1) = front.map LruEntry.key ++
          e.key :: back.map LruEntry.key := by
        rw [hkeys, hn]
      have hmem : e.key ∈ recent.take (n + 1) := by
        rw [htake]
        simp
      rw [hn, use, List.take_succ_cons, take_erase_of_mem hmem, htake,
        List.erase_append_right _ hfront, List.erase_cons_head]
      simp
    · intro x hx
      rcases List.mem_cons.mp hx with rfl | hx
      · exact le_rfl
      · exact Nat.le_succ_of_le (htick x (by simp at hx ⊢; tauto))
  · rename_i hfind
    rw [hfind] at hiff
    have hout : k ∉ recent.take (n + 1) := by
      rw [← hn]
      exact fun hin => by cases hiff.mpr hin
    have hout' : k ∉ recent.take n := fun hin =>
      hout ((List.take_sublist_take_left (Nat.le_succ n)).subset hin)
    -- What stays: the entries of one key less where all places are taken.
    have hroom : ∃ es' : List (LruEntry κ α),
        es'.Perm (if c.capacity ≤ c.entries.length then evicted c.entries else c.entries) ∧
        es'.Sublist es ∧ es'.map LruEntry.key = recent.take n := by
      rw [hn] at hkeys
      have hlength := congrArg List.length hkeys
      rw [List.length_map, List.length_take] at hlength
      by_cases hfull : c.capacity ≤ c.entries.length
      · rw [if_pos hfull]
        rw [← hperm.length_eq] at hfull
        have hpos : es ≠ [] := by
          rintro rfl
          simp at hfull
          omega
        obtain ⟨es', e, rfl⟩ : ∃ es' e, es = es' ++ [e] :=
          ⟨es.dropLast, es.getLast hpos, (List.dropLast_append_getLast hpos).symm⟩
        refine ⟨es', evicted_perm hperm hsorted hnodup, by simp, ?_⟩
        have hdrop := congrArg List.dropLast hkeys
        rw [List.map_append, List.map_singleton, List.dropLast_concat] at hdrop
        have hall : min (n + 1) recent.length - 1 = n := by omega
        rw [hdrop, List.dropLast_eq_take, List.length_take, hall, List.take_take,
          Nat.min_eq_left (Nat.le_succ n)]
      · rw [if_neg hfull]
        rw [← hperm.length_eq] at hfull
        refine ⟨es, hperm, .refl _, ?_⟩
        rw [hkeys, List.take_of_length_le (by omega), List.take_of_length_le (by omega)]
    obtain ⟨es', hperm', hsub, hkeys'⟩ := hroom
    refine ⟨h.room, nodup_use h.nodup _, ⟨⟨k, c.tick + 1, make⟩ :: es', hperm'.cons _, ?_, ?_, ?_⟩⟩
    · refine List.pairwise_cons.mpr ⟨fun x hx => ?_, hsorted.sublist hsub⟩
      exact Nat.lt_succ_of_le (htick x (hsub.subset hx))
    · rw [List.map_cons, hkeys', hn, use, List.take_succ_cons, take_erase_of_not_mem hout']
    · intro x hx
      rcases List.mem_cons.mp hx with rfl | hx
      · exact le_rfl
      · exact Nat.le_succ_of_le (htick x (hsub.subset hx))

/-! ## Runs of uses -/

/-- Keys by their last use, the latest first. -/
def recency (ks : List κ) : List κ := ks.foldl use []

theorem mem_foldl_use_iff {ks recent : List κ} {k : κ} :
    k ∈ ks.foldl use recent ↔ k ∈ ks ∨ k ∈ recent := by
  induction ks generalizing recent with
  | nil => simp
  | cons x ks ih =>
      rw [List.foldl_cons, ih, use, List.mem_cons, List.mem_cons]
      by_cases hx : k = x
      · simp [hx]
      · simp [hx, List.mem_erase_of_ne hx]

theorem mem_recency_iff {ks : List κ} {k : κ} : k ∈ recency ks ↔ k ∈ ks := by
  rw [recency, mem_foldl_use_iff]
  simp

/-- The keys used after a key stand before it. -/
theorem exists_foldl_use {ks back : List κ} {k : κ} (front : List κ) (hk : k ∉ ks)
    (hnodup : (front ++ k :: back).Nodup) :
    ∃ front' back', ks.foldl use (front ++ k :: back) = front' ++ k :: back' ∧
      (front' ++ k :: back').Nodup ∧ ∀ x, x ∈ front' ↔ x ∈ ks ∨ x ∈ front := by
  induction ks generalizing front back with
  | nil => exact ⟨front, back, rfl, hnodup, by simp⟩
  | cons y ks ih =>
      rw [List.mem_cons, not_or] at hk
      have hnext := nodup_use hnodup y
      rw [List.foldl_cons]
      by_cases hy : y ∈ front
      · rw [use, List.erase_append_left _ hy] at hnext ⊢
        obtain ⟨front', back', heq, hnodup', hmem⟩ := ih (y :: front.erase y) hk.2 hnext
        refine ⟨front', back', heq, hnodup', fun x => ?_⟩
        have hfront := (List.nodup_append.mp hnodup).1
        rw [hmem, List.mem_cons, List.mem_cons, hfront.mem_erase_iff]
        by_cases hx : x = y
        · simp [hx]
        · simp [hx]
      · rw [use, List.erase_append_right _ hy, List.erase_cons_tail (by simpa using hk.1)]
          at hnext ⊢
        obtain ⟨front', back', heq, hnodup', hmem⟩ := ih (y :: front) hk.2 hnext
        refine ⟨front', back', heq, hnodup', fun x => ?_⟩
        rw [hmem, List.mem_cons, List.mem_cons, or_left_comm, or_assoc]

theorem nodup_foldl_use {ks recent : List κ} (h : recent.Nodup) : (ks.foldl use recent).Nodup := by
  induction ks generalizing recent with
  | nil => exact h
  | cons k ks ih => exact ih (nodup_use h k)

/-- A key is among the latest `n` when fewer than `n` others were used since. -/
theorem mem_take_recency_iff {before after : List κ} {k : κ} {n : Nat} (hk : k ∉ after) :
    k ∈ (recency (before ++ k :: after)).take n ↔ after.dedup.length < n := by
  have hnodup : (use (recency before) k).Nodup := nodup_use (nodup_foldl_use .nil) k
  obtain ⟨front, back, heq, hnodup', hmem⟩ := exists_foldl_use [] hk hnodup
  have hfront := List.nodup_append.mp hnodup'
  have hperm : front.Perm after.dedup := by
    refine (List.perm_ext_iff_of_nodup hfront.1 (List.nodup_dedup _)).mpr fun x => ?_
    rw [hmem, List.mem_dedup]
    simp
  have hnot : k ∉ front := fun hin => hk (by simpa using (hmem k).mp hin)
  have hrecency : recency (before ++ k :: after) = front ++ k :: back := by
    rw [recency, List.foldl_append, List.foldl_cons]
    exact heq
  rw [hrecency, List.take_append, ← hperm.length_eq]
  constructor
  · intro hin
    rcases List.mem_append.mp hin with hin | hin
    · exact absurd (List.mem_of_mem_take hin) hnot
    · by_contra hle
      rw [Nat.sub_eq_zero_of_le (by omega)] at hin
      cases hin
  · intro hlt
    obtain ⟨m, hm⟩ := Nat.exists_eq_add_of_lt hlt
    rw [show n - front.length = m + 1 by omega, List.take_succ_cons]
    simp

end Lru

end Improv.Lib
