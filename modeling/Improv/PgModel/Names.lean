import Improv.PgModel.Load
import Improv.Service.Keyed
/-!
# Items by name

The items a mapper knows by name are those the load interned, and a name keeps
its item when others are minted.
-/

namespace Improv.PgModel

open Improv.Lib Improv.CoreModel Improv.Engine

namespace Items

theorem find_empty (c : CategoryId) (n : String) : Items.find .empty c n = none := rfl

theorem find_add (items : Items) (c : CategoryId) (n : String) (id : ItemId) (c' : CategoryId)
    (n' : String) :
    (items.add c n id).find c' n' = if c' = c ∧ n' = n then some id else items.find c' n' := by
  unfold Items.find Items.add
  rw [SortedMap.get?_insert]
  by_cases hc : c' = c
  · subst hc
    rw [if_pos rfl, Option.bind_some, SortedMap.get?_insert]
    by_cases hn : n' = n
    · rw [if_pos hn, if_pos ⟨rfl, hn⟩]
    · rw [if_neg hn, if_neg fun h => hn h.2]
      cases items.get? c' <;> rfl
  · rw [if_neg hc, if_neg fun h => hc h.1]

/-- Whether an item is one of a category's name. -/
def named (c : CategoryId) (n : String) (x : Item) : Bool := x.category = c && x.name = n

theorem find_foldl_add (xs : List Item) (items : Items) (c : CategoryId) (n : String) :
    (xs.foldl (fun items it => items.add it.category it.name it.id) items).find c n =
      (((xs.filter (named c n)).getLast?).map Item.id).or (items.find c n) := by
  induction xs generalizing items with
  | nil => rfl
  | cons x xs ih =>
      rw [List.foldl_cons, ih, find_add]
      by_cases hx : named c n x = true
      · have hcn : c = x.category ∧ n = x.name := by
          unfold named at hx
          simp only [Bool.and_eq_true, decide_eq_true_eq] at hx
          exact ⟨hx.1.symm, hx.2.symm⟩
        rw [if_pos hcn, List.filter_cons_of_pos hx, List.getLast?_cons]
        cases (xs.filter (named c n)).getLast? <;> rfl
      · have hcn : ¬(c = x.category ∧ n = x.name) := by
          rintro ⟨rfl, rfl⟩
          exact hx (by simp [named])
        rw [if_neg hcn, List.filter_cons_of_neg hx]

/-- A name's item in a model: of those that have it, the last. -/
theorem find_ofModel (m : Model) (c : CategoryId) (n : String) :
    (ofModel m).find c n =
      ((m.items.filter fun _ x => named c n x).values.getLast?).map Item.id := by
  have hvalues : (m.items.filter fun _ x => named c n x).values =
      m.items.values.filter (named c n) := by
    unfold SortedMap.filter SortedMap.values
    rw [List.filter_map]
    rfl
  unfold ofModel
  rw [find_foldl_add, find_empty, hvalues, Option.or_none]

theorem find_ofModel_eq_none_iff {m : Model} {c : CategoryId} {n : String} :
    (ofModel m).find c n = none ↔ ∀ k x, m.items.get? k = some x → named c n x = false := by
  rw [find_ofModel, Option.map_eq_none_iff, List.getLast?_eq_none_iff]
  constructor
  · intro h k x hx
    by_contra hnamed
    have hmem : x ∈ (m.items.filter fun _ x => named c n x).values := by
      rw [SortedMap.mem_values_iff]
      refine ⟨k, ?_⟩
      rw [SortedMap.get?_filter, hx]
      simp [Option.filter, hnamed]
    rw [h] at hmem
    cases hmem
  · intro h
    rw [List.eq_nil_iff_forall_not_mem]
    intro x hx
    obtain ⟨k, hk⟩ := SortedMap.mem_values_iff.mp hx
    rw [SortedMap.get?_filter, Option.filter_eq_some_iff] at hk
    rw [h k x hk.1] at hk
    exact absurd hk.2 (by simp)

/-- A name that is found is that of an item of the model. -/
theorem exists_of_find {m : Model} (hm : ∀ k x, m.items.get? k = some x → x.id = k)
    {c : CategoryId} {n : String} {i : ItemId} (h : (ofModel m).find c n = some i) :
    ∃ x, m.items.get? i = some x ∧ x.category = c ∧ x.name = n := by
  rw [find_ofModel, Option.map_eq_some_iff] at h
  obtain ⟨x, hlast, rfl⟩ := h
  obtain ⟨k, hk⟩ := SortedMap.mem_values_iff.mp (List.mem_of_getLast? hlast)
  rw [SortedMap.get?_filter, Option.filter_eq_some_iff] at hk
  obtain ⟨hx, hnamed⟩ := hk
  unfold named at hnamed
  simp only [Bool.and_eq_true, decide_eq_true_eq] at hnamed
  refine ⟨x, ?_, hnamed.1, hnamed.2⟩
  rw [hm k x hx]
  exact hx

/-- Two names of a category are not one item's. -/
theorem find_injective {m : Model} (hm : ∀ k x, m.items.get? k = some x → x.id = k)
    {c : CategoryId} {n n' : String} {i : ItemId} (h : (ofModel m).find c n = some i)
    (h' : (ofModel m).find c n' = some i) : n = n' := by
  obtain ⟨x, hx, _, hname⟩ := exists_of_find hm h
  obtain ⟨y, hy, _, hname'⟩ := exists_of_find hm h'
  rw [hx, Option.some.injEq] at hy
  rw [← hname, ← hname', hy]

/-- A new item of a new name is found by it, and the others are as before. -/
theorem find_ofModel_insert {m m' : Model} {c : CategoryId} {n : String} {id : ItemId}
    (hitems : m'.items = m.items.insert id ⟨id, c, n⟩) (hid : m.items.get? id = none)
    (hname : (ofModel m).find c n = none) (c' : CategoryId) (n' : String) :
    (ofModel m').find c' n' = ((ofModel m).add c n id).find c' n' := by
  rw [find_add]
  by_cases hcn : c' = c ∧ n' = n
  · obtain ⟨rfl, rfl⟩ := hcn
    rw [if_pos ⟨rfl, rfl⟩, find_ofModel]
    have hone : (m'.items.filter fun _ x => named c' n' x) =
        SortedMap.empty.insert id ⟨id, c', n'⟩ := by
      ext1 k
      rw [SortedMap.get?_filter, hitems, SortedMap.get?_insert, SortedMap.get?_insert]
      by_cases hk : k = id
      · rw [if_pos hk, if_pos hk]
        simp [Option.filter, named]
      · rw [if_neg hk, if_neg hk]
        cases hx : m.items.get? k with
        | none => rfl
        | some x =>
            have hnot := find_ofModel_eq_none_iff.mp hname k x hx
            simp [Option.filter, hnot]
    rw [hone]
    rfl
  · rw [if_neg hcn, find_ofModel, find_ofModel]
    congr 2
    have hsame : (m'.items.filter fun _ x => named c' n' x) =
        m.items.filter fun _ x => named c' n' x := by
      ext1 k
      rw [SortedMap.get?_filter, SortedMap.get?_filter, hitems, SortedMap.get?_insert]
      by_cases hk : k = id
      · rw [if_pos hk, hk, hid]
        have hnot : named c' n' ⟨id, c, n⟩ = false := by
          unfold named
          by_contra h
          simp only [Bool.not_eq_false, Bool.and_eq_true, decide_eq_true_eq] at h
          exact hcn ⟨h.1.symm, h.2.symm⟩
        simp [Option.filter, hnot]
      · rw [if_neg hk]
    rw [hsame]

/-- Whatever is found in one is found in the other. -/
def Extends (items items' : Items) : Prop :=
  ∀ c n i, items.find c n = some i → items'.find c n = some i

theorem Extends.trans {a b c : Items} (h : a.Extends b) (h' : b.Extends c) : a.Extends c :=
  fun k n i hi => h' k n i (h k n i hi)

theorem extends_add {items : Items} {c : CategoryId} {n : String} (h : items.find c n = none)
    (id : ItemId) : items.Extends (items.add c n id) := by
  intro c' n' i hi
  rw [find_add, if_neg]
  · exact hi
  · rintro ⟨rfl, rfl⟩
    rw [h] at hi
    cases hi

end Items

/-! ## Interning -/

namespace ItemInterner

variable {m : Model} {it : ItemInterner}

theorem le_maxId {k : ItemId} {x : Item} (h : m.items.get? k = some x) : x.id.id ≤ maxId m := by
  have hmax : ∀ (ns : List Nat) (a n : Nat), n ≤ a ∨ n ∈ ns → n ≤ ns.foldl max a := by
    intro ns
    induction ns with
    | nil =>
        intro a n h
        simpa using h
    | cons b ns ih =>
        intro a n h
        apply ih
        rcases h with h | h
        · exact .inl (h.trans (le_max_left a b))
        · rcases List.mem_cons.mp h with rfl | h
          · exact .inl (le_max_right a n)
          · exact .inr h
  apply hmax
  exact .inr (List.mem_map_of_mem (SortedMap.mem_values_iff.mpr ⟨k, h⟩))

/-- An interner started from a model: what it minted is above the model's
items, an item a name. -/
structure Minted (m : Model) (it : ItemInterner) : Prop where
  known : (Items.ofModel m).Extends it.map
  range : ∀ c n i, it.map.find c n = some i →
    i.id < it.nextItem ∧ (i.id ≤ maxId m → (Items.ofModel m).find c n = some i)
  injective : ∀ c n c' n' i, it.map.find c n = some i → it.map.find c' n' = some i →
    maxId m < i.id → c = c' ∧ n = n'
  next : maxId m < it.nextItem

theorem le_maxId_of_find (hm : ∀ k x, m.items.get? k = some x → x.id = k) {c : CategoryId}
    {n : String} {i : ItemId} (h : (Items.ofModel m).find c n = some i) : i.id ≤ maxId m := by
  obtain ⟨x, hx, _⟩ := Items.exists_of_find hm h
  have hle := le_maxId hx
  rw [hm i x hx] at hle
  exact hle

theorem Minted.seeded (hm : ∀ k x, m.items.get? k = some x → x.id = k) (base : Nat) :
    Minted m (seededFrom m base) := by
  have hnext : maxId m < (seededFrom m base).nextItem :=
    lt_of_lt_of_le (Nat.lt_succ_self _) (le_max_right _ _)
  refine ⟨fun _ _ _ h => h, fun c n i h => ?_, fun c n c' n' i h _ hi => ?_, hnext⟩
  · exact ⟨(le_maxId_of_find hm h).trans_lt hnext, fun _ => h⟩
  · have hle := le_maxId_of_find hm h
    omega

theorem intern_of_find {c : CategoryId} {n : String} {i : ItemId}
    (h : it.map.find c n = some i) : it.intern c n = (it, i) := by
  unfold intern
  rw [h]

theorem find_intern (it : ItemInterner) (c : CategoryId) (n : String) :
    (it.intern c n).1.map.find c n = some (it.intern c n).2 := by
  unfold intern
  cases h : it.map.find c n with
  | some i => exact h
  | none =>
      rw [Items.find_add, if_pos ⟨rfl, rfl⟩]

theorem extends_intern (it : ItemInterner) (c : CategoryId) (n : String) :
    it.map.Extends (it.intern c n).1.map := by
  unfold intern
  cases h : it.map.find c n with
  | some i => exact fun _ _ _ h => h
  | none => exact Items.extends_add h _

theorem Minted.intern (h : Minted m it) (c : CategoryId) (n : String) :
    Minted m (it.intern c n).1 := by
  unfold ItemInterner.intern
  cases hfind : it.map.find c n with
  | some i => exact h
  | none =>
      have hnext := h.next
      refine ⟨h.known.trans (Items.extends_add hfind _), ?_, ?_, ?_⟩
      · intro c' n' i hi
        rw [Items.find_add] at hi
        split at hi
        · cases hi
          exact ⟨Nat.lt_succ_self _, fun hle => absurd hle (not_le.mpr hnext)⟩
        · obtain ⟨hlt, hknown⟩ := h.range c' n' i hi
          exact ⟨hlt.trans (Nat.lt_succ_self _), hknown⟩
      · intro c1 n1 c2 n2 i h1 h2 hmax
        rw [Items.find_add] at h1 h2
        split at h1
        · rename_i hcn1
          cases h1
          split at h2
          · rename_i hcn2
            exact ⟨hcn1.1.trans hcn2.1.symm, hcn1.2.trans hcn2.2.symm⟩
          · exact absurd (h.range c2 n2 _ h2).1 (lt_irrefl _)
        · split at h2
          · cases h2
            exact absurd (h.range c1 n1 _ h1).1 (lt_irrefl _)
          · exact h.injective c1 n1 c2 n2 i h1 h2 hmax
      · exact hnext.trans (Nat.lt_succ_self _)

/-- What interning some names leaves known. -/
theorem minted_foldl (h : Minted m it) (ks : List (CategoryId ×ₗ String)) :
    Minted m (ks.foldl (fun it k => (it.intern (ofLex k).1 (ofLex k).2).1) it) := by
  induction ks generalizing it with
  | nil => exact h
  | cons k ks ih => exact ih (h.intern _ _)

theorem extends_foldl (it : ItemInterner) (ks : List (CategoryId ×ₗ String)) :
    it.map.Extends (ks.foldl (fun it k => (it.intern (ofLex k).1 (ofLex k).2).1) it).map := by
  induction ks generalizing it with
  | nil => exact fun _ _ _ h => h
  | cons k ks ih => exact (extends_intern it _ _).trans (ih _)

/-- Every name interned is found. -/
theorem find_foldl {ks : List (CategoryId ×ₗ String)} {c : CategoryId} {n : String}
    (h : toLex (c, n) ∈ ks) (it : ItemInterner) : ∃ i,
    (ks.foldl (fun it k => (it.intern (ofLex k).1 (ofLex k).2).1) it).map.find c n = some i := by
  induction ks generalizing it with
  | nil => cases h
  | cons k ks ih =>
      rcases List.mem_cons.mp h with rfl | h
      · exact ⟨_, extends_foldl _ ks c n _ (find_intern it c n)⟩
      · exact ih h _

/-! ## Registering -/

theorem mem_pairs_iff {c : CategoryId} {n : String} {i : ItemId} :
    (c, n, i) ∈ it.pairs ↔ it.map.find c n = some i := by
  unfold pairs Items.find
  simp only [List.mem_flatMap, List.mem_map, Prod.mk.injEq, Prod.exists]
  constructor
  · rintro ⟨c', names, hc, n', i', hn, rfl, rfl, rfl⟩
    rw [SortedMap.get?_eq_some_iff.mpr hc, Option.bind_some]
    exact SortedMap.get?_eq_some_iff.mpr hn
  · intro h
    obtain ⟨names, hc, hn⟩ := Option.bind_eq_some_iff.mp h
    exact ⟨c, names, SortedMap.get?_eq_some_iff.mp hc, n, i, SortedMap.get?_eq_some_iff.mp hn,
      rfl, rfl, rfl⟩

theorem nodup_pairs (it : ItemInterner) : it.pairs.Nodup := by
  have hkeys : ∀ {κ α : Type} [LinearOrder κ] (m : SortedMap κ α), m.entries.Nodup := by
    intro κ α _ m
    exact m.sorted.imp fun hlt heq => absurd (heq ▸ hlt) (lt_irrefl _)
  unfold pairs
  rw [List.nodup_flatMap]
  constructor
  · rintro ⟨c, names⟩ _
    refine (hkeys names).map fun p q hpq => ?_
    simp only [Prod.mk.injEq, true_and] at hpq
    exact Prod.ext hpq.1 hpq.2
  · refine it.map.sorted.imp ?_
    intro p q hlt x hp hq
    obtain ⟨_, _, rfl⟩ := List.mem_map.mp hp
    obtain ⟨_, _, heq⟩ := List.mem_map.mp hq
    have hkey : q.1 = p.1 := (Prod.mk.inj heq).1
    rw [hkey] at hlt
    exact absurd hlt (lt_irrefl _)

/-- Pairs that go into a model: each is known to it, or new to it in name and
id; no two share an id. -/
structure Ready (m : Model) (ps : List (CategoryId × String × ItemId)) : Prop where
  fit : ∀ c n i, (c, n, i) ∈ ps → (Items.ofModel m).find c n = some i ∨
    m.items.get? i = none ∧ (Items.ofModel m).find c n = none
  functional : ∀ c n i i', (c, n, i) ∈ ps → (c, n, i') ∈ ps → i = i'
  injective : ∀ c n c' n' i, (c, n, i) ∈ ps → (c', n', i) ∈ ps → c = c' ∧ n = n'

theorem ofModel_congr {m m' : Model} (h : m'.items = m.items) :
    Items.ofModel m' = Items.ofModel m := by
  unfold Items.ofModel
  rw [h]

/-- What registering some pairs leaves named. -/
theorem find_foldl_registerItem {ps : List (CategoryId × String × ItemId)}
    (hps : ps.Nodup) (hm : ∀ k x, m.items.get? k = some x → x.id = k) (h : Ready m ps)
    (c : CategoryId) (n : String) (i : ItemId) :
    (Items.ofModel (ps.foldl registerItem m)).find c n = some i ↔
      (Items.ofModel m).find c n = some i ∨ (c, n, i) ∈ ps := by
  induction ps generalizing m with
  | nil => simp
  | cons p ps ih =>
      obtain ⟨pc, pn, pi⟩ := p
      obtain ⟨hnot, hps⟩ := List.nodup_cons.mp hps
      rw [List.foldl_cons]
      rcases h.fit pc pn pi List.mem_cons_self with hknown | ⟨hid, hname⟩
      · have hitems : (registerItem m (pc, pn, pi)).items = m.items := by
          obtain ⟨x, hx, _⟩ := Items.exists_of_find hm hknown
          unfold registerItem
          exact if_pos (SortedMap.contains_of_get? hx)
        have hsame := ofModel_congr hitems
        rw [ih hps (by rw [hitems]; exact hm), hsame, List.mem_cons, Prod.mk.injEq, Prod.mk.injEq]
        · constructor
          · rintro (hfound | hmem)
            · exact .inl hfound
            · exact .inr (.inr hmem)
          · rintro (hfound | ⟨rfl, rfl, rfl⟩ | hmem)
            · exact .inl hfound
            · exact .inl hknown
            · exact .inr hmem
        · refine ⟨fun c n i hmem => ?_, fun c n i i' hi hi' => ?_, fun c n c' n' i hi hi' => ?_⟩
          · rw [hsame, hitems]
            exact h.fit c n i (List.mem_cons_of_mem _ hmem)
          · exact h.functional c n i i' (List.mem_cons_of_mem _ hi) (List.mem_cons_of_mem _ hi')
          · exact h.injective c n c' n' i (List.mem_cons_of_mem _ hi) (List.mem_cons_of_mem _ hi')
      · have hitems : (registerItem m (pc, pn, pi)).items = m.items.insert pi ⟨pi, pc, pn⟩ := by
          unfold registerItem
          exact if_neg (by simp [SortedMap.contains, hid])
        have hfind := Items.find_ofModel_insert hitems hid hname
        have hrest : ∀ c n i, (c, n, i) ∈ ps → ¬(c = pc ∧ n = pn) := by
          rintro c n i hmem ⟨rfl, rfl⟩
          have heq := h.functional c n i pi (List.mem_cons_of_mem _ hmem) List.mem_cons_self
          subst heq
          exact hnot hmem
        rw [ih hps (by rw [hitems]; exact Service.Keyed.get?_insert hm rfl), hfind, Items.find_add,
          List.mem_cons, Prod.mk.injEq, Prod.mk.injEq]
        · by_cases hcn : c = pc ∧ n = pn
          · rw [if_pos hcn, Option.some.injEq]
            obtain ⟨rfl, rfl⟩ := hcn
            rw [hname]
            constructor
            · rintro (rfl | hmem)
              · exact .inr (.inl ⟨rfl, rfl, rfl⟩)
              · exact .inr (.inr hmem)
            · rintro (hnone | ⟨_, _, rfl⟩ | hmem)
              · cases hnone
              · exact .inl rfl
              · exact .inr hmem
          · rw [if_neg hcn]
            constructor
            · rintro (hfound | hmem)
              · exact .inl hfound
              · exact .inr (.inr hmem)
            · rintro (hfound | ⟨hc, hn, _⟩ | hmem)
              · exact .inl hfound
              · exact absurd ⟨hc, hn⟩ hcn
              · exact .inr hmem
        · refine ⟨fun c n i hmem => ?_, fun c n i i' hi hi' => ?_, fun c n c' n' i hi hi' => ?_⟩
          · rw [hfind, Items.find_add, if_neg (hrest c n i hmem), hitems, SortedMap.get?_insert]
            have hne : i ≠ pi := by
              rintro rfl
              exact hrest c n i hmem
                (h.injective c n pc pn i (List.mem_cons_of_mem _ hmem) List.mem_cons_self)
            rw [if_neg hne]
            exact h.fit c n i (List.mem_cons_of_mem _ hmem)
          · exact h.functional c n i i' (List.mem_cons_of_mem _ hi) (List.mem_cons_of_mem _ hi')
          · exact h.injective c n c' n' i (List.mem_cons_of_mem _ hi) (List.mem_cons_of_mem _ hi')

/-- A model an interner was registered in names what it interned. -/
theorem find_register (hm : ∀ k x, m.items.get? k = some x → x.id = k) (h : Minted m it)
    (c : CategoryId) (n : String) :
    (Items.ofModel (it.register m)).find c n = it.map.find c n := by
  have hready : Ready m it.pairs := by
    refine ⟨fun c n i hmem => ?_, fun c n i i' hi hi' => ?_, fun c n c' n' i hi hi' => ?_⟩
    · have hfind := mem_pairs_iff.mp hmem
      by_cases hle : i.id ≤ maxId m
      · exact .inl ((h.range c n i hfind).2 hle)
      · right
        constructor
        · cases hx : m.items.get? i with
          | none => rfl
          | some x =>
              have hmax := le_maxId hx
              rw [hm i x hx] at hmax
              exact absurd hmax hle
        · cases hj : (Items.ofModel m).find c n with
          | none => rfl
          | some j =>
              have hij := h.known c n j hj
              rw [hfind, Option.some.injEq] at hij
              subst hij
              exact absurd (le_maxId_of_find hm hj) hle
    · rw [mem_pairs_iff] at hi hi'
      rw [hi, Option.some.injEq] at hi'
      exact hi'
    · rw [mem_pairs_iff] at hi hi'
      by_cases hle : i.id ≤ maxId m
      · obtain ⟨x, hx, hc, hn⟩ := Items.exists_of_find hm ((h.range c n i hi).2 hle)
        obtain ⟨y, hy, hc', hn'⟩ := Items.exists_of_find hm ((h.range c' n' i hi').2 hle)
        rw [hx, Option.some.injEq] at hy
        subst hy
        exact ⟨hc.symm.trans hc', hn.symm.trans hn'⟩
      · exact h.injective c n c' n' i hi hi' (not_le.mp hle)
  apply Option.ext
  intro i
  unfold register
  rw [find_foldl_registerItem (nodup_pairs it) hm hready, mem_pairs_iff]
  exact ⟨fun hfound => hfound.elim (h.known c n i) id, .inr⟩

theorem keyed_register (hm : ∀ k x, m.items.get? k = some x → x.id = k) (it : ItemInterner) :
    ∀ k x, (it.register m).items.get? k = some x → x.id = k := by
  unfold register
  generalize it.pairs = ps
  induction ps generalizing m with
  | nil => exact hm
  | cons p ps ih =>
      obtain ⟨c, n, i⟩ := p
      apply ih
      change ∀ k x, (if m.items.contains i = true then m.items
        else m.items.insert i ⟨i, c, n⟩).get? k = some x → x.id = k
      by_cases hi : m.items.contains i = true
      · rw [if_pos hi]
        exact hm
      · rw [if_neg hi]
        exact Service.Keyed.get?_insert hm rfl

/-- Registering items changes no measure and no cell. -/
theorem register_frame (it : ItemInterner) (m : Model) :
    (it.register m).measures = m.measures ∧ (it.register m).inputs = m.inputs := by
  unfold register
  generalize it.pairs = ps
  induction ps generalizing m with
  | nil => exact ⟨rfl, rfl⟩
  | cons p ps ih => exact ih (registerItem m p)

end ItemInterner

end Improv.PgModel
