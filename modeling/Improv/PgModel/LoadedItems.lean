import Improv.PgModel.LoadOrders
/-!
# The items of a load

Whatever the order of the walks, a name that no item bears is minted the same
new id, and every interned item goes into the model once; only the order in
which a category lists its new items is left to the walk.
-/

namespace Improv.PgModel

open Improv.Lib Improv.CoreModel Improv.Engine
open Improv.StorageSql (Named internAll get?_registerItem extends_internAll find_internAll
  mem_of_find_internAll)

/-! ## Interning -/

/-- An interner seeded from a model, while names are interned: a name is found
as an item that bears it, or minted an id above the model's. -/
structure Minting (m : Model) (it : ItemInterner) : Prop where
  sound : ∀ c n i, it.map.find c n = some i →
    Bears m c n i ∨ ItemInterner.maxId m < i.id ∧ ∀ j, ¬Bears m c n j
  complete : ∀ c n i, Bears m c n i → ∃ j, it.map.find c n = some j
  below : ∀ c n i, it.map.find c n = some i → i.id < it.nextItem
  injective : ∀ c n c' n' i, it.map.find c n = some i → it.map.find c' n' = some i →
    c = c' ∧ n = n'
  next : ItemInterner.maxId m < it.nextItem

section Interning

variable {m : Model} {it it' : ItemInterner}

theorem Minting.seeded (hm : ∀ k x, m.items.get? k = some x → x.id = k) {s : List Item}
    (hs : s.Perm m.items.values) : Minting m (seededIn s 1) := by
  have hnext := nextItem_seededIn hs 1
  refine ⟨fun c n i hi => .inl (bears_of_find hm hs hi), fun c n i hi => exists_find hs hi 1,
    fun c n i hi => ?_, fun c n c' n' i hi hi' => ?_, by omega⟩
  · have hle := (bears_of_find hm hs hi).le_maxId hm
    omega
  · exact (bears_of_find hm hs hi).eq (bears_of_find hm hs hi')

theorem Minting.intern (h : Minting m it) (c : CategoryId) (n : String) :
    Minting m (it.intern c n).1 := by
  unfold ItemInterner.intern
  cases hfind : it.map.find c n with
  | some i => exact h
  | none =>
      have hnext := h.next
      have hnot : ∀ j, ¬Bears m c n j := by
        intro j hj
        obtain ⟨k, hk⟩ := h.complete c n j hj
        rw [hfind] at hk
        cases hk
      refine ⟨?_, ?_, ?_, ?_, Nat.lt_succ_of_lt hnext⟩
      · intro c' n' i hi
        rw [Items.find_add] at hi
        split at hi
        · rename_i hcn
          obtain ⟨rfl, rfl⟩ := hcn
          cases hi
          exact .inr ⟨hnext, hnot⟩
        · exact h.sound c' n' i hi
      · intro c' n' i hi
        obtain ⟨j, hj⟩ := h.complete c' n' i hi
        exact ⟨j, Items.extends_add hfind _ c' n' j hj⟩
      · intro c' n' i hi
        rw [Items.find_add] at hi
        split at hi
        · cases hi
          exact Nat.lt_succ_self _
        · exact Nat.lt_succ_of_lt (h.below c' n' i hi)
      · intro c₁ n₁ c₂ n₂ i h₁ h₂
        rw [Items.find_add] at h₁ h₂
        split at h₁
        · rename_i hcn₁
          cases h₁
          split at h₂
          · rename_i hcn₂
            exact ⟨hcn₁.1.trans hcn₂.1.symm, hcn₁.2.trans hcn₂.2.symm⟩
          · exact absurd (h.below c₂ n₂ _ h₂) (lt_irrefl _)
        · split at h₂
          · cases h₂
            exact absurd (h.below c₁ n₁ _ h₁) (lt_irrefl _)
          · exact h.injective c₁ n₁ c₂ n₂ i h₁ h₂

theorem Minting.internAll (h : Minting m it) (ps : List Named) :
    Minting m (internAll it ps) := by
  induction ps generalizing it with
  | nil => exact h
  | cons p ps ih => exact ih (h.intern p.1 p.2)

/-- Interners that know the same names mint the same ids. -/
theorem internAll_congr (hnext : it.nextItem = it'.nextItem)
    (hknown : ∀ c n, it.map.find c n = none ↔ it'.map.find c n = none) (ps : List Named) :
    (internAll it ps).nextItem = (internAll it' ps).nextItem ∧
      ∀ c n, it.map.find c n = none →
        (internAll it ps).map.find c n = (internAll it' ps).map.find c n := by
  induction ps generalizing it it' with
  | nil => exact ⟨hnext, fun c n h => h.trans ((hknown c n).mp h).symm⟩
  | cons p ps ih =>
      obtain ⟨pc, pn⟩ := p
      change (internAll (it.intern pc pn).1 ps).nextItem =
          (internAll (it'.intern pc pn).1 ps).nextItem ∧
        ∀ c n, it.map.find c n = none → (internAll (it.intern pc pn).1 ps).map.find c n =
          (internAll (it'.intern pc pn).1 ps).map.find c n
      cases hp : it.map.find pc pn with
      | some i =>
          obtain ⟨j, hj⟩ := Option.ne_none_iff_exists'.mp fun hnone => by
            rw [(hknown pc pn).mpr hnone] at hp
            cases hp
          rw [ItemInterner.intern_of_find hp, ItemInterner.intern_of_find hj]
          exact ih hnext hknown
      | none =>
          have hp' := (hknown pc pn).mp hp
          have hstep : ∀ {I : ItemInterner}, I.map.find pc pn = none → I.intern pc pn =
              (⟨I.nextItem + 1, I.map.add pc pn ⟨I.nextItem⟩⟩, ⟨I.nextItem⟩) := by
            intro I hI
            unfold ItemInterner.intern
            rw [hI]
          rw [hstep hp, hstep hp']
          obtain ⟨hnext', hfind⟩ := @ih ⟨it.nextItem + 1, it.map.add pc pn ⟨it.nextItem⟩⟩
            ⟨it'.nextItem + 1, it'.map.add pc pn ⟨it'.nextItem⟩⟩ (by rw [hnext]) (by
              intro c n
              rw [Items.find_add, Items.find_add]
              by_cases hcn : c = pc ∧ n = pn
              · rw [if_pos hcn, if_pos hcn]
                simp
              · rw [if_neg hcn, if_neg hcn]
                exact hknown c n)
          refine ⟨hnext', fun c n hcn => ?_⟩
          by_cases heq : c = pc ∧ n = pn
          · obtain ⟨rfl, rfl⟩ := heq
            have hfound : ∀ I : ItemInterner, (internAll ⟨I.nextItem + 1,
                I.map.add c n ⟨I.nextItem⟩⟩ ps).map.find c n = some ⟨I.nextItem⟩ := by
              intro I
              apply extends_internAll
              rw [Items.find_add, if_pos ⟨rfl, rfl⟩]
            rw [hfound it, hfound it', hnext]
          · apply hfind
            rw [Items.find_add, if_neg heq]
            exact hcn

/-- The ids run out in the one order of the items or in none. -/
theorem fits_seededIn (hm : ∀ k x, m.items.get? k = some x → x.id = k) {s s' : List Item}
    (hs : s.Perm m.items.values) (hs' : s'.Perm m.items.values) (ps : List Named) :
    StorageSql.Fits (seededIn s 1) ps ↔ StorageSql.Fits (seededIn s' 1) ps := by
  have hnext : (seededIn s 1).nextItem = (seededIn s' 1).nextItem := by
    rw [nextItem_seededIn hs, nextItem_seededIn hs']
  have hcongr := internAll_congr hnext (fun c n => by
    rw [find_seededIn_eq_none_iff hm hs, find_seededIn_eq_none_iff hm hs']) ps
  unfold StorageSql.Fits
  rw [hcongr.1, hnext]

/-- A name that no item bears is found alike for every order of the items. -/
theorem find_internAll_seededIn (hm : ∀ k x, m.items.get? k = some x → x.id = k)
    {s s' : List Item} (hs : s.Perm m.items.values) (hs' : s'.Perm m.items.values)
    (ps : List Named) {c : CategoryId} {n : String} (hnot : ∀ j, ¬Bears m c n j) :
    (internAll (seededIn s 1) ps).map.find c n = (internAll (seededIn s' 1) ps).map.find c n := by
  have hnext : (seededIn s 1).nextItem = (seededIn s' 1).nextItem := by
    rw [nextItem_seededIn hs, nextItem_seededIn hs']
  apply (internAll_congr hnext (fun c n => by
    rw [find_seededIn_eq_none_iff hm hs, find_seededIn_eq_none_iff hm hs']) ps).2
  exact (find_seededIn_eq_none_iff hm hs).mpr hnot

end Interning

/-! ## Registering -/

section Registering

variable {m : Model} {it : ItemInterner} {ps : List (CategoryId × String × ItemId)}

theorem get?_items_foldl (m : Model) (ps : List (CategoryId × String × ItemId)) (k : ItemId) :
    (ps.foldl ItemInterner.registerItem m).items.get? k =
      (m.items.get? k).or ((ps.find? fun p => p.2.2 = k).map fun p => ⟨p.2.2, p.1, p.2.1⟩) := by
  induction ps generalizing m with
  | nil => exact (Option.or_none).symm
  | cons p ps ih =>
      rw [List.foldl_cons, ih, get?_registerItem, Option.or_assoc]
      by_cases hk : k = p.2.2
      · subst hk
        rw [if_pos rfl, List.find?_cons_of_pos (by simp)]
        rfl
      · rw [if_neg hk, List.find?_cons_of_neg (by simpa using Ne.symm hk), Option.none_or]

/-- The items of a model after a walk: its own, and those that were minted. -/
theorem get?_items_walk (h : Minting m it) (hw : Walk it ps) {k : ItemId} {x : Item} :
    (ps.foldl ItemInterner.registerItem m).items.get? k = some x ↔
      m.items.get? k = some x ∨
        m.items.get? k = none ∧ x.id = k ∧ it.map.find x.category x.name = some k := by
  have hmem : ∀ c n i, (c, n, i) ∈ ps ↔ it.map.find c n = some i := fun c n i => by
    rw [hw.perm.mem_iff, ItemInterner.mem_pairs_iff]
  rw [get?_items_foldl, Option.or_eq_some_iff, Option.map_eq_some_iff]
  constructor
  · rintro (hold | ⟨hnone, ⟨c, n, i⟩, hfind, rfl⟩)
    · exact .inl hold
    · have hi : i = k := by simpa using List.find?_some hfind
      subst hi
      exact .inr ⟨hnone, rfl, (hmem c n i).mp (List.mem_of_find?_eq_some hfind)⟩
  · rintro (hold | ⟨hnone, hid, hfind⟩)
    · exact .inl hold
    · have hin := (hmem _ _ _).mpr hfind
      obtain ⟨⟨c, n, i⟩, hp⟩ : ∃ p, (ps.find? fun p => p.2.2 = k) = some p := by
        apply Option.isSome_iff_exists.mp
        rw [List.find?_isSome]
        exact ⟨_, hin, by simp⟩
      have hi : i = k := by simpa using List.find?_some hp
      subst hi
      obtain ⟨rfl, rfl⟩ := h.injective _ _ _ _ _
        ((hmem c n i).mp (List.mem_of_find?_eq_some hp)) hfind
      refine .inr ⟨hnone, _, hp, ?_⟩
      rw [← hid]

/-- The pairs whose items a category does not list yet. -/
def unlisted (c : CategoryId) (x : Category) (ps : List (CategoryId × String × ItemId)) :
    List ItemId :=
  (ps.filter fun p => p.1 = c && !x.items.contains p.2.2).map fun p => p.2.2

/-- A category after pairs of different items are registered: those it does not
list follow the others in their order. -/
theorem get?_categories_foldl {c : CategoryId} {x : Category}
    (hps : ((ps.filter fun p => p.1 = c).map fun p => p.2.2).Nodup)
    (hx : m.categories.get? c = some x) :
    (ps.foldl ItemInterner.registerItem m).categories.get? c =
      some { x with items := x.items ++ unlisted c x ps } := by
  induction ps generalizing m x with
  | nil =>
      rw [List.foldl_nil, hx]
      unfold unlisted
      rw [List.filter_nil, List.map_nil, List.append_nil]
  | cons p ps ih =>
      obtain ⟨pc, pn, pi⟩ := p
      have hget : (ItemInterner.registerItem m (pc, pn, pi)).categories.get? c =
          some (if c = pc ∧ pi ∉ x.items then { x with items := x.items ++ [pi] } else x) := by
        unfold ItemInterner.registerItem
        simp only [SortedMap.get?_map, hx, Option.map_some]
      rw [List.foldl_cons]
      by_cases hc : pc = c
      · subst hc
        rw [List.filter_cons_of_pos (by simp), List.map_cons, List.nodup_cons] at hps
        by_cases hin : pi ∈ x.items
        · rw [if_neg fun h => h.2 hin] at hget
          rw [ih hps.2 hget]
          unfold unlisted
          rw [List.filter_cons_of_neg (by simp [hin])]
        · rw [if_pos ⟨rfl, hin⟩] at hget
          have hrest : (ps.filter fun p => p.1 = pc && !(x.items ++ [pi]).contains p.2.2) =
              ps.filter fun p => p.1 = pc && !x.items.contains p.2.2 := by
            apply List.filter_congr
            intro p hp
            by_cases hpc : p.1 = pc
            · have hne : p.2.2 ≠ pi := by
                intro heq
                apply hps.1
                rw [← heq]
                exact List.mem_map.mpr ⟨p, List.mem_filter.mpr ⟨hp, by simpa using hpc⟩, rfl⟩
              simp [hne]
            · simp [hpc]
          rw [ih hps.2 hget]
          unfold unlisted
          rw [hrest, List.filter_cons_of_pos (by simp [hin]), List.map_cons, List.append_assoc]
          rfl
      · rw [if_neg fun h => hc h.1.symm] at hget
        rw [List.filter_cons_of_neg (by simpa using hc)] at hps
        rw [ih hps hget]
        unfold unlisted
        rw [List.filter_cons_of_neg (by simp [hc])]

theorem get?_categories_foldl_none {c : CategoryId} (hc : m.categories.get? c = none) :
    (ps.foldl ItemInterner.registerItem m).categories.get? c = none := by
  induction ps generalizing m with
  | nil => exact hc
  | cons p ps ih =>
      apply ih
      unfold ItemInterner.registerItem
      simp only [SortedMap.get?_map, hc, Option.map_none]

/-- Registering items changes nothing but the items and the categories. -/
theorem foldl_registerItem_frame (m : Model) (ps : List (CategoryId × String × ItemId)) :
    ps.foldl ItemInterner.registerItem m =
      { m with
        items := (ps.foldl ItemInterner.registerItem m).items
        categories := (ps.foldl ItemInterner.registerItem m).categories } := by
  induction ps generalizing m with
  | nil => rfl
  | cons p ps ih => exact ih (ItemInterner.registerItem m p)

/-- The interned names of a category are of different items. -/
theorem Minting.nodup (h : Minting m it) (hw : Walk it ps) (c : CategoryId) :
    ((ps.filter fun p => p.1 = c).map fun p => p.2.2).Nodup := by
  have hnodup : (ps.filter fun p => p.1 = c).Nodup :=
    (hw.perm.nodup_iff.mpr (ItemInterner.nodup_pairs it)).filter _
  refine (List.nodup_map_iff_inj_on hnodup).mpr ?_
  rintro ⟨c₁, n₁, i⟩ h₁ ⟨c₂, n₂, j⟩ h₂ hij
  have hmem : ∀ c n i, (c, n, i) ∈ ps.filter (fun p => p.1 = c) → it.map.find c n = some i :=
    fun c n i hi => ItemInterner.mem_pairs_iff.mp (hw.perm.mem_iff.mp (List.mem_filter.mp hi).1)
  have hc₁ : c₁ = c := by simpa using (List.mem_filter.mp h₁).2
  have hc₂ : c₂ = c := by simpa using (List.mem_filter.mp h₂).2
  change i = j at hij
  subst hc₁ hc₂ hij
  obtain ⟨-, rfl⟩ := h.injective _ _ _ _ _ (hmem _ _ _ h₁) (hmem _ _ _ h₂)
  rfl

theorem nodup_unlisted {c : CategoryId} (x : Category)
    (h : ((ps.filter fun p => p.1 = c).map fun p => p.2.2).Nodup) : (unlisted c x ps).Nodup := by
  refine h.sublist (List.Sublist.map _ (List.monotone_filter_right ps ?_))
  intro p hp
  simp only [Bool.and_eq_true] at hp
  exact hp.1

theorem mem_unlisted (hw : Walk it ps) {c : CategoryId} {x : Category} {i : ItemId} :
    i ∈ unlisted c x ps ↔ i ∉ x.items ∧ ∃ n, it.map.find c n = some i := by
  unfold unlisted
  simp only [List.mem_map, List.mem_filter, Bool.and_eq_true, decide_eq_true_eq,
    Bool.not_eq_true', Prod.exists, hw.perm.mem_iff, ItemInterner.mem_pairs_iff]
  constructor
  · rintro ⟨c', n, i', ⟨hfind, rfl, hin⟩, rfl⟩
    exact ⟨by simpa using hin, n, hfind⟩
  · rintro ⟨hin, n, hfind⟩
    exact ⟨c, n, i, ⟨hfind, rfl, by simpa using hin⟩, rfl⟩

end Registering

end Improv.PgModel
