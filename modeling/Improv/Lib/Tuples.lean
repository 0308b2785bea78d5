import Mathlib.Algebra.BigOperators.Group.List.Basic
import Mathlib.Data.List.Lex
import Mathlib.Data.List.Nodup
import Mathlib.Data.List.Sort
import Mathlib.Data.Prod.Lex
/-!
# Tuples and coordinates

The combinations of one option per key, in row-major order, and what they make
when they are put together and sorted by key: each way to choose an option for
every key, once.
-/

namespace Improv.Lib.Tuples

variable {κ α : Type*}

/-- Every combination of one option per key, the first key's option changing
last. -/
def tuples (options : κ → List α) : List κ → List (List (κ × α))
  | [] => [[]]
  | k :: keys => (options k).flatMap fun a => (tuples options keys).map ((k, a) :: ·)

variable {options : κ → List α} {keys : List κ}

theorem mem_tuples {t : List (κ × α)} :
    t ∈ tuples options keys ↔ t.map (·.1) = keys ∧ ∀ p ∈ t, p.2 ∈ options p.1 := by
  induction keys generalizing t with
  | nil =>
      rw [tuples, List.mem_singleton, List.map_eq_nil_iff]
      constructor
      · intro h
        exact ⟨h, by simp [h]⟩
      · exact And.left
  | cons k keys ih =>
      simp only [tuples, List.mem_flatMap, List.mem_map]
      constructor
      · rintro ⟨a, ha, t, ht, rfl⟩
        have ⟨hkeys, hoptions⟩ := ih.mp ht
        refine ⟨by rw [List.map_cons, hkeys], ?_⟩
        rw [List.forall_mem_cons]
        exact ⟨ha, hoptions⟩
      · intro ⟨hkeys, hoptions⟩
        cases t with
        | nil => cases hkeys
        | cons p t =>
            rw [List.map_cons, List.cons.injEq] at hkeys
            rw [List.forall_mem_cons] at hoptions
            refine ⟨p.2, hkeys.1 ▸ hoptions.1, t, ih.mpr ⟨hkeys.2, hoptions.2⟩, ?_⟩
            rw [← hkeys.1]

theorem nodup_tuples (hoptions : ∀ k ∈ keys, (options k).Nodup) :
    (tuples options keys).Nodup := by
  induction keys with
  | nil => exact List.nodup_singleton _
  | cons k keys ih =>
      have ⟨hk, hkeys⟩ := List.forall_mem_cons.mp hoptions
      rw [tuples, List.nodup_flatMap]
      constructor
      · intro a _
        exact (ih hkeys).map fun t u h => (List.cons.inj h).2
      · refine hk.imp fun {a b} hab => ?_
        show List.Disjoint _ _
        rw [List.disjoint_left]
        intro t hta htb
        obtain ⟨u, _, rfl⟩ := List.mem_map.mp hta
        obtain ⟨v, _, hv⟩ := List.mem_map.mp htb
        exact hab (congrArg Prod.snd (List.cons.inj hv).1).symm

theorem length_tuples (options : κ → List α) (keys : List κ) :
    (tuples options keys).length = (keys.map fun k => (options k).length).prod := by
  induction keys with
  | nil => rfl
  | cons k keys ih =>
      rw [tuples, List.length_flatMap, List.map_cons, List.prod_cons, ← ih]
      simp

/-- The tuples grown key by key, each by every option at its end. -/
theorem foldl_tuples (options : κ → List α) (keys : List κ) (out : List (List (κ × α))) :
    keys.foldl (fun out k => out.flatMap fun t => (options k).map fun a => t ++ [(k, a)]) out =
      out.flatMap fun t => (tuples options keys).map (t ++ ·) := by
  induction keys generalizing out with
  | nil => simp [tuples]
  | cons k keys ih =>
      rw [List.foldl_cons, ih]
      simp [tuples, List.flatMap_assoc, List.flatMap_map, List.map_flatMap, Function.comp_def]

/-! ## Tuples by number -/

/-- The options at a number, one of each list, the last list's the number's
lowest digit; the rest of the number beside them. -/
def decode : List (List α) → Nat → Option (List α) × Nat
  | [], i => (some [], i)
  | list :: lists, i =>
    let rest := decode lists i
    (list[rest.2 % list.length]?.bind fun a => rest.1.map (a :: ·), rest.2 / list.length)

theorem decode_snd (lists : List (List α)) (i : Nat) :
    (decode lists i).2 = i / (lists.map List.length).prod := by
  induction lists with
  | nil => exact (Nat.div_one i).symm
  | cons list lists ih =>
      rw [decode, ih, Nat.div_div_eq_div_mul, List.map_cons, List.prod_cons, Nat.mul_comm]

theorem getElem?_flatMap_map {β γ : Type*} (as : List α) (bs : List β) (f : α → β → γ) (i : Nat)
    (hbs : 0 < bs.length) :
    (as.flatMap fun a => bs.map (f a))[i]? =
      as[i / bs.length]?.bind fun a => bs[i % bs.length]?.map (f a) := by
  induction as generalizing i with
  | nil => rfl
  | cons a as ih =>
      rw [List.flatMap_cons]
      by_cases hi : i < bs.length
      · rw [List.getElem?_append_left (by rwa [List.length_map]), Nat.div_eq_of_lt hi,
          Nat.mod_eq_of_lt hi, List.getElem?_cons_zero, Option.bind_some, List.getElem?_map]
      · have hle := not_lt.mp hi
        rw [List.getElem?_append_right (by rwa [List.length_map]), List.length_map, ih,
          Nat.div_eq_sub_div hbs hle, List.getElem?_cons_succ, Nat.mod_eq_sub_mod hle]

/-- A number's tuple is the one at it, counted round. -/
theorem zip_decode (hoptions : 0 < (tuples options keys).length) (i : Nat) :
    (decode (keys.map options) i).1.map keys.zip =
      (tuples options keys)[i % (tuples options keys).length]? := by
  induction keys with
  | nil =>
      rw [tuples, List.length_singleton, Nat.mod_one]
      rfl
  | cons k keys ih =>
      have hcount : (tuples options (k :: keys)).length =
          (tuples options keys).length * (options k).length := by
        rw [length_tuples, length_tuples, List.map_cons, List.prod_cons, Nat.mul_comm]
      rw [hcount] at hoptions ⊢
      have hrest : 0 < (tuples options keys).length := Nat.pos_of_mul_pos_right hoptions
      have hprod : ((keys.map options).map List.length).prod = (tuples options keys).length := by
        rw [List.map_map, length_tuples]
        rfl
      rw [tuples, getElem?_flatMap_map _ _ (fun a t => (k, a) :: t) _ hrest,
        Nat.mod_mul_right_div_self, Nat.mod_mul_right_mod, ← ih hrest, List.map_cons, decode,
        decode_snd, hprod]
      cases (options k)[i / (tuples options keys).length % (options k).length]? with
      | none => rfl
      | some a => cases (decode (keys.map options) i).1 <;> rfl

/-! ## Coordinates -/

/-- Lists of the same keys in the same order that hold the same pairs. -/
theorem eq_of_perm_of_keys {pairs pairs' : List (κ × α)} (hperm : pairs.Perm pairs')
    (hkeys : pairs.map (·.1) = pairs'.map (·.1)) (hnodup : (pairs.map (·.1)).Nodup) :
    pairs = pairs' := by
  induction pairs generalizing pairs' with
  | nil => exact hperm.nil_eq
  | cons p ps ih =>
      cases pairs' with
      | nil => cases hkeys
      | cons q qs =>
          rw [List.map_cons, List.map_cons, List.cons.injEq] at hkeys
          rw [List.map_cons, List.nodup_cons] at hnodup
          have hp : p = q := by
            rcases List.mem_cons.mp (hperm.mem_iff.mp List.mem_cons_self) with hp | hp
            · exact hp
            · rw [hkeys.2] at hnodup
              exact absurd (List.mem_map_of_mem hp) hnodup.1
          subst hp
          rw [ih hperm.cons_inv hkeys.2 hnodup.2]

/-- The keys for which there is something. -/
theorem keys_filterMap {β : Type*} (f : κ → Option β) (g : β → α) (keys : List κ) :
    (keys.filterMap fun k => (f k).map fun b => (k, g b)).map (·.1) =
      keys.filter fun k => (f k).isSome := by
  induction keys with
  | nil => rfl
  | cons k keys ih =>
      rw [List.filterMap_cons, List.filter_cons]
      cases f k with
      | none => exact ih
      | some b => exact congrArg (k :: ·) ih

/-- Keys that pairs have, with what the pairs give each. -/
theorem exists_pairs {pairs : List (κ × α)} (h : keys ⊆ pairs.map (·.1)) :
    ∃ t, t.map (·.1) = keys ∧ t ⊆ pairs := by
  induction keys with
  | nil => exact ⟨[], rfl, List.nil_subset pairs⟩
  | cons k keys ih =>
      have ⟨hk, hkeys⟩ := List.cons_subset.mp h
      obtain ⟨t, rfl, ht⟩ := ih hkeys
      obtain ⟨p, hp, rfl⟩ := List.mem_map.mp hk
      exact ⟨p :: t, rfl, List.cons_subset.mpr ⟨hp, ht⟩⟩

theorem keys_cell (page : List (κ × α)) {rows cols : List κ} {row col : List (κ × α)}
    (hrow : row ∈ tuples options rows) (hcol : col ∈ tuples options cols) :
    (row ++ col ++ page).map (·.1) = rows ++ cols ++ page.map (·.1) := by
  rw [List.map_append, List.map_append, (mem_tuples.mp hrow).1, (mem_tuples.mp hcol).1]

section Coordinates

variable [LinearOrder κ] [LinearOrder α]

/-- Pairs sorted by key, and by option where a key is twice. -/
def arrange (pairs : List (κ × α)) : List (κ × α) :=
  ((pairs.map toLex).mergeSort (· ≤ ·)).map ofLex

theorem arrange_perm (pairs : List (κ × α)) : (arrange pairs).Perm pairs := by
  have hsort := (List.mergeSort_perm (pairs.map toLex) (· ≤ ·)).map ofLex
  rw [List.map_map, show (ofLex ∘ toLex : κ × α → κ × α) = id from rfl, List.map_id] at hsort
  exact hsort

theorem pairwise_arrange {pairs : List (κ × α)} (h : (pairs.map (·.1)).Nodup) :
    (arrange pairs).Pairwise fun a b => a.1 < b.1 := by
  have hkeys : ((arrange pairs).map (·.1)).Nodup := ((arrange_perm pairs).map _).nodup_iff.mpr h
  have hle : (arrange pairs).Pairwise fun a b => a.1 ≤ b.1 := by
    unfold arrange
    rw [List.pairwise_map]
    refine (List.pairwise_mergeSort' (· ≤ ·) (pairs.map toLex)).imp fun {a b} hab => ?_
    exact Prod.Lex.monotone_fst a b hab
  exact hle.imp₂ (fun _ _ hle hne => lt_of_le_of_ne hle hne) (List.pairwise_map.mp hkeys)

/-- Pairs in key order are what arranging them gives. -/
theorem eq_arrange {pairs coord : List (κ × α)} (hperm : coord.Perm pairs)
    (hsorted : coord.Pairwise fun a b => a.1 < b.1) : coord = arrange pairs := by
  have hkeys : (pairs.map (·.1)).Nodup :=
    (hperm.map _).nodup_iff.mp (List.pairwise_map.mpr (hsorted.imp fun h => h.ne))
  refine List.Perm.eq_of_pairwise ?_ hsorted (pairwise_arrange hkeys) ?_
  · intro a b _ _ hab hba
    exact absurd (hab.trans hba) (lt_irrefl _)
  · exact hperm.trans (arrange_perm pairs).symm

/-- Pairs of the same keys in the same order are equal when their arrangements
are. -/
theorem arrange_inj {pairs pairs' : List (κ × α)} (hkeys : pairs.map (·.1) = pairs'.map (·.1))
    (hnodup : (pairs.map (·.1)).Nodup) (h : arrange pairs = arrange pairs') : pairs = pairs' := by
  have hperm := arrange_perm pairs
  rw [h] at hperm
  exact eq_of_perm_of_keys (hperm.symm.trans (arrange_perm pairs')) hkeys hnodup

/-! ## The cells of a page -/

variable {rows cols : List κ} {page : List (κ × α)}

/-- The coordinate where a row and a column meet on a page. -/
def cellAt (page row col : List (κ × α)) : List (κ × α) := arrange (row ++ col ++ page)

/-- A coordinate on a page: each key once, in order, and of each key an option,
the page's where the page has the key. -/
structure OnPage (options : κ → List α) (keys : List κ) (page coord : List (κ × α)) : Prop where
  keys : (coord.map (·.1)).Perm keys
  sorted : coord.Pairwise fun a b => a.1 < b.1
  options : ∀ p ∈ coord, p.2 ∈ options p.1
  page : page ⊆ coord

/-- The cells of a page are the coordinates on it. -/
theorem onPage_iff (hnodup : (rows ++ cols ++ page.map (·.1)).Nodup)
    (hpage : ∀ p ∈ page, p.2 ∈ options p.1) (coord : List (κ × α)) :
    OnPage options (rows ++ cols ++ page.map (·.1)) page coord ↔
      ∃ row ∈ tuples options rows, ∃ col ∈ tuples options cols, coord = cellAt page row col := by
  constructor
  · intro h
    have hsubset := h.keys.symm.subset
    rw [List.append_subset, List.append_subset] at hsubset
    obtain ⟨row, hrow, hrowc⟩ := exists_pairs hsubset.1.1
    obtain ⟨col, hcol, hcolc⟩ := exists_pairs hsubset.1.2
    have hrow' : row ∈ tuples options rows :=
      mem_tuples.mpr ⟨hrow, fun p hp => h.options p (hrowc hp)⟩
    have hcol' : col ∈ tuples options cols :=
      mem_tuples.mpr ⟨hcol, fun p hp => h.options p (hcolc hp)⟩
    refine ⟨row, hrow', col, hcol', eq_arrange ?_ h.sorted⟩
    -- all pairs of the coordinate are used, since there are no more keys than these
    have hkeys := keys_cell page hrow' hcol'
    have hpairs : (row ++ col ++ page).Nodup := .of_map (·.1) (hkeys ▸ hnodup)
    have hin : row ++ col ++ page ⊆ coord :=
      List.append_subset.mpr ⟨List.append_subset.mpr ⟨hrowc, hcolc⟩, h.page⟩
    have hlen : coord.length = (row ++ col ++ page).length := by
      calc
        coord.length = (coord.map (·.1)).length := (List.length_map _).symm
        _ = ((row ++ col ++ page).map (·.1)).length := by rw [h.keys.length_eq, hkeys]
        _ = (row ++ col ++ page).length := List.length_map _
    exact ((List.subperm_of_subset hpairs hin).perm_of_length_le hlen.le).symm
  · rintro ⟨row, hrow, col, hcol, rfl⟩
    have hkeys := keys_cell page hrow hcol
    have hperm := arrange_perm (row ++ col ++ page)
    constructor
    · rw [← hkeys]
      exact hperm.map _
    · apply pairwise_arrange
      rwa [hkeys]
    · intro p hp
      have hmem := hperm.mem_iff.mp hp
      rw [List.mem_append, List.mem_append] at hmem
      rcases hmem with (hmem | hmem) | hmem
      · exact (mem_tuples.mp hrow).2 p hmem
      · exact (mem_tuples.mp hcol).2 p hmem
      · exact hpage p hmem
    · intro p hp
      exact hperm.mem_iff.mpr (List.mem_append_right _ hp)

/-- Two rows and columns that meet in one cell are the same. -/
theorem cellAt_inj (hnodup : (rows ++ cols ++ page.map (·.1)).Nodup)
    {row row' col col' : List (κ × α)} (hrow : row ∈ tuples options rows)
    (hrow' : row' ∈ tuples options rows) (hcol : col ∈ tuples options cols)
    (hcol' : col' ∈ tuples options cols) (h : cellAt page row col = cellAt page row' col') :
    row = row' ∧ col = col' := by
  have hkeys := keys_cell page hrow hcol
  have heq := arrange_inj (hkeys.trans (keys_cell page hrow' hcol').symm) (hkeys ▸ hnodup) h
  have hlen : row.length = row'.length := by
    rw [← List.length_map (·.1), (mem_tuples.mp hrow).1, ← (mem_tuples.mp hrow').1,
      List.length_map]
  rw [List.append_assoc, List.append_assoc] at heq
  have ⟨hr, hrest⟩ := List.append_inj heq hlen
  exact ⟨hr, List.append_cancel_right hrest⟩

end Coordinates

end Improv.Lib.Tuples
