import Improv.Engine.TwoLevelFlat
/-!
# Two-level reductions

A group's rows in blocks, each reduced in item order, and the parts merged in
any order, against the flat reduction of all the rows in item order.
-/

namespace Improv.Engine.TwoLevel

open Lib CoreModel Kernels Builtins

/-! ## Item order -/

/-- The places of the items along a reduced category: each item has its own. -/
structure Places where
  pos : Nat → Nat
  injective : Function.Injective pos

namespace Places

/-- The places of `items`, a category's items in order.  Unknown items sort by
id after known ones. -/
def ofItems (items : List Nat) (_ : items.Nodup) (hlen : items.length ≤ 2 ^ 31 - 1) :
    Places where
  pos item := if item ∈ items then items.idxOf item else 2 ^ 31 - 1 + item
  injective := by
    intro a b hab
    dsimp only at hab
    have hindex : ∀ i ∈ items, items.idxOf i < 2 ^ 31 - 1 := fun i hi =>
      (List.idxOf_lt_length_of_mem hi).trans_le hlen
    by_cases ha : a ∈ items
    · have hlta := hindex a ha
      by_cases hb : b ∈ items
      · rw [if_pos ha, if_pos hb] at hab
        exact (List.idxOf_inj ha).mp hab
      · rw [if_pos ha, if_neg hb] at hab
        omega
    · by_cases hb : b ∈ items
      · have hltb := hindex b hb
        rw [if_neg ha, if_pos hb] at hab
        omega
      · rw [if_neg ha, if_neg hb] at hab
        omega

variable (P : Places)

/-- What the rows of a group sort by: place, item and value. -/
def key (r : Nat × CellValue) : ℕ ×ₗ ℕ ×ₗ CellValue := toLex (P.pos r.1, toLex r)

/-- Rows of item and value in item order, each at its item's place. -/
def inOrder (rows : List (Nat × CellValue)) : List Row :=
  (rows.mergeSort fun a b => decide (P.key a ≤ P.key b)).map fun r => (P.pos r.1, r.2)

theorem inOrder_perm (rows : List (Nat × CellValue)) :
    (P.inOrder rows).Perm (rows.map fun r => (P.pos r.1, r.2)) :=
  (List.mergeSort_perm rows _).map _

theorem length_inOrder (rows : List (Nat × CellValue)) : (P.inOrder rows).length = rows.length := by
  rw [(P.inOrder_perm rows).length_eq, List.length_map]

theorem inOrder_eq_nil {rows : List (Nat × CellValue)} : P.inOrder rows = [] ↔ rows = [] := by
  rw [← List.length_eq_zero_iff, length_inOrder, List.length_eq_zero_iff]

theorem inOrder_inOrder (rows : List (Nat × CellValue)) : InOrder (P.inOrder rows) := by
  have hsorted := @List.pairwise_mergeSort _ (fun a b => decide (P.key a ≤ P.key b))
    (fun a b c hab hbc => by
      rw [decide_eq_true_eq] at hab hbc ⊢
      exact hab.trans hbc)
    (fun a b => by
      rw [Bool.or_eq_true, decide_eq_true_eq, decide_eq_true_eq]
      exact le_total _ _) rows
  refine List.pairwise_map.mpr (hsorted.imp fun {a b} hle => ?_)
  have hkey : P.key a ≤ P.key b := of_decide_eq_true hle
  unfold key at hkey
  rw [Prod.Lex.toLex_le_toLex] at hkey ⊢
  refine hkey.imp_right fun htie => ⟨htie.1, ?_⟩
  have hitem : a.1 = b.1 := P.injective htie.1
  have hlex := Prod.Lex.toLex_le_toLex.mp htie.2
  exact hlex.elim (fun hlt => absurd hlt (by omega)) fun hvalue => hvalue.2

/-- Any split of the rows holds, in all, the rows in item order. -/
theorem flatten_inOrder {parts : List (List (Nat × CellValue))} {rows : List (Nat × CellValue)}
    (h : parts.flatten.Perm rows) : (parts.map P.inOrder).flatten.Perm (P.inOrder rows) := by
  refine List.Perm.trans ?_ ((h.map _).trans (P.inOrder_perm rows).symm)
  rw [List.map_flatten]
  apply List.Perm.flatten_congr
  rw [List.forall₂_map_left_iff, List.forall₂_map_right_iff, List.forall₂_same]
  exact fun l _ => P.inOrder_perm l

end Places

/-! ## The reductions -/

variable {id : Nat}

/-- Every run of rows reduces to a part. -/
theorem exists_parts (hid : Decomposable id) (capacity : Nat) {ls : List (List Row)}
    (hlen : id = 1 ∨ id = 2 → ls.flatten.length < 2 ^ 45) :
    ∃ Ps, (ls.map (rowsOf capacity)).mapM (part ⟨id⟩) = some Ps ∧
      List.Forall₂ (Tells id) ls Ps := by
  induction ls with
  | nil => exact ⟨[], rfl, List.Forall₂.nil⟩
  | cons l ls ih =>
      rw [List.flatten_cons, List.length_append] at hlen
      obtain ⟨P, hpart, hP⟩ := part_spec hid capacity l fun h => by have := hlen h; omega
      obtain ⟨Ps, hparts, hPs⟩ := ih fun h => by have := hlen h; omega
      refine ⟨P :: Ps, ?_, List.Forall₂.cons hP hPs⟩
      rw [List.map_cons, List.mapM_cons, hpart, hparts]
      rfl

theorem decomposable_of_applies {func : FuncId} {nIn nParams : Nat} {order : ItemOrder}
    (h : applies func nIn nParams order = true) : Decomposable func.id ∧ nIn = 1 ∧ nParams = 0 := by
  unfold applies at h
  simp only [Bool.and_eq_true, Bool.or_eq_true, decide_eq_true_eq, beq_iff_eq] at h
  exact ⟨h.1.1.1.elim (fun h => h.elim Or.inl fun h => Or.inr (Or.inl h)) fun h =>
    Or.inr (Or.inr h), h.1.1.2, h.1.2⟩

/-- A merge's finish against the flat reduction, whichever the function. -/
theorem Merged.finish_reduce {ls : List (List Row)} {l : List Row} {M : Part}
    (h : Merged id ls M) (hperm : ls.flatten.Perm l) (hl : InOrder l) (hid : Decomposable id)
    (families : Families) (capacity : Nat) (hlen : l.length < 2 ^ 59)
    (hsum : id = 1 ∨ id = 2 → l.length ≤ 2 ^ 45 - 2 ^ 13) :
    ∃ v, reduce families ⟨id⟩ (rowsOf capacity l) [] = some v ∧ finish ⟨id⟩ M =
      if (id = 5 ∨ id = 6) ∧ (∀ r ∈ l, readable id r.2 = true) then num (twoLevelFold id ls)
      else v := by
  by_cases hcore : 1 ≤ id ∧ id ≤ 9
  · obtain ⟨v, hv, hfinish⟩ := h.finish_flat capacity hperm hl hcore (by omega) hsum
    exact ⟨v, (reduce_core hcore _).trans hv, hfinish⟩
  · have hcol : (rowsOf capacity l).col 0 = l.map (·.2) := by
      unfold Rows.col rowsOf
      rw [← filterMap_map_singleton (l.map (·.2)), List.map_map]
      rfl
    unfold reduce
    rw [if_neg (by dsimp only; unfold Decomposable at hid; omega)]
    simp only [List.find?_nil]
    rw [if_neg hcore, hcol]
    obtain rfl | rfl : id = 1005 ∨ id = 1006 := by unfold Decomposable at hid; omega
    · refine ⟨_, rfl, ?_⟩
      rw [if_neg (by omega)]
      have hk : M.k = (l.map (·.2)).countP isNumber := h.k_eq hperm
      have hlt : M.k < 2 ^ 61 := by
        have hle := List.countP_le_length (p := isNumber) (l := l.map (·.2))
        rw [List.length_map] at hle
        omega
      rw [← hk, num_ofNat hlt]
      rfl
    · refine ⟨_, rfl, ?_⟩
      rw [if_neg (by omega)]
      have hn : M.n = l.length := h.n.trans hperm.length_eq
      have hvals : (rowsOf capacity l).vals.length = M.n := by
        rw [hn]
        exact List.length_map _
      rw [hvals, num_ofNat (by omega)]
      rfl

/-- A group that reduces in two levels has the results of the flat reduction of
all its rows in item order, however the rows are split into blocks and in
whatever order the parts merge: the same value or error, and none where there
are no rows.  Where every value is readable, `PRODUCT` and `SUMSQ` give the fold
of the blocks' folds.  A group holds no more rows than a vector of them can, and
for `SUM` and `AVERAGE` no more than an exact sum has room to merge. -/
theorem twoLevel_eq_flat {func : FuncId} {nIn nParams : Nat} {order : ItemOrder}
    (happlies : applies func nIn nParams order = true) (P : Places) (families : Families)
    (capacity : Nat) {rows : List (Nat × CellValue)} {parts : List (List (Nat × CellValue))}
    (hsplit : parts.flatten.Perm rows) (hlen : rows.length < 2 ^ 59)
    (hsum : func.id = 1 ∨ func.id = 2 → rows.length ≤ 2 ^ 45 - 2 ^ 13) :
    ∃ vs, flatGroup families func (rowsOf capacity (P.inOrder rows)) [] = some vs ∧
      (rows = [] ↔ vs = []) ∧
      twoLevelGroup func (parts.map fun l => rowsOf capacity (P.inOrder l)) = some
        (if (func.id = 5 ∨ func.id = 6) ∧ rows ≠ [] ∧
              (∀ r ∈ rows, readable func.id r.2 = true) then
            [num (twoLevelFold func.id ((parts.map P.inOrder).filter (!·.isEmpty)))]
          else vs) := by
  obtain ⟨id⟩ := func
  dsimp only at hsum ⊢
  have hid : Decomposable id := (decomposable_of_applies happlies).1
  let l := P.inOrder rows
  let ls := (parts.map P.inOrder).filter (!·.isEmpty)
  have hl : InOrder l := P.inOrder_inOrder rows
  have hllen : l.length = rows.length := P.length_inOrder rows
  have hls : ∀ l ∈ ls, InOrder l := fun l hl => by
    obtain ⟨r, -, rfl⟩ := List.mem_map.mp (List.mem_of_mem_filter hl)
    exact P.inOrder_inOrder r
  have hperm : ls.flatten.Perm l := by
    have hflat : ls.flatten = (parts.map P.inOrder).flatten := List.flatten_filter_not_isEmpty
    rw [hflat]
    exact P.flatten_inOrder hsplit
  have hflatlen : ls.flatten.length = rows.length := hperm.length_eq.trans hllen
  have hblocks : (parts.map fun l => rowsOf capacity (P.inOrder l)).filter
      (fun rs => !rs.vals.isEmpty) = ls.map (rowsOf capacity) := by
    have hmap : (parts.map fun l => rowsOf capacity (P.inOrder l)) =
        (parts.map P.inOrder).map (rowsOf capacity) := by rw [List.map_map]; rfl
    rw [hmap, List.filter_map]
    congr 1
    refine List.filter_congr fun l _ => ?_
    cases l <;> rfl
  have hempty : ls = [] ↔ rows = [] := by
    rw [← @Places.inOrder_eq_nil P rows]
    constructor
    · intro hnil
      rw [hnil] at hperm
      exact hperm.symm.eq_nil
    · intro hnil
      have hflat : ls.flatten = [] := by
        have := hperm
        rw [show l = [] from hnil] at this
        exact this.eq_nil
      rw [List.eq_nil_iff_forall_not_mem]
      intro l' hl'
      have hl'nil : l' = [] := List.flatten_eq_nil_iff.mp hflat l' hl'
      have hne := (List.mem_filter.mp hl').2
      rw [hl'nil] at hne
      cases hne
  obtain ⟨Ps, hparts, hPs⟩ := @exists_parts _ hid capacity ls fun h => by
    rw [hflatlen]
    have := hsum h
    omega
  unfold twoLevelGroup flatGroup
  rw [hblocks, hparts, Option.bind_eq_bind, Option.bind_some]
  by_cases hnil : rows = []
  · have hPsnil : Ps = [] := by
      have hnone := hempty.mpr hnil
      rw [hnone] at hPs
      cases hPs
      rfl
    have hlnil : P.inOrder rows = [] := P.inOrder_eq_nil.mpr hnil
    refine ⟨[], ?_, ⟨fun _ => rfl, fun _ => hnil⟩, ?_⟩
    · rw [hlnil]
      rfl
    · rw [hPsnil, List.isEmpty_nil, if_pos rfl, if_neg fun hc => hc.2.1 hnil]
  · obtain ⟨M, hmerge, hM⟩ := merge_spec hls hPs fun h => by
      rw [hflatlen]
      have := hsum h
      omega
    obtain ⟨v, hv, hfinish⟩ := hM.finish_reduce hperm hl hid families capacity (by omega)
      fun h => by rw [hllen]; exact hsum h
    have hPsne : Ps.isEmpty = false := by
      rw [List.isEmpty_eq_false_iff]
      intro hPsnil
      rw [hPsnil] at hPs
      exact hnil (hempty.mp (List.forall₂_nil_right_iff.mp hPs))
    have hvals : (rowsOf capacity (P.inOrder rows)).vals.isEmpty = false := by
      cases hrows : P.inOrder rows with
      | nil => exact absurd (P.inOrder_eq_nil.mp hrows) hnil
      | cons _ _ => rfl
    have hreadable : (∀ r ∈ l, readable id r.2 = true) ↔ ∀ r ∈ rows, readable id r.2 = true := by
      have hmem : ∀ r, r ∈ l ↔ r ∈ rows.map fun r => (P.pos r.1, r.2) :=
        fun r => (P.inOrder_perm rows).mem_iff
      simp only [hmem, List.mem_map, forall_exists_index, and_imp, forall_apply_eq_imp_iff₂]
    refine ⟨[v], ?_, ⟨fun hc => absurd hc hnil, fun hc => absurd hc (List.cons_ne_nil v [])⟩, ?_⟩
    · rw [hvals, if_neg (by decide)]
      exact congrArg (Option.map ([·])) hv
    · rw [hPsne, if_neg (by decide), hmerge, Option.bind_eq_bind, Option.bind_some, hfinish]
      by_cases hfold : (id = 5 ∨ id = 6) ∧ ∀ r ∈ rows, readable id r.2 = true
      · rw [if_pos ⟨hfold.1, hreadable.mpr hfold.2⟩, if_pos ⟨hfold.1, hnil, hfold.2⟩]
      · rw [if_neg fun hc => hfold ⟨hc.1, hreadable.mp hc.2⟩, if_neg fun hc => hfold ⟨hc.1, hc.2.2⟩]

/-- A category of 1,025 items. -/
def longOrder : ItemOrder := [(⟨0⟩, (List.range 1025).map ItemId.mk)]

theorem applies_longOrder {func : FuncId} (hfunc : 1 ≤ func.id ∧ func.id ≤ 9) :
    applies func 1 0 longOrder = true := by
  unfold applies longOrder
  dsimp only
  rw [decide_eq_true hfunc, List.length_map, List.length_range]
  rfl

/-- The sum of 1, text and an error, whose items' blocks merge out of order. -/
theorem twoLevel_eq_flat_outOfOrder :
    let places : Places := ⟨fun i => i, fun _ _ h => h⟩
    let one : Nat × CellValue := (0, .ofF64 (.ofNat 1))
    let text : Nat × CellValue := (3000, .text "")
    let bad : Nat × CellValue := (2000, .err Err.DIV0)
    ∃ vs, flatGroup (fun _ _ _ => none) ⟨1⟩ (rowsOf 1025 (places.inOrder [one, bad, text])) [] =
        some vs ∧
      twoLevelGroup ⟨1⟩ ([[bad], [], [text, one]].map fun l => rowsOf 1025 (places.inOrder l)) =
        some vs := by
  intro places one text bad
  have hsplit : [[bad], [], [text, one]].flatten.Perm [one, bad, text] :=
    ((List.Perm.swap one text []).cons bad).trans (List.Perm.swap one bad [text])
  obtain ⟨vs, hflat, -, htwo⟩ := twoLevel_eq_flat
    (applies_longOrder (by decide : 1 ≤ (⟨1⟩ : FuncId).id ∧ (⟨1⟩ : FuncId).id ≤ 9)) places
    (fun _ _ _ => none) 1025 hsplit (by decide) fun _ => by decide
  rw [if_neg (by dsimp only; omega)] at htwo
  exact ⟨vs, hflat, htwo⟩

/-- The product of 2^600, 2^600 and 2^-600: the flat fold is infinite on its
way, that of the last two rows' block is not. -/
theorem product_not_flat :
    let huge : CellValue := .ofF64 (.ofRatio false (2 ^ 600) 1)
    let tiny : CellValue := .ofF64 (.ofRatio false 1 (2 ^ 600))
    applies ⟨5⟩ 1 0 longOrder = true ∧
      flatGroup (fun _ _ _ => none) ⟨5⟩ (rowsOf 1025 [(0, huge), (1024, huge), (1025, tiny)]) [] =
        some [.err Err.NUM] ∧
      twoLevelGroup ⟨5⟩ [rowsOf 1025 [(0, huge)], rowsOf 1025 [(1024, huge), (1025, tiny)]] =
        some [huge] := by
  exact ⟨applies_longOrder (by decide), by decide +kernel, by decide +kernel⟩

end Improv.Engine.TwoLevel
