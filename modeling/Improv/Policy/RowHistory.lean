import Improv.Policy.RowTables
/-!
# Row checks after any history

A session keeps the row checks it has built, their decisions so far and its
hide lists.  Whatever was asked before, what it keeps is right, so each answer
is the one of a new session.
-/

namespace Improv.Policy.Restricted

open Improv.Lib Improv.CoreModel Improv.Service
open Improv.Lib.Cached (Yields)

variable {r : Restricted} {m : MeasureId} {rows : Rows}

/-! ## What is kept -/

/-- A row check that is the measure's own but for the decisions made, each of
which is its rows' decision. -/
structure RightRows (r : Restricted) (m : MeasureId) (rows : Rows) : Prop where
  fresh : ∃ decided, r.freshRows m = some { rows with decided }
  dense : rows.decided.length ≤ dense
  decided : ∀ found, r.Found rows.cats found → ∀ shown,
    rows.decided[rows.slot found]? = some (some shown) →
      r.session.cellVisible m (rows.coord (found.map (·.2))) = shown

/-- A measure's hide lists, as a new session answers. -/
def hideListsOf (r : Restricted) (m : MeasureId) : Except Panic (Option HideLists) :=
  match r.freshRows m with
  | none => .ok none
  | some rows => ((r.hideLists rows).ask .empty).1

structure Kept (r : Restricted) (kept : SortedMap MeasureId Rows)
    (fast : SortedMap MeasureId (Option HideLists)) : Prop where
  rows : ∀ m rows, kept.get? m = some rows → r.RightRows m rows
  fast : ∀ m lists, fast.get? m = some lists → r.hideListsOf m = .ok lists

/-- The caches of a session, after whatever it was asked. -/
abbrev Right (r : Restricted) : Caches → Prop := r.Inv r.Kept

theorem right_empty (r : Restricted) : r.Right .empty where
  decisions _ _ _ h := by cases h
  kept := ⟨fun _ _ h => (by cases h), fun _ _ h => (by cases h)⟩

theorem of_rightRows (hrows : r.RightRows m rows) : ∃ measure,
    r.model.measures.get? m = some measure ∧ rows.measure = m ∧ rows.cats = measure.categories ∧
      rows.dims = rows.cats.map (fun c => SortedMap.ofList (r.classed c)) ∧
      rows.strides = Odometer.strides u64Max 1
        (rows.cats.map fun c => (r.namedOf c).length + 1) := by
  obtain ⟨decided, hfresh⟩ := hrows.fresh
  obtain ⟨measure, hm, heq⟩ := Option.map_eq_some_iff.mp hfresh
  have hmeasure := congrArg Rows.measure heq
  have hcats := congrArg Rows.cats heq
  have hdims := congrArg Rows.dims heq
  have hstrides := congrArg Rows.strides heq
  simp only at hmeasure hcats hdims hstrides
  exact ⟨measure, hm, hmeasure.symm, hcats.symm, by rw [← hdims, ← hcats],
    by rw [← hstrides, ← hcats]⟩

/-- A combination's slot is its number, up to the largest index. -/
theorem RightRows.slot_eq (hrows : r.RightRows m rows) {found : List (Nat × ItemId)}
    (hfound : r.Found rows.cats found) :
    rows.slot found = min (Odometer.value (rows.cats.map fun c => (r.namedOf c).length + 1)
      (found.map (·.1))) u64Max := by
  obtain ⟨_, _, _, _, _, hstrides⟩ := of_rightRows hrows
  unfold Rows.slot
  rw [hstrides]
  have hindex := Odometer.index_strides u64Max hfound.inRange 0 1
  rw [Nat.zero_add, Nat.one_mul] at hindex
  exact hindex

/-- Rows that share a slot are decided alike. -/
theorem Built.visible_of_slot (h : r.Built) (hrows : r.RightRows m rows)
    {found found' : List (Nat × ItemId)} (hfound : r.Found rows.cats found)
    (hfound' : r.Found rows.cats found') (hslot : rows.slot found = rows.slot found')
    (hdense : rows.slot found < Policy.dense) :
    r.session.cellVisible m (rows.coord (found.map (·.2))) =
      r.session.cellVisible m (rows.coord (found'.map (·.2))) := by
  obtain ⟨measure, hm, _, hcats, _⟩ := of_rightRows hrows
  have hvalue : Odometer.value (rows.cats.map fun c => (r.namedOf c).length + 1)
      (found.map (·.1)) = Odometer.value (rows.cats.map fun c => (r.namedOf c).length + 1)
        (found'.map (·.1)) := by
    rw [hrows.slot_eq hfound] at hslot hdense
    rw [hrows.slot_eq hfound'] at hslot
    unfold Policy.dense at hdense
    unfold u64Max at hslot hdense
    omega
  have htwins := hfound.twins hfound'
    (Odometer.value_inj hfound.inRange hfound'.inRange hvalue)
  refine h.cellVisible_twins (x := shapeOf measure) ?_ hcats.symm (h.ofCategories_of_found hfound)
    (h.ofCategories_of_found hfound') htwins
  rw [h.shape_measures, hm]
  rfl

/-- A decision kept at its row's slot. -/
theorem Built.rightRows_set (h : r.Built) (hrows : r.RightRows m rows)
    {found : List (Nat × ItemId)} (hfound : r.Found rows.cats found) :
    r.RightRows m { rows with
      decided := rows.decided.set (rows.slot found)
        (some (r.session.cellVisible m (rows.coord (found.map (·.2))))) } where
  fresh := hrows.fresh
  dense := by
    rw [List.length_set]
    exact hrows.dense
  decided found' hfound' shown hget := by
    have hget' : (rows.decided.set (rows.slot found)
        (some (r.session.cellVisible m (rows.coord (found.map (·.2))))))[rows.slot found']? =
          some (some shown) := hget
    show r.session.cellVisible m (rows.coord (found'.map (·.2))) = shown
    rw [List.getElem?_set] at hget'
    split at hget'
    · rename_i hslot
      split at hget'
      · rename_i hlt
        rw [← Option.some.inj (Option.some.inj hget')]
        have hdense := Nat.lt_of_lt_of_le hlt hrows.dense
        exact (h.visible_of_slot hrows hfound hfound' hslot hdense).symm
      · cases hget'
    · exact hrows.decided found' hfound' shown hget'

/-- Right row checks of a measure differ in their decisions only. -/
theorem RightRows.eq_of (hrows : r.RightRows m rows) {rows' : Rows} (hrows' : r.RightRows m rows') :
    rows' = { rows with decided := rows'.decided } := by
  obtain ⟨d, hd⟩ := hrows.fresh
  obtain ⟨d', hd'⟩ := hrows'.fresh
  have heq := Option.some.inj (hd.symm.trans hd')
  cases rows
  cases rows'
  simp only [Rows.mk.injEq] at heq ⊢
  obtain ⟨h₁, h₂, h₃, h₄, _, h₅⟩ := heq
  exact ⟨h₁.symm, h₂.symm, h₃.symm, h₄.symm, trivial, h₅.symm⟩

/-! ## A row's decision -/

/-- Whether a row's names are a cell the session shows: what the reference
says. -/
def reference (r : Restricted) (m : MeasureId) (key : List String) : Bool :=
  (r.coord m key).any (r.session.cellVisible m)

theorem Built.item_of_name (h : r.Built) (c : CategoryId) (n : String) :
    (SortedMap.ofList ((r.itemsOf c).map fun i => (i.name, i.id))).get? n =
      ((SortedMap.ofList (r.classed c)).get? n).map (·.2) := by
  have hnodup : (((r.itemsOf c).map fun i => (i.name, i.id)).map (·.1)).Nodup := by
    rw [List.map_map]
    exact h.nodup_names c
  apply Option.ext
  intro i
  rw [SortedMap.get?_ofList_of_nodup hnodup, Option.map_eq_some_iff, List.mem_map]
  constructor
  · intro ⟨x, hx, heq⟩
    obtain ⟨k, hk⟩ := exists_number hx
    have ⟨hn, hi⟩ := Prod.mk.inj heq
    exact ⟨(k, i), h.get?_names.mpr (mem_classed.mpr ⟨x, hk, hn, hi⟩), rfl⟩
  · rintro ⟨⟨k, j⟩, hget, rfl⟩
    obtain ⟨x, hx, hn, hi⟩ := mem_classed.mp (h.get?_names.mp hget)
    exact ⟨x, hx.1, by rw [hn, hi]⟩

theorem find_cons (rows : Rows) {names : SortedMap String (Nat × ItemId)}
    {dims : List (SortedMap String (Nat × ItemId))} {n : String} {key : List String} :
    Rows.find { rows with dims := names :: dims } (n :: key) =
      (names.get? n).bind fun p => (Rows.find { rows with dims := dims } key).map (p :: ·) := by
  unfold Rows.find
  simp only [List.zip_cons_cons, List.mapM_cons]
  cases names.get? n with
  | none => rfl
  | some p =>
      cases List.mapM (fun p : SortedMap String (Nat × ItemId) × String => p.1.get? p.2)
        (dims.zip key) <;> rfl

theorem Built.items_of_names (h : r.Built) (rows : Rows) (cats : List CategoryId) :
    ∀ key : List String, ((cats.zip key).mapM fun p =>
        (SortedMap.ofList ((r.itemsOf p.1).map fun i => (i.name, i.id))).get? p.2) =
      (Rows.find { rows with dims := cats.map fun c => SortedMap.ofList (r.classed c) } key).map
        (List.map (·.2)) := by
  induction cats with
  | nil =>
      intro key
      rfl
  | cons c cats ih =>
      intro key
      cases key with
      | nil => rfl
      | cons n key =>
          rw [List.zip_cons_cons, List.mapM_cons, ih key, h.item_of_name, List.map_cons, find_cons]
          cases (SortedMap.ofList (r.classed c)).get? n with
          | none => rfl
          | some p =>
              cases Rows.find { rows with
                dims := cats.map fun c => SortedMap.ofList (r.classed c) } key <;> rfl

/-- A row's coordinate, from its check. -/
theorem Built.coord_eq (h : r.Built) (hrows : r.RightRows m rows) (key : List String) :
    r.coord m key =
      if key.length = rows.dims.length then
        (rows.find key).map fun found => rows.coord (found.map (·.2))
      else none := by
  obtain ⟨measure, hm, _, hcats, hdims, _⟩ := of_rightRows hrows
  have hnames := h.items_of_names rows rows.cats key
  have hsame : { rows with dims := rows.cats.map fun c => SortedMap.ofList (r.classed c) } =
      rows := by
    rw [← hdims]
  rw [hsame] at hnames
  unfold Restricted.coord
  rw [hm]
  simp only [← hcats, hdims, List.length_map, Option.bind_eq_bind, Option.bind_some]
  by_cases hlen : key.length = rows.cats.length
  · rw [if_neg (by simp [hlen]), if_pos hlen, hnames]
    cases rows.find key <;> rfl
  · rw [if_pos (fun heq => hlen heq.symm), if_neg hlen]
    rfl

/-- A row's names as items of its categories. -/
def Named (r : Restricted) (cats : List CategoryId) (key : List String) (xs : List Item) : Prop :=
  List.Forall₂ (fun x c => x ∈ r.itemsOf c) xs cats ∧ xs.map Item.name = key

theorem Built.found_of_find_dims (h : r.Built) (rows : Rows) (cats : List CategoryId) :
    ∀ {key : List String} {found : List (Nat × ItemId)}, key.length = cats.length →
      Rows.find { rows with dims := cats.map fun c => SortedMap.ofList (r.classed c) } key =
        some found →
      r.Found cats found ∧ ∃ xs, r.Named cats key xs ∧ xs.map Item.id = found.map (·.2) := by
  induction cats with
  | nil =>
      intro key found hlen hfind
      rw [List.eq_nil_of_length_eq_zero hlen] at hfind ⊢
      cases hfind
      exact ⟨.nil, [], ⟨.nil, rfl⟩, rfl⟩
  | cons c cats ih =>
      intro key found hlen hfind
      cases key with
      | nil => cases hlen
      | cons n key =>
          rw [List.map_cons, find_cons, Option.bind_eq_some_iff] at hfind
          obtain ⟨p, hp, hmap⟩ := hfind
          obtain ⟨rest, hrest, rfl⟩ := Option.map_eq_some_iff.mp hmap
          obtain ⟨hfound, xs, ⟨hxs, hnames⟩, hids⟩ := ih (Nat.succ.inj hlen) hrest
          obtain ⟨x, hx, hn, hi⟩ := mem_classed.mp (h.get?_names.mp hp)
          refine ⟨.cons ⟨x, hx, hi⟩ hfound, x :: xs, ⟨.cons hx.1 hxs, ?_⟩, ?_⟩
          · rw [List.map_cons, hn, hnames]
          · rw [List.map_cons, List.map_cons, hi, hids]

theorem Built.found_of_find (h : r.Built) (hrows : r.RightRows m rows) {key : List String}
    (hlen : key.length = rows.dims.length) {found : List (Nat × ItemId)}
    (hfind : rows.find key = some found) :
    r.Found rows.cats found ∧ ∃ xs, r.Named rows.cats key xs ∧
      xs.map Item.id = found.map (·.2) := by
  obtain ⟨_, _, _, _, hdims, _⟩ := of_rightRows hrows
  have hsame : { rows with dims := rows.cats.map fun c => SortedMap.ofList (r.classed c) } =
      rows := by
    rw [← hdims]
  refine h.found_of_find_dims rows rows.cats ?_ ?_
  · rw [hlen, hdims, List.length_map]
  · rw [hsame]
    exact hfind

/-! ## Answers -/

theorem rightRows_fresh (hfresh : r.freshRows m = some rows) : r.RightRows m rows := by
  obtain ⟨_, _, heq⟩ := Option.map_eq_some_iff.mp hfresh
  have hdecided := congrArg Rows.decided heq
  simp only at hdecided
  refine ⟨⟨rows.decided, hfresh⟩, ?_, fun found _ shown hshown => ?_⟩
  · rw [← hdecided, List.length_replicate]
    exact Nat.min_le_right _ _
  · rw [← hdecided, List.getElem?_replicate] at hshown
    split at hshown <;> cases hshown

theorem Built.rows_bind (h : r.Built) {α : Type} {f : Option Rows → Ask α} {x : Except Panic α}
    (hnone : r.freshRows m = none → Yields r.Right (f none) x)
    (hsome : ∀ rows, r.RightRows m rows → Yields r.Right (f (some rows)) x) :
    Yields r.Right (r.rows m >>= f) x := by
  unfold Restricted.rows
  rw [bind_assoc]
  refine Yields.get_bind fun s hs => ?_
  cases hget : s.rows.get? m with
  | some rows =>
      rw [pure_bind]
      exact hsome rows (hs.kept.rows m rows hget)
  | none =>
      rw [bind_assoc]
      refine (h.newRows_yields m).bind ?_
      cases hfresh : r.freshRows m with
      | none => exact hnone hfresh
      | some rows =>
          have hright := rightRows_fresh hfresh
          show Yields r.Right ((modify fun s => { s with rows := s.rows.insert m rows }) >>=
            fun _ => f (some rows)) x
          refine Yields.bind (Yields.modify fun t ht => ⟨ht.decisions, ?_, ht.kept.fast⟩)
            (hsome rows hright)
          intro m' rows' hget'
          rw [SortedMap.get?_insert] at hget'
          split at hget'
          · rename_i heq
            rw [← Option.some.inj hget', heq]
            exact hright
          · exact ht.kept.rows m' rows' hget'

/-- What is decided is answered, and else what is asked. -/
theorem yields_decided {P : Caches → Prop} {asked : Ask Bool} {b : Bool}
    (hasked : Yields P asked (.ok b)) (decided : Option (Option Bool)) :
    (∀ d, decided = some (some d) → b = d) →
      Yields P (match decided with
        | some (some d) => pure d
        | _ => asked : Ask Bool) (.ok b) := by
  intro hdecided
  cases decided with
  | none => exact hasked
  | some d =>
      cases d with
      | none => exact hasked
      | some shown =>
          rw [hdecided shown rfl]
          exact Yields.pure shown

theorem Built.visible_yields (h : r.Built) (hrows : r.RightRows m rows) (key : List String) :
    Yields r.Right (r.visible rows key) (.ok (r.reference m key)) := by
  unfold Restricted.visible reference
  rw [h.coord_eq hrows key]
  by_cases hlen : key.length = rows.dims.length
  · rw [if_neg (not_not_intro hlen), if_pos hlen]
    cases hfind : rows.find key with
    | none => exact Yields.pure false
    | some found =>
        obtain ⟨hfound, _⟩ := h.found_of_find hrows hlen hfind
        obtain ⟨decided, hfresh⟩ := hrows.fresh
        have hm : rows.measure = m := by
          obtain ⟨_, _, hm, _⟩ := of_rightRows hrows
          exact hm
        have hask : Yields r.Right (r.cellVisible rows.measure (rows.coord (found.map (·.2))))
            (.ok (r.session.cellVisible m (rows.coord (found.map (·.2))))) := by
          have hlen : (found.map (·.2)).length = rows.cats.length := by
            rw [List.length_map]
            exact hfound.length_eq
          have hcell := h.cell_yields (K := r.Kept) hfresh hlen
          rw [← hm]
          exact hcell
        have hslow : Yields r.Right (do
            let shown ← r.cellVisible rows.measure (rows.coord (found.map (·.2)))
            modify fun s => { s with
              rows := s.rows.map fun m kept =>
                if m = rows.measure then
                  { kept with decided := kept.decided.set (rows.slot found) (some shown) }
                else kept }
            return shown : Ask Bool)
            (.ok (r.session.cellVisible m (rows.coord (found.map (·.2))))) := by
          refine hask.bind (Yields.bind (Yields.modify fun t ht => ?_) (Yields.pure _))
          refine ⟨ht.decisions, fun m' rows' hget => ?_, ht.kept.fast⟩
          rw [SortedMap.get?_map, Option.map_eq_some_iff] at hget
          obtain ⟨kept, hkept, rfl⟩ := hget
          have hright := ht.kept.rows m' kept hkept
          by_cases hm' : m' = rows.measure
          · rw [if_pos hm']
            rw [hm', hm] at hright
            rw [hm', hm]
            have heq := hrows.eq_of hright
            have hcats : kept.cats = rows.cats := by rw [heq]
            have hfound' : r.Found kept.cats found := by
              rw [hcats]
              exact hfound
            have hset := h.rightRows_set hright hfound'
            have hslot : kept.slot found = rows.slot found := by
              rw [heq]
              rfl
            have hcoord : kept.coord (found.map (·.2)) = rows.coord (found.map (·.2)) := by
              rw [heq]
              rfl
            rw [hslot, hcoord] at hset
            exact hset
          · rw [if_neg hm']
            exact hright
        exact yields_decided hslow _ fun shown hslot => hrows.decided found hfound shown hslot
  · rw [if_pos hlen, if_neg hlen]
    exact Yields.pure false

/-- The hide lists, and where there are none to be had the panic. -/
theorem Built.fast_yields (h : r.Built) (hown : ∀ rows, r.freshRows m = some rows →
      Yields r.Right (r.hideLists rows) (r.hideListsOf m)) :
    Yields r.Right (r.fast m) (r.hideListsOf m) := by
  have hnew : Yields r.Right (r.newFast m) (r.hideListsOf m) := by
    unfold newFast
    refine h.rows_bind (fun hnone => ?_) fun rows hrows => ?_
    · unfold hideListsOf
      rw [hnone]
      exact Yields.pure none
    · obtain ⟨decided, hfresh⟩ := hrows.fresh
      show Yields r.Right (r.hideLists { rows with decided }) _
      exact hown _ hfresh
  unfold fast
  refine Yields.get_bind fun s hs => ?_
  cases hget : s.fast.get? m with
  | some lists =>
      rw [hs.kept.fast m lists hget]
      exact Yields.pure lists
  | none =>
      cases hx : r.hideListsOf m with
      | error e =>
          rw [hx] at hnew
          exact hnew.bind_error
      | ok lists =>
          rw [hx] at hnew
          refine hnew.bind (Yields.bind (Yields.modify fun t ht => ?_) (Yields.pure _))
          refine ⟨ht.decisions, ht.kept.rows, fun m' lists' hget' => ?_⟩
          rw [SortedMap.get?_insert] at hget'
          split at hget'
          · rename_i heq
            rw [← Option.some.inj hget', heq]
            exact hx
          · exact ht.kept.fast m' lists' hget'

end Improv.Policy.Restricted
