import Improv.Policy.RowHistory
/-!
# The filter shows what the reference shows

For every row of a result table the filter answers as the session would about
the row's cell, after any history of questions.  What fails is a question for
hidden names that the filter itself does not ask: of a measure the role may
read, over a category without items.
-/

namespace Improv.Policy

open Improv.Lib Improv.CoreModel Improv.Service
open Improv.Lib.Cached (Yields)

namespace Restricted

variable {r : Restricted} {m : MeasureId} {rows : Rows}

/-! ## Hidden names -/

/-- Each category of a measure the role may read has an item. -/
def Itemised (r : Restricted) (m : MeasureId) : Prop :=
  ∀ measure, r.model.measures.get? m = some measure → r.Viewable m →
    ∀ c ∈ measure.categories, r.itemsOf c ≠ []

theorem Itemised.items (hitems : r.Itemised m) (hrows : r.freshRows m = some rows)
    (hview : r.Viewable m) : ∀ c ∈ rows.cats, r.itemsOf c ≠ [] := by
  obtain ⟨measure, hm, _, hcats, _⟩ := of_freshRows hrows
  rw [hcats]
  exact hitems measure hm hview

theorem hideListsOf_eq (hrows : r.freshRows m = some rows)
    {x : Except Panic (Option HideLists)}
    (hx : ∀ K, Yields (r.Inv K) (r.hideLists rows) x) : r.hideListsOf m = x := by
  unfold hideListsOf
  rw [hrows]
  exact (hx r.Kept).of_ask r.right_empty

/-- The hide lists of a measure whose categories have items. -/
theorem Built.fast_of_items (h : r.Built) (hrows : r.freshRows m = some rows)
    (hitems : r.Viewable m → ∀ c ∈ rows.cats, r.itemsOf c ≠ []) :
    ∃ F, Yields r.Right (r.fast m) (.ok F) ∧ ∀ lists, F = some lists → r.Hides m rows lists := by
  obtain ⟨F, hF, hlists⟩ := h.hideLists_yields hrows hitems
  have heq := hideListsOf_eq hrows hF
  refine ⟨F, ?_, hlists⟩
  rw [← heq]
  refine h.fast_yields fun rows' hrows' => ?_
  rw [heq, ← Option.some.inj (hrows.symm.trans hrows')]
  exact hF r.Kept

theorem Built.fast_of_none (h : r.Built) (hrows : r.freshRows m = none) :
    Yields r.Right (r.fast m) (.ok none) := by
  have heq : r.hideListsOf m = .ok none := by
    unfold hideListsOf
    rw [hrows]
  rw [← heq]
  exact h.fast_yields fun rows hrows' => by rw [hrows] at hrows'; cases hrows'

/-- Asked for hidden names of a measure over a category without items. -/
theorem Built.fast_panics (h : r.Built) (hitems : ¬r.Itemised m) :
    Yields r.Right (r.fast m) (.error .indexOutOfRange) := by
  unfold Itemised at hitems
  push Not at hitems
  obtain ⟨measure, hm, hview, c, hc, hnil⟩ := hitems
  obtain ⟨rows, hrows⟩ : ∃ rows, r.freshRows m = some rows := by
    unfold freshRows
    rw [hm]
    exact ⟨_, rfl⟩
  have hcats : c ∈ rows.cats := by
    obtain ⟨measure', hm', _, hcats, _⟩ := of_freshRows hrows
    rw [hcats, ← Option.some.inj (hm.symm.trans hm')]
    exact hc
  have hx : ∀ K, Yields (r.Inv K) (r.hideLists rows) (.error .indexOutOfRange) :=
    fun K => h.hideLists_panics hrows hview hcats hnil
  have heq := hideListsOf_eq hrows hx
  rw [← heq]
  refine h.fast_yields fun rows' hrows' => ?_
  rw [heq, ← Option.some.inj (hrows.symm.trans hrows')]
  exact hx r.Kept

/-! ## Rows of names -/

/-- The row's names are the session's items. -/
def Clean (r : Restricted) (m : MeasureId) (key : List String) : Prop := (r.coord m key).isSome

/-- No name of the row is hidden. -/
def Passes (lists : HideLists) (key : List String) : Prop :=
  List.Forall₂ (fun n hidden => n ∉ hidden) key lists

theorem passes_iff {cats : List CategoryId} {lists : HideLists} {xs : List Item}
    (hlists : List.Forall₂ r.HidesIn cats lists)
    (hxs : List.Forall₂ (fun x c => x ∈ r.itemsOf c) xs cats) :
    Passes lists (xs.map Item.name) ↔ ∀ x ∈ xs, r.session.itemVisible x.id = true := by
  unfold Passes
  induction hlists generalizing xs with
  | nil =>
      cases hxs
      simp
  | @cons c hidden cats lists hhides _ ih =>
      cases hxs with
      | @cons x _ xs _ hx hxs =>
          rw [List.map_cons, List.forall₂_cons, List.forall_mem_cons, ih hxs, hhides.2 x hx]
          simp

/-- A row of the session's items is shown when no name of it is hidden. -/
theorem Built.reference_iff (h : r.Built) (hrows : r.freshRows m = some rows) {lists : HideLists}
    (hlists : r.Hides m rows lists) {key : List String} (hclean : r.Clean m key) :
    r.reference m key = true ↔ Passes lists key := by
  have hright := rightRows_fresh hrows
  unfold Clean at hclean
  unfold reference
  rw [h.coord_eq hright key] at hclean ⊢
  by_cases hlen : key.length = rows.dims.length
  · rw [if_pos hlen] at hclean ⊢
    cases hfind : rows.find key with
    | none =>
        rw [hfind] at hclean
        cases hclean
    | some found =>
        obtain ⟨hfound, xs, ⟨hxs, hnames⟩, hids⟩ := h.found_of_find hright hlen hfind
        show r.session.cellVisible m (rows.coord (found.map (·.2))) = true ↔ _
        rw [hlists.2 found hfound, ← hnames, passes_iff hlists.1 hxs]
        have hsame : ∀ P : ItemId → Prop, (∀ p ∈ found, P p.2) ↔ ∀ x ∈ xs, P x.id := by
          intro P
          rw [← List.forall_mem_map (f := fun p : Nat × ItemId => p.2), ← hids,
            List.forall_mem_map]
        exact hsame fun i => r.session.itemVisible i = true
  · rw [if_neg hlen] at hclean
    cases hclean

/-! ## The rule -/

/-- What a rule says of a measure's rows. -/
inductive Rule (r : Restricted) (m : MeasureId) (clean : Bool) : Nat → Prop
  | none (h : ∀ key, r.reference m key = false) : Rule r m clean 1
  | each : Rule r m clean 3
  | lists {rows : Rows} {lists : HideLists} (hclean : clean = true)
      (hrows : r.freshRows m = some rows) (hlists : r.Hides m rows lists)
      (hfast : Yields r.Right (r.fast m) (.ok (some lists))) :
      Rule r m clean (if lists.all List.isEmpty then 0 else 2)

theorem reference_of_none (hnone : r.freshRows m = none) (key : List String) :
    r.reference m key = false := by
  unfold freshRows at hnone
  rw [Option.map_eq_none_iff] at hnone
  unfold reference Restricted.coord
  rw [hnone]
  rfl

theorem noneShown_decided (decided : List (Option Bool)) :
    r.noneShown { rows with decided } = r.noneShown rows := rfl

/-- The rule of a statement on a measure with rows. -/
def ruleOf (r : Restricted) (clean : Bool) (m : MeasureId) (rows : Rows) : Ask Nat := do
  if ← r.noneShown rows then return 1
  match ← r.fast m with
  | some lists =>
      if clean then return if lists.all List.isEmpty then 0 else 2
      return 3
  | none => return 3

theorem Built.ruleOf_yields (h : r.Built) {m : MeasureId} {fresh : Rows}
    (hfresh : r.freshRows m = some fresh) {clean : Bool} {n : Nat}
    (hn : Yields r.Right (r.ruleOf clean m fresh) (.ok n)) :
    Yields r.Right (cellRule (.policy r) clean m) (.ok n) := by
  refine h.rows_bind (fun hnone => ?_) fun rows hrows => ?_
  · rw [hfresh] at hnone
    cases hnone
  · obtain ⟨decided, hsome⟩ := hrows.fresh
    have hsame := Option.some.inj (hsome.symm.trans hfresh)
    show Yields r.Right (r.ruleOf clean m rows) _
    unfold ruleOf
    rw [← noneShown_decided decided, hsame]
    exact hn

/-- The rule of a statement is never out of range. -/
theorem Built.cellRule_yields (h : r.Built) (m : MeasureId) (clean : Bool) :
    ∃ n, Yields r.Right (cellRule (.policy r) clean m) (.ok n) ∧ r.Rule m clean n := by
  cases hfresh : r.freshRows m with
  | none =>
      refine ⟨1, h.rows_bind (fun _ => Yields.pure 1) fun rows hrows => ?_,
        .none (reference_of_none hfresh)⟩
      obtain ⟨decided, hsome⟩ := hrows.fresh
      rw [hfresh] at hsome
      cases hsome
  | some fresh =>
      have hbind : ∀ n, Yields r.Right (r.ruleOf clean m fresh) (.ok n) →
          Yields r.Right (cellRule (.policy r) clean m) (.ok n) :=
        fun n hn => h.ruleOf_yields hfresh hn
      obtain ⟨b, hb, hhidden, hitems⟩ := h.noneShown_yields hfresh
      cases b with
      | true =>
          refine ⟨1, hbind 1 ((hb r.Kept).bind (Yields.pure 1)), .none fun key => ?_⟩
          have hright := rightRows_fresh hfresh
          unfold reference
          rw [h.coord_eq hright key]
          by_cases hlen : key.length = fresh.dims.length
          · rw [if_pos hlen]
            cases hfind : fresh.find key with
            | none => rfl
            | some found => exact hhidden rfl found (h.found_of_find hright hlen hfind).1
          · rw [if_neg hlen]
            rfl
      | false =>
          obtain ⟨F, hF, hlists⟩ := h.fast_of_items hfresh fun _ => hitems rfl
          cases F with
          | none => exact ⟨3, hbind 3 ((hb r.Kept).bind (hF.bind (Yields.pure 3))), .each⟩
          | some lists =>
              cases clean with
              | false => exact ⟨3, hbind 3 ((hb r.Kept).bind (hF.bind (Yields.pure 3))), .each⟩
              | true =>
                  exact ⟨_, hbind _ ((hb r.Kept).bind (hF.bind (Yields.pure _))),
                    .lists rfl hfresh (hlists lists rfl) hF⟩

/-! ## The filter of a row -/

theorem cellName_yields {F : Option HideLists} (hfast : Yields r.Right (r.fast m) (.ok F))
    (dim slot : Int) : ∃ name, Yields r.Right (cellName (.policy r) m dim slot) (.ok name) := by
  cases F with
  | none => exact ⟨none, hfast.bind (Yields.pure none)⟩
  | some lists => exact ⟨_, hfast.bind (Yields.pure _)⟩

/-- The columns compared with the names in their slots. -/
def slotsAnswer (lists : HideLists) (key : List String) : Bool :=
  key.zipIdx.all fun p => (List.range slots).all fun j =>
    ((lists[p.2]?).bind fun hidden => hidden[j]?) != some p.1

theorem slotsPass_yields {lists : HideLists} (hfast : Yields r.Right (r.fast m) (.ok (some lists)))
    (key : List String) :
    Yields r.Right (slotsPass (.policy r) m key) (.ok (slotsAnswer lists key)) := by
  refine Yields.allM fun p _ => Yields.allM fun j _ => ?_
  have hname : Yields r.Right (cellName (.policy r) m p.2 j)
      (.ok ((lists[p.2]?).bind fun hidden => hidden[j]?)) := hfast.bind (Yields.pure _)
  exact hname.bind (Yields.pure _)

/-- The slots hold every hidden name. -/
theorem slotsAnswer_iff {lists : HideLists} {key : List String} (hlen : key.length = lists.length)
    (hslots : ∀ hidden ∈ lists, hidden.length ≤ slots) :
    slotsAnswer lists key = true ↔ Passes lists key := by
  unfold slotsAnswer Passes
  rw [List.forall₂_iff_get, List.all_eq_true]
  constructor
  · intro hall
    refine ⟨hlen, fun d hd hd' hmem => ?_⟩
    obtain ⟨j, hj, hget⟩ := List.mem_iff_getElem.mp hmem
    have hle := hslots _ (List.get_mem lists ⟨d, hd'⟩)
    have hcolumn := hall (key[d], d) (List.mk_mem_zipIdx_iff_getElem?.mpr
      (List.getElem?_eq_getElem hd))
    rw [List.all_eq_true] at hcolumn
    have hslot := hcolumn j (List.mem_range.mpr (by omega))
    rw [List.getElem?_eq_getElem hd'] at hslot
    simp only [Option.bind_some, bne_iff_ne] at hslot
    refine hslot ?_
    simp only [List.get_eq_getElem] at hj hget
    rw [List.getElem?_eq_getElem hj, hget]
  · intro ⟨_, hpass⟩ p hp
    rw [List.all_eq_true]
    intro j _
    obtain ⟨n, d⟩ := p
    have hn := List.mk_mem_zipIdx_iff_getElem?.mp hp
    obtain ⟨hd, hget⟩ := List.getElem?_eq_some_iff.mp hn
    have hd' : d < lists.length := by omega
    rw [List.getElem?_eq_getElem hd', Option.bind_some, bne_iff_ne]
    intro heq
    refine hpass d hd hd' ?_
    simp only [List.get_eq_getElem]
    rw [hget]
    exact List.mem_of_getElem? heq

theorem Built.length_of_clean (h : r.Built) (hrows : r.freshRows m = some rows)
    {key : List String} (hclean : r.Clean m key) : key.length = rows.cats.length := by
  obtain ⟨_, _, _, _, hdims, _⟩ := of_freshRows hrows
  unfold Clean at hclean
  rw [h.coord_eq (rightRows_fresh hrows) key] at hclean
  by_cases hlen : key.length = rows.dims.length
  · rw [hlen, hdims, List.length_map]
  · rw [if_neg hlen] at hclean
    cases hclean

theorem cellVisible_policy (r : Restricted) (m : MeasureId) (key : List String) :
    Policy.cellVisible (.policy r) m key =
      match r.coord m key with
      | some at_ => r.cellVisible m at_
      | none => pure false := rfl

theorem Built.cellVisible_reference (h : r.Built) (m : MeasureId) (key : List String) :
    Yields r.Right (Policy.cellVisible (.policy r) m key) (.ok (r.reference m key)) := by
  rw [cellVisible_policy]
  unfold reference
  cases hcoord : r.coord m key with
  | none => exact Yields.pure false
  | some at_ =>
      refine h.cellVisible_yields fun x hx c hc => ?_
      cases hfresh : r.freshRows m with
      | none =>
          unfold freshRows at hfresh
          rw [Option.map_eq_none_iff] at hfresh
          rw [h.shape_measures, hfresh] at hx
          cases hx
      | some rows =>
          have hright := rightRows_fresh hfresh
          obtain ⟨measure, hm, _, hcats, _⟩ := of_freshRows hfresh
          rw [h.coord_eq hright key] at hcoord
          by_cases hlen : key.length = rows.dims.length
          · rw [if_pos hlen] at hcoord
            obtain ⟨found, hfind, rfl⟩ := Option.map_eq_some_iff.mp hcoord
            have hfound := (h.found_of_find hright hlen hfind).1
            rw [h.shape_measures, hm] at hx
            rw [← Option.some.inj hx]
            show c ∈ measure.categories
            rw [← hcats]
            refine (keys_fromPairs ?_ c).mp hc
            rw [List.length_map]
            exact hfound.length_eq
          · rw [if_neg hlen] at hcoord
            cases hcoord

theorem Built.rowVisible_yields (h : r.Built) (m : MeasureId) (key : List String) :
    Yields r.Right (rowVisible (.policy r) m key) (.ok (r.reference m key)) := by
  refine h.rows_bind (fun hnone => ?_) fun rows hrows => h.visible_yields hrows key
  rw [reference_of_none hnone]
  exact Yields.pure false

/-- The filter's answer for a row, and that it is the reference's. -/
theorem Built.qual_yields (h : r.Built) (m : MeasureId) (clean : Bool) (key : List String) :
    ∃ shown, Yields r.Right (qual (.policy r) clean m key) (.ok shown) ∧
      ((clean = true → r.Clean m key) → shown = r.reference m key) := by
  obtain ⟨n, hn, hrule⟩ := h.cellRule_yields m clean
  cases hrule with
  | none hhidden =>
      refine ⟨false, hn.bind ?_, fun _ => (hhidden key).symm⟩
      by_cases hkey : key.isEmpty = true
      · simp only [hkey]
        exact Yields.pure false
      · simp only [hkey]
        exact Yields.pure false
  | each =>
      refine ⟨r.reference m key, hn.bind ?_, fun _ => rfl⟩
      by_cases hkey : key.isEmpty = true
      · simp only [hkey]
        exact h.cellVisible_reference m key
      · simp only [hkey]
        exact h.rowVisible_yields m key
  | @lists rows lists hclean hrows hlists hfast =>
      have hslots : ∀ hidden ∈ lists, hidden.length ≤ slots := by
        intro hidden hmem
        have hall := (List.forall₂_iff_get.mp hlists.1)
        obtain ⟨d, hd, rfl⟩ := List.mem_iff_getElem.mp hmem
        exact (hall.2 d (by omega) hd).1
      have hwidth : r.Clean m key → key.length = lists.length := by
        intro hkey
        rw [h.length_of_clean hrows hkey, hlists.1.length_eq]
      cases hall : lists.all List.isEmpty with
      | true =>
          rw [hall] at hn
          refine ⟨true, hn.bind (Yields.pure true), fun hkey => ?_⟩
          refine ((h.reference_iff hrows hlists (hkey hclean)).mpr ?_).symm
          refine List.forall₂_iff_get.mpr ⟨hwidth (hkey hclean), fun d _ hd hmem => ?_⟩
          have hnil := List.all_eq_true.mp hall _ (List.get_mem lists ⟨d, hd⟩)
          rw [List.isEmpty_iff.mp hnil] at hmem
          cases hmem
      | false =>
          rw [hall] at hn
          by_cases hkey : key.isEmpty = true
          · refine ⟨false, hn.bind ?_, fun hnames => ?_⟩
            · simp only [hkey]
              exact Yields.pure false
            · -- A row without names is of a table without dimensions, whose lists are all empty.
              have hlen := hwidth (hnames hclean)
              rw [List.isEmpty_iff.mp hkey] at hlen
              rw [List.eq_nil_of_length_eq_zero hlen.symm] at hall
              cases hall
          · refine ⟨slotsAnswer lists key, hn.bind ?_, fun hnames => ?_⟩
            · simp only [hkey]
              exact slotsPass_yields hfast key
            · rw [Bool.eq_iff_iff, h.reference_iff hrows hlists (hnames hclean)]
              exact slotsAnswer_iff (hwidth (hnames hclean)) hslots

end Restricted

/-! ## Histories -/

/-- A question to a role's session. -/
inductive Question
  | allowed (action : Action) (resource : Resource)
  | cellVisible (m : MeasureId) (key : List String)
  | cellRule (clean : Bool) (m : MeasureId)
  | cellName (m : MeasureId) (dim slot : Int)
  | rowVisible (m : MeasureId) (key : List String)
  | qual (clean : Bool) (m : MeasureId) (key : List String)

/-- What a question leaves of the session's caches. -/
def Question.leave (acting : Acting) (s : Caches) : Question → Caches
  | .allowed action resource =>
      match acting with
      | .policy r => ((r.allowed action resource).ask s).2
      | _ => s
  | .cellVisible m key => ((Policy.cellVisible acting m key).ask s).2
  | .cellRule clean m => ((Policy.cellRule acting clean m).ask s).2
  | .cellName m dim slot => ((Policy.cellName acting m dim slot).ask s).2
  | .rowVisible m key => ((Policy.rowVisible acting m key).ask s).2
  | .qual clean m key => ((Policy.qual acting clean m key).ask s).2

/-- The caches after some questions to a new session. -/
def after (acting : Acting) (history : List Question) : Caches :=
  history.foldl (Question.leave acting) .empty

/-- A cell is read or edited, at a coordinate of its measure's categories. -/
def Question.Asked (acting : Acting) : Question → Prop
  | .allowed action resource => ∀ r, acting = .policy r → ∀ m coord, resource = .cell m coord →
      (action = .readCell ∨ action = .editCell) ∧ r.OwnKeys m coord
  | _ => True

theorem Restricted.Built.fast_of_itemised {r : Restricted} (h : r.Built) {m : MeasureId}
    (hitems : r.Itemised m) : ∃ F, Yields r.Right (r.fast m) (.ok F) := by
  cases hfresh : r.freshRows m with
  | none => exact ⟨none, h.fast_of_none hfresh⟩
  | some rows =>
      obtain ⟨F, hF, _⟩ := h.fast_of_items hfresh (hitems.items hfresh)
      exact ⟨F, hF⟩

theorem Restricted.Built.cellName_some {r : Restricted} (h : r.Built) (m : MeasureId)
    (dim slot : Int) : ∃ x, Yields r.Right (cellName (.policy r) m dim slot) x := by
  by_cases hitems : r.Itemised m
  · obtain ⟨F, hF⟩ := h.fast_of_itemised hitems
    obtain ⟨name, hname⟩ := Restricted.cellName_yields hF dim slot
    exact ⟨.ok name, hname⟩
  · exact ⟨_, (h.fast_panics hitems).bind_error⟩

/-- Every question leaves right caches, also where it panics. -/
theorem Restricted.Built.right_leave {r : Restricted} (h : r.Built) {s : Caches} (hs : r.Right s)
    {q : Question} (hq : q.Asked (.policy r)) : r.Right (q.leave (.policy r) s) := by
  cases q with
  | allowed action resource =>
      cases resource with
      | cell m coord =>
          have ⟨haction, hkeys⟩ := hq r rfl m coord rfl
          exact (h.allowed_cell_yields haction hkeys s hs).2
      | _ => exact (h.allowed_yields action (fun _ _ heq => by cases heq) s hs).2
  | cellVisible m key => exact (h.cellVisible_reference m key s hs).2
  | cellRule clean m =>
      obtain ⟨_, hrule, _⟩ := h.cellRule_yields m clean
      exact (hrule s hs).2
  | cellName m dim slot =>
      obtain ⟨_, hname⟩ := h.cellName_some m dim slot
      exact (hname s hs).2
  | rowVisible m key => exact (h.rowVisible_yields m key s hs).2
  | qual clean m key =>
      obtain ⟨_, hqual, _⟩ := h.qual_yields m clean key
      exact (hqual s hs).2

theorem Restricted.Built.right_after {r : Restricted} (h : r.Built) {history : List Question}
    (hasked : ∀ q ∈ history, q.Asked (.policy r)) : r.Right (after (.policy r) history) := by
  have hfold : ∀ (history : List Question) s, (∀ q ∈ history, q.Asked (.policy r)) → r.Right s →
      r.Right (history.foldl (Question.leave (.policy r)) s) := by
    intro history
    induction history with
    | nil =>
        intro s _ hs
        exact hs
    | cons q history ih =>
        intro s hall hs
        have ⟨hq, hrest⟩ := List.forall_mem_cons.mp hall
        exact ih _ hrest (h.right_leave hs hq)
  exact hfold history .empty hasked r.right_empty

/-! ## The filter and the reference -/

/-- Over some caches the filter shows a table's rows as the reference does, and
no question of its about the table panics. -/
structure ShowsExactly (acting : Acting) (clean : Bool) (m : MeasureId)
    (table : List (List String)) (s : Caches) : Prop where
  rows : ∀ key ∈ table, ∃ shown, ((qual acting clean m key).ask s).1 = .ok shown ∧
    ((cellVisible acting m key).ask s).1 = .ok shown
  rule : ∀ clean, ∃ n, ((cellRule acting clean m).ask s).1 = .ok n
  name : ∀ dim slot, ∃ name, ((cellName acting m dim slot).ask s).1 = .ok name
  row : ∀ key, ∃ shown, ((rowVisible acting m key).ask s).1 = .ok shown

theorem Restricted.Built.showsExactly {r : Restricted} (h : r.Built) {m : MeasureId}
    (hitems : r.Itemised m) {clean : Bool} {table : List (List String)}
    (hclean : clean = true → ∀ key ∈ table, r.Clean m key) {s : Caches} (hs : r.Right s) :
    ShowsExactly (.policy r) clean m table s where
  rows key hkey := by
    obtain ⟨shown, hqual, heq⟩ := h.qual_yields m clean key
    refine ⟨shown, hqual.of_ask hs, ?_⟩
    rw [heq fun hc => hclean hc key hkey]
    exact (h.cellVisible_reference m key).of_ask hs
  rule clean := by
    obtain ⟨n, hn, _⟩ := h.cellRule_yields m clean
    exact ⟨n, hn.of_ask hs⟩
  name dim slot := by
    obtain ⟨F, hF⟩ := h.fast_of_itemised hitems
    obtain ⟨name, hname⟩ := Restricted.cellName_yields hF dim slot
    exact ⟨name, hname.of_ask hs⟩
  row key := ⟨_, (h.rowVisible_yields m key).of_ask hs⟩

/-- The filter shows exactly the rows the reference shows, and none of its
questions panics, after every history, if and only if each category of a measure
the role may read has an item. -/
theorem filter_exact_iff (acting : Acting) (hbuilt : ∀ r, acting = .policy r → r.Built)
    (m : MeasureId) (clean : Bool) (table : List (List String))
    (hclean : clean = true → ∀ r, acting = .policy r → ∀ key ∈ table, r.Clean m key) :
    (∀ history : List Question, (∀ q ∈ history, q.Asked acting) →
      ShowsExactly acting clean m table (after acting history)) ↔
        ∀ r, acting = .policy r → r.Itemised m := by
  cases acting with
  | policy r =>
      have h := hbuilt r rfl
      constructor
      · rintro hexact _ ⟨rfl⟩
        by_contra hitems
        obtain ⟨name, hname⟩ := (hexact [] fun _ hq => by cases hq).name 0 0
        have hpanic : Yields r.Right (cellName (.policy r) m 0 0) (.error .indexOutOfRange) :=
          (h.fast_panics hitems).bind_error
        have herror := hpanic.of_ask r.right_empty
        cases hname.symm.trans herror
      · intro hitems history hasked
        exact h.showsExactly (hitems r rfl) (fun hc => hclean hc r rfl) (h.right_after hasked)
  | closed =>
      refine iff_of_true (fun history _ => ⟨fun key _ => ⟨false, ?_, rfl⟩, fun _ => ⟨1, rfl⟩,
        fun _ _ => ⟨none, rfl⟩, fun _ => ⟨false, rfl⟩⟩) fun _ heq => by cases heq
      cases key <;> rfl
  | _ =>
      exact iff_of_true (fun history _ => ⟨fun key _ => ⟨true, rfl, rfl⟩, fun _ => ⟨0, rfl⟩,
        fun _ _ => ⟨none, rfl⟩, fun _ => ⟨true, rfl⟩⟩) fun _ heq => by cases heq

/-! ## Products -/

/-- Sales by product and their double. -/
def doubleModel (products : List Item) : Model where
  categories := .ofList [(⟨1⟩, ⟨⟨1⟩, "Product", products.map Item.id⟩)]
  items := .ofList (products.map fun i => (i.id, i))
  measures := .ofList
    [(⟨100⟩, ⟨⟨100⟩, "Sales", .number, [⟨1⟩], .input, none, none⟩),
      (⟨101⟩, ⟨⟨101⟩, "Double", .number, [⟨1⟩], .derived ⟨doubleFormula⟩, none, none⟩)]
  inputs := .empty
  sqlSources := .empty
  views := .empty
  externalFns := .empty
  externalCalls := .empty
  scenarios := .empty
  lambdas := .empty
where
  doubleFormula : Expr := .binaryOp .add (.ref ⟨100⟩ .default) (.ref ⟨100⟩ .default)

/-- A role that may read everything but the product some policy names. -/
def butNamed (products : List Item) : Restricted where
  session :=
    { shape := Structure.of (doubleModel products)
      answers := some fun action resource =>
        !(decide (action = .readItem) && decide (resource = .item ⟨10⟩)) }
  named := [⟨10⟩]
  model := doubleModel products

theorem butNamed_built {products : List Item} (hkeyed : Keyed (doubleModel products))
    (hunique : ∀ p ∈ (doubleModel products).items.entries,
      ∀ q ∈ (doubleModel products).items.entries,
        p.2.category = q.2.category → p.2.name = q.2.name → p.1 = q.1) :
    (butNamed products).Built where
  shape := rfl
  keyed := hkeyed
  unique i j x y hx hy hc hn :=
    hunique (i, x) (SortedMap.get?_eq_some_iff.mp hx) (j, y)
      (SortedMap.get?_eq_some_iff.mp hy) hc hn
  alike := by
    refine ⟨_, rfl, fun a i j c _ _ hi hj => ?_, fun a m x y is js _ _ _ => ?_⟩
    · have hi' : i ≠ ⟨10⟩ := fun heq => hi (List.mem_singleton.mpr heq)
      have hj' : j ≠ ⟨10⟩ := fun heq => hj (List.mem_singleton.mpr heq)
      simp [hi', hj']
    · simp

/-- Two products, one of which the role may not read. -/
def falconKite : Restricted := butNamed [⟨⟨10⟩, ⟨1⟩, "Falcon"⟩, ⟨⟨11⟩, ⟨1⟩, "Kite"⟩]

theorem filter_exact_falcon_kite : falconKite.Built ∧
    ∀ history : List Question, (∀ q ∈ history, q.Asked (.policy falconKite)) →
      ShowsExactly (.policy falconKite) true ⟨101⟩ [["Falcon"], ["Kite"]]
        (after (.policy falconKite) history) := by
  have hbuilt : falconKite.Built := butNamed_built (by decide +kernel) (by decide +kernel)
  refine ⟨hbuilt,
    (filter_exact_iff (.policy falconKite) ?_ ⟨101⟩ true [["Falcon"], ["Kite"]] ?_).mpr ?_⟩
  · rintro _ ⟨rfl⟩
    exact hbuilt
  · rintro _ _ ⟨rfl⟩
    unfold Restricted.Clean
    decide +kernel
  · rintro _ ⟨rfl⟩ measure hm _ c hc
    have hcats : measure.categories = [⟨1⟩] := by
      rw [← Option.some.inj hm]
    rw [hcats, List.mem_singleton] at hc
    rw [hc]
    decide +kernel

/-- A role that may read everything, over no products at all. -/
theorem cellName_out_of_range : (butNamed []).Built ∧
    ((cellName (.policy (butNamed [])) ⟨101⟩ 0 0).ask (after (.policy (butNamed [])) [])).1 =
      .error .indexOutOfRange ∧
    ¬ShowsExactly (.policy (butNamed [])) true ⟨101⟩ [] (after (.policy (butNamed [])) []) := by
  have hpanic : ((cellName (.policy (butNamed [])) ⟨101⟩ 0 0).ask
      (after (.policy (butNamed [])) [])).1 = .error .indexOutOfRange := by decide +kernel
  refine ⟨butNamed_built (by decide +kernel) (by decide +kernel), hpanic, fun hexact => ?_⟩
  obtain ⟨name, hname⟩ := hexact.name 0 0
  cases hname.symm.trans hpanic

end Improv.Policy
