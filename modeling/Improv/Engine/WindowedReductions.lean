import Improv.Engine.SlidingReductions
/-!
# Windowed reductions are the scan

What slides over the windows of sorted rows is the reduction of each window's
rows, so the list of results is the one that the scan gives, for every
reduction, every rows and every bounds.
-/

namespace Improv.Engine

open Lib Lib.Sliding Builtins CoreModel Kernels

variable {id : Nat} {rs : Rows} {vs : List CellValue} {a b : Nat}

/-! ## The first rows of a kind -/

theorem next_getElem? {p : List CellValue → Bool} {n j : Nat} {l : List (List CellValue)}
    (hn : n = j + l.length) {i : Nat} (hi : i ≤ l.length) :
    (next p n j l)[i]? = some (j + i + (l.drop i).findIdx p) := by
  induction l generalizing j i with
  | nil =>
      rw [List.length_nil] at hn hi
      rw [Nat.le_zero.mp hi, hn]
      rfl
  | cons v l ih =>
      rw [List.length_cons] at hn hi
      unfold next
      cases i with
      | zero =>
          have hhead := @ih (j + 1) (by omega) 0 (Nat.zero_le _)
          rw [← List.head?_eq_getElem?, List.drop_zero] at hhead
          rw [List.getElem?_cons_zero, List.headD_eq_head?_getD, hhead, Option.getD_some,
            List.drop_zero, List.findIdx_cons]
          cases p v with
          | true => rfl
          | false =>
              rw [if_neg (by decide), cond_false]
              congr 1
              omega
      | succ i =>
          rw [List.getElem?_cons_succ, ih (by omega) (by omega), List.drop_succ_cons]
          congr 1
          omega

theorem find?_take {α : Type*} {p : α → Bool} (l : List α) (k : Nat) :
    (l.take k).find? p = if l.findIdx p < k then l[l.findIdx p]? else none := by
  induction l generalizing k with
  | nil => simp
  | cons x l ih =>
      cases k with
      | zero => rw [List.take_zero, List.find?_nil, if_neg (Nat.not_lt_zero _)]
      | succ k =>
          rw [List.take_succ_cons, List.find?_cons, List.findIdx_cons]
          cases p x with
          | true => simp
          | false =>
              rw [cond_false]
              simp only [ih, Nat.add_lt_add_iff_right, List.getElem?_cons_succ]

/-- The first row from `a` on of a kind, where it is before `b`, is the first
one of the window. -/
theorem find?_part {p : CellValue → Bool} (hab : a < b) :
    (part vs a b).find? p =
      if a + (vs.drop a).findIdx p < b then vs[a + (vs.drop a).findIdx p]? else none := by
  unfold part
  rw [List.drop_take, find?_take]
  by_cases h : (vs.drop a).findIdx p < b - a
  · rw [if_pos h, if_pos (by omega), List.getElem?_drop]
  · rw [if_neg h, if_neg (by omega)]

theorem findIdx_map_singleton {p : List CellValue → Bool} {q : CellValue → Bool}
    (hpq : ∀ v, p [v] = q v) (l : List CellValue) :
    (l.map ([·])).findIdx p = l.findIdx q := by
  induction l with
  | nil => rfl
  | cons v l ih => rw [List.map_cons, List.findIdx_cons, List.findIdx_cons, hpq, ih]

/-! ## One window -/

theorem slice_vals (hvs : rs.vals = vs.map ([·])) :
    (rs.slice a b).vals = (part vs a b).map ([·]) := by
  unfold Rows.slice part
  rw [hvs, List.map_drop, List.map_take]

/-- Reading a window off the state that tells it gives the reduction of its
rows. -/
theorem slideRead_eq (families : Families) (hvs : rs.vals = vs.map ([·]))
    (hlen : vs.length < 2 ^ 59) (hid : 1 ≤ id ∧ id ≤ 9) {s : Slide}
    (h : Slide.Holds id vs s a (max a b)) (hb : b ≤ vs.length)
    (hzero : id = 5 ∨ id = 6 → a = 0) :
    ∃ v s', slideRead id rs (errorsOf rs) (unreadableOf id rs) s a b = some (v, s') ∧
      windowOf families ⟨id⟩ rs [] a b = some v ∧ Slide.Holds id vs s' a (max a b) := by
  unfold slideRead windowOf
  by_cases hempty : b ≤ a
  · rw [if_pos hempty, if_pos hempty]
    exact ⟨_, s, rfl, rfl, h⟩
  · have hab : a < b := not_le.mp hempty
    rw [if_neg hempty, if_neg hempty, reduce_core hid, core_eq (slice_vals hvs)]
    have hvlen : rs.vals.length = vs.length := by rw [hvs, List.length_map]
    have herrs : (errorsOf rs)[a]? = some (a + (vs.drop a).findIdx CellValue.isErr) := by
      unfold errorsOf
      rw [next_getElem? (Nat.zero_add _).symm (by omega), zero_add, hvs, ← List.map_drop,
        findIdx_map_singleton (q := CellValue.isErr) fun v => rfl]
    have hbad : (unreadableOf id rs)[a]? =
        some (a + (vs.drop a).findIdx fun v => !readable id v) := by
      unfold unreadableOf
      rw [next_getElem? (Nat.zero_add _).symm (by omega), zero_add, hvs, ← List.map_drop,
        findIdx_map_singleton fun v => ?_]
      unfold readable flag number
      split
      · rw [Option.not_isSome]
      · rw [Option.not_isSome]
    rw [herrs, hbad, find?_part hab]
    dsimp only
    rw [max_eq_right hab.le] at h ⊢
    by_cases herr : a + (vs.drop a).findIdx CellValue.isErr < b
    · -- the window's first error
      have hget := List.getElem?_eq_getElem (l := vs) (by omega :
        a + (vs.drop a).findIdx CellValue.isErr < vs.length)
      rw [if_pos herr, if_pos herr, hvs, List.getElem?_map, hget]
      exact ⟨_, s, rfl, rfl, h⟩
    · rw [if_neg herr, if_neg herr]
      have hfind := @find?_part vs a b (fun v => !readable id v) hab
      by_cases hunread : a + (vs.drop a).findIdx (fun v => !readable id v) < b
      · have hall : (part vs a b).all (readable id) = false := by
          rw [if_pos hunread, List.getElem?_eq_getElem (by omega)] at hfind
          have hv := List.find?_some hfind
          rw [List.all_eq_false]
          exact ⟨_, List.mem_of_find?_eq_some hfind, by simpa using hv⟩
        rw [if_pos hunread, evalCore_unreadable hid hall]
        exact ⟨_, s, rfl, rfl, h⟩
      · have hall : ∀ v ∈ part vs a b, readable id v = true := by
          rw [if_neg hunread, List.find?_eq_none] at hfind
          exact fun v hv => by simpa using hfind v hv
        obtain ⟨v, s', hvalue, heval, hs'⟩ := h.value hvs hlen hid hb hzero hall
        rw [if_neg hunread, heval]
        exact ⟨v, s', hvalue, rfl, hs'⟩

/-! ## Every window -/

/-- What a group's rows are: as many positions as rows, and no more rows than a
vector of them can hold. -/
structure Rows.Held (rs : Rows) : Prop where
  aligned : rs.pos.length = rs.vals.length
  short : rs.vals.length < 2 ^ 59

theorem exists_values_of_slides {params : List CellValue} {w : Window}
    (h : slides id rs params w = true) :
    (1 ≤ id ∧ id ≤ 9) ∧ params = [] ∧ (id = 5 ∨ id = 6 → w.1 = .first) ∧
      ∃ vs : List CellValue, rs.vals = vs.map ([·]) := by
  unfold slides at h
  rw [Bool.and_eq_true, Bool.and_eq_true, Bool.and_eq_true, decide_eq_true_eq, List.isEmpty_iff,
    List.all_eq_true, Bool.not_eq_true'] at h
  obtain ⟨⟨⟨hid, hparams⟩, hlens⟩, hfold⟩ := h
  refine ⟨hid, hparams, fun h56 => ?_, rs.vals.flatten, ?_⟩
  · by_contra hne
    have htrue : ((id == 5 || id == 6) && w.1 != .first) = true := by
      rw [Bool.and_eq_true, Bool.or_eq_true, beq_iff_eq, beq_iff_eq, bne_iff_ne]
      exact ⟨h56, hne⟩
    rw [htrue] at hfold
    cases hfold
  · generalize rs.vals = vals at hlens ⊢
    induction vals with
    | nil => rfl
    | cons v vals ih =>
        have hlen := hlens v List.mem_cons_self
        rw [beq_iff_eq, List.length_eq_one_iff] at hlen
        obtain ⟨x, rfl⟩ := hlen
        rw [List.flatten_cons, List.singleton_append, List.map_cons,
          ← ih fun y hy => hlens y (List.mem_cons_of_mem _ hy)]

theorem exists_windowOf (families : Families) (hvs : rs.vals = vs.map ([·]))
    (hlen : vs.length < 2 ^ 59) (hid : 1 ≤ id ∧ id ≤ 9) (a b : Nat) :
    ∃ v, windowOf families ⟨id⟩ rs [] a b = some v := by
  unfold windowOf
  by_cases hempty : b ≤ a
  · rw [if_pos hempty]
    exact ⟨_, rfl⟩
  · have hpart : (part vs a b).length ≤ 2 ^ 61 := by
      unfold part
      rw [List.length_drop, List.length_take]
      omega
    obtain ⟨r, hr⟩ := evalCore_isSome hid hpart
    rw [if_neg hempty, reduce_core hid, core_eq (slice_vals hvs), hr]
    cases (part vs a b).find? CellValue.isErr with
    | some bad => exact ⟨bad, rfl⟩
    | none => exact ⟨valueOf r, rfl⟩

theorem mapM_eq_some {α β : Type} {l : List α} {f : α → Option β} {g : α → β}
    (h : ∀ x ∈ l, f x = some (g x)) : l.mapM f = some (l.map g) := by
  induction l with
  | nil => rfl
  | cons x l ih =>
      rw [List.mapM_cons, h x List.mem_cons_self, ih fun y hy => h y (List.mem_cons_of_mem x hy)]
      rfl

/-- What slides over the windows of sorted rows is each window's reduction. -/
theorem sliding_eq {families : Families} {pos : List Int} {w : Window} (hrs : rs.Held)
    (hpositions : positions rs = some pos) (hpos : pos.Pairwise (· ≤ ·))
    (hvs : rs.vals = vs.map ([·])) (hid : 1 ≤ id ∧ id ≤ 9)
    (hfirst : id = 5 ∨ id = 6 → w.1 = .first) :
    sliding id rs (windowSpans pos w) =
      (windowSpans pos w).mapM fun x => windowOf families ⟨id⟩ rs [] x.1 x.2 := by
  have hvlen : rs.vals.length = vs.length := by rw [hvs, List.length_map]
  have hlen : vs.length < 2 ^ 59 := hvlen ▸ hrs.short
  have hplen : pos.length = vs.length :=
    (length_of_mapM hpositions).trans (hrs.aligned.trans hvlen)
  have hwithin : ∀ x ∈ windowSpans pos w, x.1 ≤ vs.length ∧ x.2 ≤ vs.length := by
    rw [windowSpans_eq hpos, ← hplen]
    intro x hx
    obtain ⟨me, -, rfl⟩ := List.mem_map.mp hx
    exact ⟨before_le_length _, upTo_le_length _⟩
  have hzero : ∀ x ∈ windowSpans pos w, id = 5 ∨ id = 6 → x.1 = 0 := by
    rw [windowSpans_eq hpos]
    intro x hx h56
    obtain ⟨me, -, rfl⟩ := List.mem_map.mp hx
    show before pos (w.1.position _ _ me) = 0
    rw [hfirst h56, before, List.countP_eq_zero]
    intro p hp
    rw [Bound.position, decide_eq_true_eq, not_lt]
    cases pos with
    | nil => cases hp
    | cons q pos =>
        rw [List.head?_cons, Option.getD_some]
        cases List.mem_cons.mp hp with
        | inl heq => exact heq.ge
        | inr hmem => exact (List.pairwise_cons.mp hpos).1 p hmem
  let result a b := (windowOf families ⟨id⟩ rs [] a b).getD (.err Err.NA)
  have hresult : ∀ a b, windowOf families ⟨id⟩ rs [] a b = some (result a b) := by
    intro a b
    obtain ⟨v, hv⟩ := exists_windowOf families hvs hlen hid a b
    show _ = some ((windowOf families ⟨id⟩ rs [] a b).getD _)
    rw [hv, Option.getD_some]
  have htracks : (⟨Slide.add id rs, Slide.remove id rs, slideRead id rs (errorsOf rs)
      (unreadableOf id rs)⟩ : Machine Slide CellValue).Tracks (Slide.Holds id vs) vs.length
      (windowSpans pos w) result := by
    constructor
    · exact fun s a b hs hab hb => hs.add hvs hlen hid hab hb
    · exact fun s a b hs hab hb => hs.remove hvs hlen hid hab hb
    · intro s a b hmem hs
      obtain ⟨v, s', hread, hwindow, hs'⟩ := slideRead_eq families hvs hlen hid hs
        (hwithin (a, b) hmem).2 (hzero (a, b) hmem)
      rw [hresult, Option.some.injEq] at hwindow
      rw [hwindow]
      exact ⟨s', hread, hs'⟩
  rw [mapM_eq_some fun x _ => hresult x.1 x.2]
  unfold sliding
  exact htracks.run_eq (Slide.holds_default id) le_rfl (List.Subset.refl _)
    (by rw [windowSpans_eq hpos]; exact pairwise_spanOf hpos _ _) hwithin
    fun x _ => ⟨Nat.zero_le _, Nat.zero_le _⟩

theorem windows_eq (families : Families) (func : FuncId) (hrs : rs.Held)
    (params : List CellValue) (w : Window) :
    windows families func rs params w = scan families func rs params w := by
  unfold windows
  cases hpositions : positions rs with
  | none =>
      unfold scan
      rw [hpositions]
      rfl
  | some pos =>
      rw [Option.bind_eq_bind, Option.bind_some]
      by_cases hpos : pos.Pairwise (· ≤ ·)
      · rw [if_neg (not_not.mpr hpos), scan_eq hrs.aligned hpositions hpos]
        dsimp only
        by_cases hslides : slides func.id rs params w = true
        · obtain ⟨hid, rfl, hfirst, vs, hvs⟩ := exists_values_of_slides hslides
          rw [if_pos hslides]
          exact sliding_eq hrs hpositions hpos hvs hid hfirst
        · rw [if_neg hslides]
          rfl
      · rw [if_pos hpos]

/-! ## Results exist -/

theorem exists_mapM {α β : Type} {l : List α} {f : α → Option β} (h : ∀ x ∈ l, ∃ y, f x = some y) :
    ∃ ys, l.mapM f = some ys := by
  induction l with
  | nil => exact ⟨[], rfl⟩
  | cons x l ih =>
      obtain ⟨y, hy⟩ := h x List.mem_cons_self
      obtain ⟨ys, hys⟩ := ih fun z hz => h z (List.mem_cons_of_mem x hz)
      refine ⟨y :: ys, ?_⟩
      rw [List.mapM_cons, hy, hys]
      rfl

theorem pick_vals (hvs : rs.vals = vs.map ([·])) (js : List Nat) :
    (rs.pick js).vals = (js.filterMap (vs[·]?)).map ([·]) := by
  show js.filterMap (rs.vals[·]?) = _
  rw [hvs, List.map_filterMap]
  congr 1
  funext j
  rw [List.getElem?_map]

/-- The scan of rows of one value each has a result at each row. -/
theorem exists_scan (families : Families) (hvs : rs.vals = vs.map ([·]))
    (hlen : vs.length < 2 ^ 59) (hid : 1 ≤ id ∧ id ≤ 9) (haligned : rs.pos.length = rs.vals.length)
    {pos : List Int} (hpositions : positions rs = some pos) (w : Window) :
    ∃ out, scan families ⟨id⟩ rs [] w = some out := by
  have hplen := length_of_mapM hpositions
  unfold scan
  rw [hpositions, Option.bind_eq_bind, Option.bind_some]
  apply exists_mapM
  intro i hi
  rw [List.mem_range, ← haligned, ← hplen] at hi
  rw [List.getElem?_eq_getElem hi, Option.bind_eq_bind, Option.bind_some]
  dsimp only
  split
  · exact ⟨_, rfl⟩
  · next hpick =>
    rw [reduce_core hid, core_eq (pick_vals hvs _)]
    split
    · exact ⟨_, rfl⟩
    · obtain ⟨r, hr⟩ := evalCore_isSome hid (a := ((List.range rs.vals.length).filter _).filterMap
        (vs[·]?)) (((List.length_filterMap_le _ _).trans (List.length_filter_le _ _)).trans (by
          rw [List.length_range, hvs, List.length_map]
          omega))
      exact ⟨valueOf r, congrArg _ hr⟩

/-- The results over every window are the ones that the scan gives: the
reduction of each row's window, or `#N/A` of an empty one.  Where the reduction
slides there is one at each row. -/
theorem windows_eq_scan (families : Families) (func : FuncId) (rs : Rows) (hrs : rs.Held)
    (params : List CellValue) (w : Window) :
    windows families func rs params w = scan families func rs params w ∧
      (slides func.id rs params w = true → (∀ p ∈ rs.pos, p ≠ []) →
        ∃ out, windows families func rs params w = some out ∧ out.length = rs.vals.length) := by
  have heq := windows_eq families func hrs params w
  refine ⟨heq, fun hslides hpos => ?_⟩
  obtain ⟨hid, rfl, -, vs, hvs⟩ := exists_values_of_slides hslides
  have hlen : vs.length < 2 ^ 59 := by
    have hshort := hrs.short
    rwa [hvs, List.length_map] at hshort
  obtain ⟨pos, hpositions⟩ : ∃ pos, positions rs = some pos := exists_mapM fun p hp => by
    obtain ⟨q, ps, rfl⟩ := List.exists_cons_of_ne_nil (hpos p hp)
    exact ⟨_, rfl⟩
  obtain ⟨out, hout⟩ := exists_scan families hvs hlen hid hrs.aligned hpositions w
  refine ⟨out, heq.trans hout, ?_⟩
  unfold scan at hout
  rw [hpositions, Option.bind_eq_bind, Option.bind_some] at hout
  rw [length_of_mapM hout, List.length_range]

/-- Rows at items 0, 2 and 2: a number, a missing one and an error. -/
def threeRows : Rows :=
  ⟨[[0], [2], [2]], [[.ofF64 (.ofNat 1)], [.text ""], [.err Err.DIV0]], 4⟩

theorem windows_eq_scan_threeRows :
    windows (fun _ _ _ => none) ⟨3⟩ threeRows [] (.offset (-2), .offset (-1)) =
        scan (fun _ _ _ => none) ⟨3⟩ threeRows [] (.offset (-2), .offset (-1)) ∧
      ∃ out, windows (fun _ _ _ => none) ⟨3⟩ threeRows [] (.offset (-2), .offset (-1)) = some out ∧
        out.length = 3 := by
  obtain ⟨heq, hout⟩ := windows_eq_scan (fun _ _ _ => none) ⟨3⟩ threeRows ⟨rfl, by decide⟩ []
    (.offset (-2), .offset (-1))
  exact ⟨heq, hout (by decide) (by decide)⟩

/-- The first row's window is empty, the others' holds the first row alone. -/
example : (windows (fun _ _ _ => none) ⟨3⟩ threeRows [] (.offset (-2), .offset (-1))).map
    (·.map CellValue.isErr) = some [true, false, false] := by decide +kernel

end Improv.Engine
