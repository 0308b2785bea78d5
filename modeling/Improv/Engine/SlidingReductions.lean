import Improv.Engine.Extremes
import Improv.Engine.Reduce
import Improv.Engine.Windows
/-!
# Sliding reductions

The running state of a sliding window is told by the window's rows: the exact
sum of their numbers, the queue of the rows that may be the extreme, the fold
from the first row, and how many are true.  Each row that joins or leaves keeps
that, and what is read off the state is the reduction of the window's rows.
-/

namespace Improv.Engine

open Lib Lib.Sliding Builtins CoreModel Kernels

variable {vs : List CellValue} {a b : Nat}

/-! ## The rows of a window -/

/-- The values of the rows `a..b`. -/
def part (vs : List CellValue) (a b : Nat) : List CellValue := (vs.take b).drop a

/-- The readable numbers of the rows `a..b`. -/
def numbers (vs : List CellValue) (a b : Nat) : List F64 := (part vs a b).filterMap number

theorem part_snoc (hab : a ≤ b) {v : CellValue} (hv : vs[b]? = some v) :
    part vs a (b + 1) = part vs a b ++ [v] := by
  have hb := (List.getElem?_eq_some_iff.mp hv).1
  unfold part
  rw [List.take_add_one, hv, Option.toList_some, List.drop_append_of_le_length]
  rw [List.length_take]
  omega

theorem part_cons (hab : a < b) {v : CellValue} (hv : vs[a]? = some v) :
    part vs a b = v :: part vs (a + 1) b := by
  obtain ⟨ha, hget⟩ := List.getElem?_eq_some_iff.mp hv
  have hlen : a < (vs.take b).length := by
    rw [List.length_take]
    omega
  unfold part
  rw [List.drop_eq_getElem_cons hlen, List.getElem_take, hget]

theorem part_self (a : Nat) : part vs a a = [] := by
  unfold part
  rw [List.drop_eq_nil_of_le]
  rw [List.length_take]
  omega

theorem length_part (hb : b ≤ vs.length) : (part vs a b).length = b - a := by
  unfold part
  rw [List.length_drop, List.length_take]
  omega

theorem mem_part_iff {v : CellValue} :
    v ∈ part vs a b ↔ ∃ j, a ≤ j ∧ j < b ∧ vs[j]? = some v := by
  unfold part
  rw [List.mem_iff_getElem?]
  constructor
  · rintro ⟨i, hi⟩
    rw [List.getElem?_drop, List.getElem?_take] at hi
    split at hi
    · exact ⟨a + i, by omega, by omega, hi⟩
    · cases hi
  · rintro ⟨j, haj, hjb, hj⟩
    refine ⟨j - a, ?_⟩
    rw [List.getElem?_drop, List.getElem?_take, show a + (j - a) = j by omega, if_pos hjb, hj]

theorem numbers_snoc (hab : a ≤ b) {v : CellValue} (hv : vs[b]? = some v) :
    numbers vs a (b + 1) = numbers vs a b ++ (number v).toList := by
  unfold numbers
  rw [part_snoc hab hv, List.filterMap_append]
  cases h : number v with
  | none => rw [List.filterMap_cons_none h]; rfl
  | some x => rw [List.filterMap_cons_some h]; rfl

theorem numbers_cons (hab : a < b) {v : CellValue} (hv : vs[a]? = some v) :
    numbers vs a b = (number v).toList ++ numbers vs (a + 1) b := by
  unfold numbers
  rw [part_cons hab hv]
  cases h : number v with
  | none => rw [List.filterMap_cons_none h]; rfl
  | some x => rw [List.filterMap_cons_some h]; rfl

theorem length_numbers_le : (numbers vs a b).length ≤ vs.length := by
  calc (numbers vs a b).length ≤ (part vs a b).length := List.length_filterMap_le _ _
    _ ≤ vs.length := by
      unfold part
      rw [List.length_drop, List.length_take]
      omega

/-! ## The running state -/

/-- What row `j` costs `MIN` or `MAX`. -/
def costAt (id : Nat) (vs : List CellValue) (j : Nat) : Option Int :=
  (vs[j]?.bind number).bind (cost (id = 4))

/-- The state of reduction `id` tells the window `a..b`. -/
structure Slide.Holds (id : Nat) (vs : List CellValue) (s : Slide) (a b : Nat) : Prop where
  sum : id = 1 ∨ id = 2 → s.sum.Holds (numbers vs a b)
  best : id = 3 ∨ id = 4 → s.best = candidates (costAt id vs) a b
  product : id = 5 → a = 0 → s.fold = (numbers vs 0 b).foldl F64.mul emptyProduct
  sumsq : id = 6 → a = 0 → s.fold = ((numbers vs 0 b).map fun x => x.mul x).foldl F64.add emptySum
  trues : 7 ≤ id → s.trues = (part vs a b).countP isTrue

theorem toBits_inj {x y : F64} : x.toBits = y.toBits ↔ x = y :=
  ⟨fun h => by rw [← ofBits_toBits x, h, ofBits_toBits], fun h => by rw [h]⟩

namespace Slide

variable {id : Nat} {rs : Rows} {s : Slide}

theorem x_eq (hvs : rs.vals = vs.map ([·])) (j : Nat) : x rs j = vs[j]?.bind number := by
  unfold x
  rw [hvs, List.getElem?_map]
  cases vs[j]? with
  | none => rfl
  | some v => rfl

theorem truth_eq (hvs : rs.vals = vs.map ([·])) (j : Nat) : truth rs j = vs[j]?.any isTrue := by
  unfold truth
  rw [hvs, List.getElem?_map]
  cases vs[j]? with
  | none => rfl
  | some v => rfl

theorem pick_eq (hid : id = 3 ∨ id = 4) : Slide.pick id = Engine.extreme (id = 4) := by
  cases hid with
  | inl h => subst h; rfl
  | inr h => subst h; rfl

/-- A queued row is beaten by a number that costs no more. -/
theorem beaten_iff (hid : id = 3 ∨ id = 4) {y v : F64} {p q : Int}
    (hy : cost (id = 4) y = some p) (hv : cost (id = 4) v = some q) :
    (Slide.pick id y v).toBits = v.toBits ↔ q ≤ p := by
  have hcost := cost_extreme (x := v) hy
  rw [hv, Option.elim_some] at hcost
  rw [toBits_inj, pick_eq hid]
  constructor
  · intro heq
    rw [heq, hv, Option.some.injEq] at hcost
    omega
  · intro hle
    rw [min_eq_right hle] at hcost
    exact cost_injective hcost hv

/-- A sum's term joins. -/
theorem Holds.addSum (hvs : rs.vals = vs.map ([·])) (h : Holds id vs s a b) (hab : a ≤ b)
    (hlen : vs.length < 2 ^ 59) (hid : id = 1 ∨ id = 2) {v : CellValue} (hv : vs[b]? = some v) :
    ∃ s', Slide.add id rs s b = some s' ∧ Holds id vs s' a (b + 1) := by
  have hx := x_eq hvs b
  have hnumbers := numbers_snoc hab hv
  rw [hv, Option.bind_some] at hx
  have hsum := h.sum hid
  unfold Slide.add
  rw [if_pos hid, hx]
  cases hn : number v with
  | none =>
      refine ⟨s, rfl, fun _ => ?_, by omega, by omega, by omega, by omega⟩
      rw [hnumbers, hn, Option.toList_none, List.append_nil]
      exact hsum
  | some y =>
      have hterms : ((numbers vs a (b + 1) : List F64) : Multiset F64) =
          y ::ₘ (numbers vs a b : Multiset F64) := by
        rw [hnumbers, hn, Option.toList_some, Multiset.cons_coe, Multiset.coe_eq_coe]
        exact List.perm_append_singleton y _
      have hcard : (y ::ₘ (numbers vs a b : Multiset F64)).card < 2 ^ 61 := by
        have hle := @length_numbers_le vs a b
        rw [Multiset.card_cons, Multiset.coe_card]
        omega
      obtain ⟨w, hadd, hholds⟩ := hsum.add hcard
      refine ⟨{ s with sum := w }, ?_, fun _ => ?_, by omega, by omega, by omega, by omega⟩
      · show (s.sum.add y).map _ = _
        rw [hadd]
        rfl
      · rw [hterms]
        exact hholds

/-- A row joins the queue of the extreme. -/
theorem Holds.addBest (hvs : rs.vals = vs.map ([·])) (h : Holds id vs s a b) (hab : a ≤ b)
    (hid : id = 3 ∨ id = 4) {v : CellValue} (hv : vs[b]? = some v) :
    ∃ s', Slide.add id rs s b = some s' ∧ Holds id vs s' a (b + 1) := by
  have hx := x_eq hvs b
  have hcost : costAt id vs b = (number v).bind (cost (id = 4)) := by
    unfold costAt
    rw [hv, Option.bind_some]
  rw [hv, Option.bind_some] at hx
  have hbest := h.best hid
  have hkeep : costAt id vs b = none → Holds id vs s a (b + 1) := by
    intro hnone
    refine ⟨by omega, fun _ => ?_, by omega, by omega, by omega⟩
    rw [candidates_skip hab hnone, hbest]
  unfold Slide.add
  rw [if_neg (by omega), if_pos hid, hx]
  cases hn : number v with
  | none =>
      rw [hn, Option.bind_none] at hcost
      exact ⟨s, rfl, hkeep hcost⟩
  | some y =>
      rw [hn, Option.bind_some] at hcost
      dsimp only
      cases hnan : y.isNaN with
      | true => exact ⟨s, by rw [if_pos rfl], hkeep (hcost.trans (cost_eq_none_iff.mpr hnan))⟩
      | false =>
          rw [if_neg (by decide)]
          cases hq : cost (decide (id = 4)) y with
          | none =>
              rw [cost_eq_none_iff, hnan] at hq
              cases hq
          | some q =>
              rw [hq] at hcost
              refine ⟨_, rfl, by omega, fun _ => ?_, by omega, by omega, by omega⟩
              rw [candidates_push hab hcost, hbest]
              intro k hk
              -- a queued row has a number that costs something
              obtain ⟨p, hp, -⟩ := stays_iff.mp (mem_candidates_iff.mp hk).2.2
              have hp' := hp
              unfold costAt at hp'
              rw [Option.bind_eq_some_iff] at hp'
              obtain ⟨z, hz, hzp⟩ := hp'
              rw [x_eq hvs, hz, Option.getD_some, decide_eq_true_eq, beaten_iff hid hzp hq, hp]
              exact ⟨fun hle => ⟨p, rfl, hle⟩, fun ⟨_, heq, hle⟩ => by cases heq; exact hle⟩

/-- A product's or a sum of squares' term joins. -/
theorem Holds.addFold (hvs : rs.vals = vs.map ([·])) (h : Holds id vs s a b)
    (hid : id = 5 ∨ id = 6) {v : CellValue} (hv : vs[b]? = some v) :
    ∃ s', Slide.add id rs s b = some s' ∧ Holds id vs s' a (b + 1) := by
  have hx := x_eq hvs b
  have hnumbers := numbers_snoc (Nat.zero_le b) hv
  rw [hv, Option.bind_some] at hx
  unfold Slide.add
  rw [if_neg (by omega), if_neg (by omega), hx]
  cases hid with
  | inl h5 =>
      rw [if_pos h5]
      refine ⟨_, rfl, by omega, by omega, fun _ ha => ?_, by omega, by omega⟩
      rw [hnumbers, List.foldl_append, ← h.product h5 ha]
      cases number v <;> rfl
  | inr h6 =>
      rw [if_neg (by omega), if_pos h6]
      refine ⟨_, rfl, by omega, by omega, by omega, fun _ ha => ?_, by omega⟩
      rw [hnumbers, List.map_append, List.foldl_append, ← h.sumsq h6 ha]
      cases number v <;> rfl

/-- A truth value joins. -/
theorem Holds.addTrue (hvs : rs.vals = vs.map ([·])) (h : Holds id vs s a b) (hab : a ≤ b)
    (hid : 7 ≤ id) {v : CellValue} (hv : vs[b]? = some v) :
    ∃ s', Slide.add id rs s b = some s' ∧ Holds id vs s' a (b + 1) := by
  have htruth := truth_eq hvs b
  have htrues := h.trues hid
  rw [hv, Option.any_some] at htruth
  have hcount : (part vs a (b + 1)).countP isTrue = s.trues + if isTrue v then 1 else 0 := by
    rw [part_snoc hab hv, List.countP_append, htrues, List.countP_singleton]
  unfold Slide.add
  rw [if_neg (by omega), if_neg (by omega), if_neg (by omega), if_neg (by omega), htruth]
  by_cases hv' : isTrue v = true
  · rw [if_pos ⟨hid, hv'⟩]
    refine ⟨_, rfl, by omega, by omega, by omega, by omega, fun _ => ?_⟩
    rw [hcount, if_pos hv']
  · rw [if_neg fun hc => hv' hc.2]
    refine ⟨_, rfl, by omega, by omega, by omega, by omega, fun _ => ?_⟩
    rw [hcount, if_neg hv', add_zero]

/-- The state tells the window after a row joins it. -/
theorem Holds.add (hvs : rs.vals = vs.map ([·])) (hlen : vs.length < 2 ^ 59)
    (hid : 1 ≤ id ∧ id ≤ 9) (h : Holds id vs s a b) (hab : a ≤ b) (hb : b < vs.length) :
    ∃ s', Slide.add id rs s b = some s' ∧ Holds id vs s' a (b + 1) := by
  have hv : vs[b]? = some vs[b] := List.getElem?_eq_getElem hb
  by_cases h12 : id = 1 ∨ id = 2
  · exact h.addSum hvs hab hlen h12 hv
  by_cases h34 : id = 3 ∨ id = 4
  · exact h.addBest hvs hab h34 hv
  by_cases h56 : id = 5 ∨ id = 6
  · exact h.addFold hvs h56 hv
  · exact h.addTrue hvs hab (by omega) hv

/-- The state tells the window after its first row leaves it. -/
theorem Holds.remove (hvs : rs.vals = vs.map ([·])) (hlen : vs.length < 2 ^ 59)
    (hid : 1 ≤ id ∧ id ≤ 9) (h : Holds id vs s a b) (hab : a < b) (hb : b ≤ vs.length) :
    ∃ s', Slide.remove id rs s a = some s' ∧ Holds id vs s' (a + 1) b := by
  have hv : vs[a]? = some vs[a] := List.getElem?_eq_getElem (by omega)
  have hnumbers := numbers_cons hab hv
  have hx := x_eq hvs a
  have htruth := truth_eq hvs a
  rw [hv, Option.bind_some] at hx
  rw [hv, Option.any_some] at htruth
  unfold Slide.remove
  by_cases h12 : id = 1 ∨ id = 2
  · have hsum := h.sum h12
    rw [if_pos h12, hx]
    cases hn : number vs[a] with
    | none =>
        refine ⟨s, rfl, fun _ => ?_, by omega, by omega, by omega, by omega⟩
        rwa [hnumbers, hn, Option.toList_none, List.nil_append] at hsum
    | some y =>
        rw [hnumbers, hn, Option.toList_some, List.singleton_append, ← Multiset.cons_coe] at hsum
        have hcard : (y ::ₘ (numbers vs (a + 1) b : Multiset F64)).card < 2 ^ 61 := by
          have hle := @length_numbers_le vs (a + 1) b
          rw [Multiset.card_cons, Multiset.coe_card]
          omega
        obtain ⟨w, hremove, hholds⟩ := hsum.remove (Multiset.mem_cons_self y _) hcard
        rw [Multiset.erase_cons_head] at hholds
        refine ⟨{ s with sum := w }, ?_, fun _ => hholds, by omega, by omega, by omega, by omega⟩
        show (s.sum.remove y).map _ = _
        rw [hremove]
        rfl
  rw [if_neg h12]
  by_cases h34 : id = 3 ∨ id = 4
  · rw [if_pos h34]
    refine ⟨_, rfl, by omega, fun _ => ?_, by omega, by omega, by omega⟩
    rw [candidates_pop hab, ← h.best h34]
    split <;> rfl
  rw [if_neg h34]
  by_cases h7 : 7 ≤ id
  · have htrues := h.trues h7
    rw [part_cons hab hv, List.countP_cons] at htrues
    rw [htruth]
    by_cases hv' : isTrue vs[a] = true
    · rw [if_pos hv'] at htrues
      rw [if_pos ⟨h7, hv'⟩, if_neg (by omega)]
      refine ⟨_, rfl, by omega, by omega, by omega, by omega, fun _ => ?_⟩
      show s.trues - 1 = _
      omega
    · rw [if_neg hv', add_zero] at htrues
      rw [if_neg fun hc => hv' hc.2]
      exact ⟨s, rfl, by omega, by omega, by omega, by omega, fun _ => htrues⟩
  · rw [if_neg fun hc => h7 hc.1]
    exact ⟨s, rfl, by omega, by omega, by omega, by omega, by omega⟩

theorem holds_default (id : Nat) :
    Holds id vs ⟨.default, [], if id = 5 then emptyProduct else emptySum, 0⟩ 0 0 := by
  have hnil : part vs 0 0 = [] := part_self 0
  have hnone : numbers vs 0 0 = [] := by
    unfold numbers
    rw [hnil, List.filterMap_nil]
  refine ⟨fun _ => ?_, fun _ => (candidates_self 0).symm, fun h5 _ => ?_, fun h6 _ => ?_,
    fun _ => ?_⟩
  · rw [hnone]
    exact WindowSum.holds_default
  · rw [hnone, if_pos h5]
    rfl
  · rw [hnone, if_neg (by omega)]
    rfl
  · rw [hnil]
    rfl

/-! ## What is read off it -/

/-- The queue's front holds the extreme of the window's numbers. -/
theorem best_eq {g : Bool} (hg : g = decide (id = 4)) :
    ((candidates (costAt id vs) a b).head?.bind fun k => vs[k]?.bind number).getD (worst g) =
      (numbers vs a b).foldl (Engine.extreme g) (worst g) := by
  have hfold := cost_foldl (cost_worst g) (numbers vs a b)
  have hmem : ∀ p, p ∈ costs g (numbers vs a b) ↔
      ∃ j, a ≤ j ∧ j < b ∧ costAt id vs j = some p := by
    intro p
    unfold costs numbers costAt
    rw [List.filterMap_filterMap, List.mem_filterMap, ← hg]
    constructor
    · rintro ⟨v, hv, hp⟩
      obtain ⟨j, haj, hjb, hj⟩ := mem_part_iff.mp hv
      exact ⟨j, haj, hjb, by rw [hj, Option.bind_some]; exact hp⟩
    · rintro ⟨j, haj, hjb, hp⟩
      cases hj : vs[j]? with
      | none =>
          rw [hj] at hp
          cases hp
      | some v =>
          rw [hj, Option.bind_some] at hp
          exact ⟨v, mem_part_iff.mpr ⟨j, haj, hjb, hj⟩, hp⟩
  cases hq : candidates (costAt id vs) a b with
  | nil =>
      have hnil : costs g (numbers vs a b) = [] := by
        rw [List.eq_nil_iff_forall_not_mem]
        intro p hp
        obtain ⟨j, haj, hjb, hj⟩ := (hmem p).mp hp
        rw [candidates_eq_nil hq haj hjb] at hj
        cases hj
      rw [hnil] at hfold
      exact cost_injective (cost_worst g) hfold
  | cons k q =>
      obtain ⟨hak, hkb, p, hp, hleast⟩ := candidates_head (by rw [hq]; rfl)
      have hleast' : ∀ r ∈ costs g (numbers vs a b), p ≤ r := by
        intro r hr
        obtain ⟨j, haj, hjb, hj⟩ := (hmem r).mp hr
        exact hleast j haj hjb r hj
      have hp' := hp
      unfold costAt at hp'
      rw [← hg, Option.bind_eq_some_iff] at hp'
      obtain ⟨y, hy, hyp⟩ := hp'
      rw [foldl_min_eq ((hmem p).mpr ⟨k, hak, hkb, hp⟩) hleast' (le_worstCost hyp)] at hfold
      rw [List.head?_cons, Option.bind_some, hy, Option.getD_some]
      exact cost_injective hyp hfold

/-- The count of true values gives the logical twins. -/
theorem Holds.valueFlags (h : Holds id vs s a b) (hid : 7 ≤ id ∧ id ≤ 9) (hb : b ≤ vs.length)
    (hflags : ∀ v ∈ part vs a b, (flag v).isSome = true) :
    ∃ v, s.value id rs (b - a) = some (v, s) ∧
      evalCore (twin id) (part vs a b) = some (.ok v) := by
  have hpart := @length_part vs a b hb
  have hbools : bools (part vs a b) = .ok ((part vs a b).filterMap flag) := by
    rw [bools_eq, if_pos (List.all_eq_true.mpr hflags)]
  have hcount := countP_flags hflags
  have hlength := length_filterMap_of_isSome hflags
  have htrues := h.trues hid.1
  obtain rfl | rfl | rfl : id = 7 ∨ id = 8 ∨ id = 9 := by omega
  · refine ⟨_, rfl, ?_⟩
    show some ((bools (part vs a b)).map _) = _
    rw [hbools]
    show some (Except.ok (CellValue.bool _)) = _
    rw [all_eq_countP, hcount, hlength, hpart, htrues]
  · refine ⟨_, rfl, ?_⟩
    show some ((bools (part vs a b)).map _) = _
    rw [hbools]
    show some (Except.ok (CellValue.bool _)) = _
    rw [any_eq_countP, hcount, htrues]
  · refine ⟨_, rfl, ?_⟩
    show some ((bools (part vs a b)).map _) = _
    rw [hbools]
    show some (Except.ok (CellValue.bool _)) = _
    rw [hcount, htrues, beq_eq_decide]

/-- The exact sum gives `SUM` and `AVERAGE`. -/
theorem Holds.valueSum (h : Holds id vs s a b) (hid : id = 1 ∨ id = 2)
    (hlen : vs.length < 2 ^ 59) (hb : b ≤ vs.length)
    (hall : ∀ v ∈ part vs a b, (number v).isSome = true)
    (hnums : nums (part vs a b) = .ok (numbers vs a b)) :
    ∃ v s', s.value id rs (b - a) = some (v, s') ∧
      evalCore (twin id) (part vs a b) = some (.ok v) ∧ Holds id vs s' a b := by
  have hlength : (numbers vs a b).length = b - a := by
    rw [← @length_part vs a b hb]
    exact length_filterMap_of_isSome hall
  have hcard : (numbers vs a b).length < 2 ^ 61 := by omega
  obtain ⟨d, w, hexp, hvalue, hholds⟩ := (h.sum hid).value (by rwa [Multiset.coe_card])
  have hsum := sum_spec hcard.le hexp
  generalize (ExactSum.compact d (flagsOfAll (numbers vs a b))).value = total at hvalue hsum
  have hkeep : Holds id vs { s with sum := w } a b :=
    ⟨fun _ => hholds, by omega, by omega, by omega, by omega⟩
  obtain rfl | rfl := hid
  · refine ⟨num total, _, ?_, ?_, hkeep⟩
    · show s.sum.value.map _ = _
      rw [hvalue]
      rfl
    · rw [show twin 1 = 22 from rfl, evalCore_sum hnums, hsum]
      rfl
  · refine ⟨num (total.div (.ofNat (b - a))), _, ?_, ?_, hkeep⟩
    · show s.sum.value.map _ = _
      rw [hvalue]
      rfl
    · rw [show twin 2 = 23 from rfl, evalCore_average hnums, hsum, hlength]
      rfl

/-- The queue and the fold give the other numeric twins. -/
theorem Holds.valueFold (hvs : rs.vals = vs.map ([·])) (h : Holds id vs s a b)
    (hid : 3 ≤ id ∧ id ≤ 6) (hzero : id = 5 ∨ id = 6 → a = 0)
    (hnums : nums (part vs a b) = .ok (numbers vs a b)) :
    ∃ v, s.value id rs (b - a) = some (v, s) ∧
      evalCore (twin id) (part vs a b) = some (.ok v) := by
  have hx : x rs = fun k => vs[k]?.bind number := funext (x_eq hvs)
  obtain rfl | rfl | rfl | rfl : id = 3 ∨ id = 4 ∨ id = 5 ∨ id = 6 := by omega
  · refine ⟨_, rfl, ?_⟩
    show some ((nums (part vs a b)).map _) = _
    rw [hnums, h.best (Or.inl rfl), hx]
    exact congrArg (fun v => some (Except.ok (num v))) (@best_eq vs a b 3 false rfl).symm
  · refine ⟨_, rfl, ?_⟩
    show some ((nums (part vs a b)).map _) = _
    rw [hnums, h.best (Or.inr rfl), hx]
    exact congrArg (fun v => some (Except.ok (num v))) (@best_eq vs a b 4 true rfl).symm
  · have ha := hzero (Or.inl rfl)
    refine ⟨_, rfl, ?_⟩
    show some ((nums (part vs a b)).map _) = _
    rw [hnums, h.product rfl ha, ha]
    rfl
  · have ha := hzero (Or.inr rfl)
    refine ⟨_, rfl, ?_⟩
    show some ((nums (part vs a b)).map _) = _
    rw [hnums, h.sumsq rfl ha, ha]
    rfl

/-- The state of a window whose values are readable gives the twin of them. -/
theorem Holds.value (hvs : rs.vals = vs.map ([·])) (hlen : vs.length < 2 ^ 59)
    (hid : 1 ≤ id ∧ id ≤ 9) (h : Holds id vs s a b) (hb : b ≤ vs.length)
    (hzero : id = 5 ∨ id = 6 → a = 0) (hread : ∀ v ∈ part vs a b, readable id v = true) :
    ∃ v s', s.value id rs (b - a) = some (v, s') ∧
      evalCore (twin id) (part vs a b) = some (.ok v) ∧ Holds id vs s' a b := by
  unfold readable at hread
  by_cases h7 : 7 ≤ id
  · simp only [if_pos h7] at hread
    obtain ⟨v, hvalue, heval⟩ := @Holds.valueFlags _ _ _ _ rs _ h ⟨h7, hid.2⟩ hb hread
    exact ⟨v, s, hvalue, heval, h⟩
  · simp only [if_neg h7] at hread
    have hnums : nums (part vs a b) = .ok (numbers vs a b) := by
      rw [nums_eq, if_pos (List.all_eq_true.mpr hread)]
      rfl
    by_cases h12 : id = 1 ∨ id = 2
    · exact h.valueSum h12 hlen hb hread hnums
    · obtain ⟨v, hvalue, heval⟩ := h.valueFold hvs (by omega) hzero hnums
      exact ⟨v, s, hvalue, heval, h⟩

end Slide

end Improv.Engine
