import Improv.Engine.Extremes
import Improv.Engine.TwoLevel
/-!
# Two-level is flat

The parts of some rows, however the rows are split and in whatever order the
parts merge, give the flat reduction of all the rows in item order.  `PRODUCT`
and `SUMSQ` give it where it is an error, and else the fold of the parts' folds.
-/

namespace Improv.Engine.TwoLevel

open Lib CoreModel Kernels Builtins

variable {id : Nat}

/-! ## The first error -/

/-- `o` is the least of some errors, by position and then by code. -/
def IsFirst (es : List (Nat × Nat)) : Option (Nat × Nat) → Prop
  | none => es = []
  | some e => e ∈ es ∧ ∀ e' ∈ es, toLex e ≤ toLex e'

theorem minErr_cases (a b : Nat × Nat) :
    (minErr a b = a ∧ toLex a ≤ toLex b) ∨ (minErr a b = b ∧ toLex b ≤ toLex a) := by
  unfold minErr
  rw [Prod.Lex.toLex_le_toLex, Prod.Lex.toLex_le_toLex]
  by_cases h : b.1 < a.1 ∨ b.1 = a.1 ∧ b.2 < a.2
  · rw [if_pos h]
    exact Or.inr ⟨rfl, by omega⟩
  · rw [if_neg h]
    exact Or.inl ⟨rfl, by omega⟩

theorem IsFirst.merge {es es' : List (Nat × Nat)} {o o' : Option (Nat × Nat)} (h : IsFirst es o)
    (h' : IsFirst es' o') : IsFirst (es ++ es') (mergeErr o o') := by
  cases o with
  | none =>
      have hnil : es = [] := h
      rw [hnil, List.nil_append]
      cases o' <;> exact h'
  | some a =>
      cases o' with
      | none =>
          have hnil : es' = [] := h'
          rw [hnil, List.append_nil]
          exact h
      | some b =>
          obtain ⟨ha, hleast⟩ := h
          obtain ⟨hb, hleast'⟩ := h'
          show minErr a b ∈ es ++ es' ∧ ∀ e ∈ es ++ es', toLex (minErr a b) ≤ toLex e
          cases minErr_cases a b with
          | inl hmin =>
              rw [hmin.1]
              refine ⟨List.mem_append_left _ ha, fun e he => ?_⟩
              exact (List.mem_append.mp he).elim (hleast e) fun he => hmin.2.trans (hleast' e he)
          | inr hmin =>
              rw [hmin.1]
              refine ⟨List.mem_append_right _ hb, fun e he => ?_⟩
              exact (List.mem_append.mp he).elim (fun he => hmin.2.trans (hleast e he)) (hleast' e)

theorem IsFirst.unique {es es' : List (Nat × Nat)} (hperm : es.Perm es')
    {o o' : Option (Nat × Nat)} (h : IsFirst es o) (h' : IsFirst es' o') : o = o' := by
  cases o with
  | none =>
      have hnil : es = [] := h
      cases o' with
      | none => rfl
      | some b =>
          have hmem := hperm.mem_iff.mpr h'.1
          rw [hnil] at hmem
          cases hmem
  | some a =>
      cases o' with
      | none =>
          have hnil : es' = [] := h'
          have hmem := hperm.mem_iff.mp h.1
          rw [hnil] at hmem
          cases hmem
      | some b =>
          have hab := h.2 b (hperm.mem_iff.mpr h'.1)
          have hba := h'.2 a (hperm.mem_iff.mp h.1)
          rw [toLex_inj.mp (le_antisymm hab hba)]

/-- Rows in item order: by position, then by value. -/
def InOrder (l : List Row) : Prop := l.Pairwise fun a b => toLex a ≤ toLex b

theorem err_le_err {c c' : Nat} (h : CellValue.err c ≤ .err c') : c ≤ c' := by
  have hkey : CellValue.orderKey (.err c) ≤ CellValue.orderKey (.err c') := h
  unfold CellValue.orderKey at hkey
  simp only [Prod.Lex.toLex_le_toLex] at hkey
  simp at hkey
  omega

theorem mem_errorsOf_iff {l : List Row} {e : Nat × Nat} :
    e ∈ errorsOf l ↔ (e.1, CellValue.err e.2) ∈ l := by
  unfold errorsOf
  rw [List.mem_filterMap]
  constructor
  · rintro ⟨⟨pos, v⟩, hr, heq⟩
    cases v with
    | err c => cases heq; exact hr
    | _ => cases heq
  · intro h
    exact ⟨_, h, rfl⟩

/-- The first error of rows in item order is their least. -/
theorem isFirst_head {l : List Row} (h : InOrder l) : IsFirst (errorsOf l) (errorsOf l).head? := by
  have hsorted : (errorsOf l).Pairwise fun a b => toLex a ≤ toLex b := by
    refine List.Pairwise.filterMap _ (fun r r' hle e he e' he' => ?_) h
    obtain ⟨pos, v⟩ := r
    obtain ⟨pos', v'⟩ := r'
    cases v with
    | err c =>
        cases v' with
        | err c' =>
            cases he
            cases he'
            rw [Prod.Lex.toLex_le_toLex] at hle ⊢
            exact hle.imp_right fun hlast => ⟨hlast.1, err_le_err hlast.2⟩
        | _ => cases he'
    | _ => cases he
  cases hes : errorsOf l with
  | nil => rfl
  | cons e es =>
      rw [hes] at hsorted
      refine ⟨List.mem_cons_self, fun e' he' => ?_⟩
      cases List.mem_cons.mp he' with
      | inl heq => rw [heq]
      | inr hmem => exact (List.pairwise_cons.mp hsorted).1 e' hmem

/-! ## Merging -/

/-- The fold of some rows' numbers. -/
def foldRows (id : Nat) (l : List Row) : F64 := (numbersOf l).foldl (foldOf id).2 (foldOf id).1

/-- The exact sum of some parts' exact sums. -/
def grouping (ls : List (List Row)) : Grouping :=
  ls.foldl (fun g l => .combine g (.oneByOne (numbersOf l))) .nil

/-- A merge on the way tells the parts so far. -/
structure State.TellsAll (id : Nat) (ls : List (List Row)) (s : State) : Prop where
  n : s.p.n = ls.flatten.length
  err : IsFirst (errorsOf ls.flatten) s.p.err
  bad : s.p.bad = ls.flatten.any fun r => unreadable id r.2
  k : s.p.k = ls.flatten.countP fun r => counted id r.2
  acc : ¬(id = 1 ∨ id = 2) →
    s.acc = ls.foldl (fun a l => combine id a (foldRows id l)) (foldOf id).1
  sum : id = 1 ∨ id = 2 → (grouping ls).run = some s.sum

theorem terms_grouping (ls : List (List Row)) :
    (grouping ls).terms = (numbersOf ls.flatten : Multiset F64) := by
  unfold grouping
  induction ls using List.reverseRecOn with
  | nil => rfl
  | append_singleton ls l ih =>
      rw [List.foldl_append, List.foldl_cons, List.foldl_nil, Grouping.terms, ih,
        Grouping.terms_oneByOne, List.flatten_append, List.flatten_singleton]
      unfold numbersOf
      rw [List.filterMap_append, Multiset.coe_add]

theorem grouping_snoc (ls : List (List Row)) (l : List Row) :
    grouping (ls ++ [l]) = .combine (grouping ls) (.oneByOne (numbersOf l)) := by
  unfold grouping
  rw [List.foldl_append]
  rfl

/-- One more part. -/
theorem State.TellsAll.addPart {ls : List (List Row)} {s : State} (h : s.TellsAll id ls)
    {l : List Row}
    (hl : InOrder l) {P : Part} (hP : Tells id l P)
    (hlen : id = 1 ∨ id = 2 → (ls.flatten ++ l).length < 2 ^ 45) :
    ∃ s', s.addPart id P = some s' ∧ s'.TellsAll id (ls ++ [l]) := by
  have hflat : (ls ++ [l]).flatten = ls.flatten ++ l := by
    rw [List.flatten_append, List.flatten_singleton]
  have hfirst : IsFirst (errorsOf (ls.flatten ++ l)) (mergeErr s.p.err P.err) := by
    rw [show errorsOf (ls.flatten ++ l) = errorsOf ls.flatten ++ errorsOf l from
      List.filterMap_append, hP.err]
    exact h.err.merge (isFirst_head hl)
  unfold State.addPart
  dsimp only
  have hn : s.p.n + P.n = (ls ++ [l]).flatten.length := by
    rw [hflat, List.length_append, h.n, hP.n]
  have hbad : (s.p.bad || P.bad) = (ls ++ [l]).flatten.any fun r => unreadable id r.2 := by
    rw [hflat, List.any_append, h.bad, hP.bad]
  have hk : s.p.k + P.k = (ls ++ [l]).flatten.countP fun r => counted id r.2 := by
    rw [hflat, List.countP_append, h.k, hP.k]
  by_cases h12 : id = 1 ∨ id = 2
  · have hcard : (grouping (ls ++ [l])).terms.card < 2 ^ 45 := by
      rw [terms_grouping, hflat, Multiset.coe_card]
      exact (List.length_filterMap_le _ _).trans_lt (hlen h12)
    obtain ⟨a, V, hrun, -⟩ := Grouping.run_spec _ hcard
    have hsum := hrun
    rw [grouping_snoc] at hsum
    unfold Grouping.run at hsum
    have hexact := hP.sum h12
    unfold Grouping.exact at hexact
    rw [h.sum h12, Option.bind_eq_bind, Option.bind_some] at hsum
    rw [Option.bind_eq_bind, Option.bind_eq_some_iff] at hexact
    obtain ⟨q, hq, hread⟩ := hexact
    rw [Option.bind_eq_bind, Option.bind_eq_some_iff] at hread
    obtain ⟨⟨e, q'⟩, hread, heq⟩ := hread
    cases heq
    rw [hq, Option.bind_eq_bind, Option.bind_some, hread] at hsum
    have hadd : s.sum.addExact P.sum = some a := hsum
    rw [if_pos h12, hadd]
    exact ⟨_, rfl, hn, by rw [hflat]; exact hfirst, hbad, hk, fun hne => absurd h12 hne,
      fun _ => hrun⟩
  · rw [if_neg h12]
    refine ⟨_, rfl, hn, by rw [hflat]; exact hfirst, hbad, hk, fun _ => ?_,
      fun hc => absurd hc h12⟩
    rw [List.foldl_append, ← h.acc h12, hP.acc h12, ofBits_toBits]
    rfl

/-- Every part in turn. -/
theorem State.TellsAll.addParts {ls done : List (List Row)} {s : State} (h : s.TellsAll id done)
    (hls : ∀ l ∈ ls, InOrder l) {Ps : List Part} (hPs : List.Forall₂ (Tells id) ls Ps)
    (hlen : id = 1 ∨ id = 2 → (done ++ ls).flatten.length < 2 ^ 45) :
    ∃ s', Ps.foldlM (State.addPart id) s = some s' ∧ s'.TellsAll id (done ++ ls) := by
  induction hPs generalizing done s with
  | nil => exact ⟨s, rfl, by rwa [List.append_nil]⟩
  | @cons l P ls Ps hP _ ih =>
      have hassoc : done ++ l :: ls = (done ++ [l]) ++ ls := by simp
      rw [hassoc] at hlen ⊢
      obtain ⟨s₁, hadd, hs₁⟩ := h.addPart (hls l List.mem_cons_self) hP fun h12 => by
        have hlt := hlen h12
        rw [List.flatten_append, List.flatten_append, List.flatten_singleton,
          List.length_append] at hlt
        omega
      obtain ⟨s', hrest, hs'⟩ := ih hs₁ (fun l' hl' => hls l' (List.mem_cons_of_mem l hl')) hlen
      refine ⟨s', ?_, hs'⟩
      rw [List.foldlM_cons, hadd]
      exact hrest

/-- What a merge tells of its parts. -/
structure Merged (id : Nat) (ls : List (List Row)) (P : Part) : Prop where
  n : P.n = ls.flatten.length
  err : IsFirst (errorsOf ls.flatten) P.err
  bad : P.bad = ls.flatten.any fun r => unreadable id r.2
  k : P.k = ls.flatten.countP fun r => counted id r.2
  acc : ¬(id = 1 ∨ id = 2) →
    .ofBits P.acc = ls.foldl (fun a l => combine id a (foldRows id l)) (foldOf id).1
  sum : id = 1 ∨ id = 2 → (grouping ls).exact = some P.sum

theorem merge_spec {ls : List (List Row)} (hls : ∀ l ∈ ls, InOrder l) {Ps : List Part}
    (hPs : List.Forall₂ (Tells id) ls Ps)
    (hlen : id = 1 ∨ id = 2 → ls.flatten.length < 2 ^ 45) :
    ∃ P, merge ⟨id⟩ Ps = some P ∧ Merged id ls P := by
  have hstart : State.TellsAll id [] ⟨.empty 0, (foldOf id).1, .default⟩ :=
    ⟨rfl, rfl, rfl, rfl, fun _ => rfl, fun _ => rfl⟩
  obtain ⟨s, hfold, hs⟩ := hstart.addParts hls hPs hlen
  rw [List.nil_append] at hs
  unfold merge
  dsimp only
  rw [hfold, Option.bind_eq_bind, Option.bind_some]
  by_cases h12 : id = 1 ∨ id = 2
  · have hcard : (grouping ls).terms.card < 2 ^ 45 := by
      rw [terms_grouping, Multiset.coe_card]
      exact (List.length_filterMap_le _ _).trans_lt (hlen h12)
    obtain ⟨a, V, hrun, hden, -, htracks⟩ := Grouping.run_spec _ hcard
    obtain ⟨d, a', -, hexact, -, -⟩ := ExactSum.exact_spec hden
      ((htracks.range hcard).le.trans carryRange_le)
    rw [hs.sum h12, Option.some.injEq] at hrun
    rw [if_pos h12, hrun]
    show ∃ P, (a.exact.bind _) = some P ∧ _
    rw [hexact]
    refine ⟨_, rfl, hs.n, hs.err, hs.bad, hs.k, fun hne => absurd h12 hne, fun _ => ?_⟩
    unfold Grouping.exact
    rw [hs.sum h12, hrun, Option.bind_eq_bind, Option.bind_some, hexact]
    rfl
  · rw [if_neg h12]
    refine ⟨_, rfl, hs.n, hs.err, hs.bad, hs.k, fun _ => ?_, fun hc => absurd hc h12⟩
    rw [← hs.acc h12, ofBits_toBits]

/-! ## Extremes -/

theorem foldl_min_assoc (c : List Int) (u w : Int) :
    c.foldl Min.min (Min.min u w) = Min.min u (c.foldl Min.min w) := by
  induction c generalizing w with
  | nil => rfl
  | cons p c ih => rw [List.foldl_cons, List.foldl_cons, min_assoc, ih]

theorem foldl_min_le (c : List Int) (u : Int) : c.foldl Min.min u ≤ u := by
  induction c generalizing u with
  | nil => exact le_rfl
  | cons p c ih => exact (ih _).trans (min_le_left u p)

theorem foldl_min_flatten (cs : List (List Int)) {u w : Int} (h : u ≤ w) :
    (cs.map fun c => c.foldl Min.min w).foldl Min.min u = cs.flatten.foldl Min.min u := by
  induction cs generalizing u with
  | nil => rfl
  | cons c cs ih =>
      have hfirst : Min.min u (c.foldl Min.min w) = c.foldl Min.min u := by
        rw [← foldl_min_assoc, min_eq_left h]
      rw [List.map_cons, List.foldl_cons, hfirst, List.flatten_cons, List.foldl_append]
      exact ih ((foldl_min_le c u).trans h)

/-- The extreme of the parts' extremes is that of all rows. -/
theorem foldl_extreme_eq {g : Bool} {ls : List (List F64)} {l : List F64} (h : ls.flatten.Perm l) :
    (ls.map fun xs => xs.foldl (extreme g) (worst g)).foldl (extreme g) (worst g) =
      l.foldl (extreme g) (worst g) := by
  have hparts : costs g (ls.map fun xs => xs.foldl (extreme g) (worst g)) =
      (ls.map (costs g)).map fun c => c.foldl Min.min (worstCost g) := by
    show List.filterMap (cost g) _ = _
    rw [List.filterMap_map, List.map_map, ← List.filterMap_eq_map]
    exact List.filterMap_congr fun xs _ => cost_foldl (cost_worst g) xs
  have hall : (ls.map (costs g)).flatten.Perm (costs g l) := by
    have hflat : (ls.map (costs g)).flatten = costs g ls.flatten := List.filterMap_flatten.symm
    rw [hflat]
    exact h.filterMap _
  have hleft := cost_foldl (cost_worst g) (ls.map fun xs => xs.foldl (extreme g) (worst g))
  rw [hparts, foldl_min_flatten _ le_rfl, hall.foldl_op_eq] at hleft
  exact cost_injective hleft (cost_foldl (cost_worst g) l)

/-! ## The flat reduction -/

/-- The fixed two-level fold of `PRODUCT` and `SUMSQ`. -/
def twoLevelFold (id : Nat) (ls : List (List Row)) : F64 :=
  ls.foldl (fun a l => combine id a (foldRows id l)) (foldOf id).1

theorem isFinite_ofNat {k : Nat} (hk : k < 2 ^ 61) : (F64.ofNat k).isFinite = true := by
  unfold F64.ofNat F64.ofRatio
  have hle : F64.roundUnits (k * F64.one) 1 ≤ 2 ^ 1135 := by
    apply F64.roundUnits_le (F64.significand_pow 1135)
    calc k * F64.one ≤ 2 ^ 61 * F64.one := Nat.mul_le_mul_right _ hk.le
      _ = 2 ^ 1135 := by
        unfold F64.one
        rw [← pow_add]
  have hfits : representable (F64.roundUnits (k * F64.one) 1) = true :=
    F64.representable_iff.mpr ⟨hle.trans_lt (Nat.pow_lt_pow_right (by norm_num) (by norm_num)),
      F64.significand_roundUnits _⟩
  unfold F64.ofUnits
  rw [dif_pos hfits]
  rfl

theorem find?_isErr (l : List Row) : (l.map fun r => r.2).find? CellValue.isErr =
    (errorsOf l).head?.map fun e => .err e.2 := by
  induction l with
  | nil => rfl
  | cons r l ih =>
      obtain ⟨pos, v⟩ := r
      rw [List.map_cons, List.find?_cons, errorsOf_cons, ih]
      cases v <;> rfl

theorem readable_iff {v : CellValue} (hid : id ≤ 9) :
    readable id v = true ↔ v.isErr = false ∧ unreadable id v = false := by
  constructor
  · intro h
    have herr : v.isErr = false := by
      cases v with
      | err c =>
          unfold readable at h
          split at h <;> cases h
      | _ => rfl
    refine ⟨herr, ?_⟩
    unfold unreadable
    rw [h, Bool.not_true, Bool.and_false]
  · rintro ⟨herr, hread⟩
    unfold unreadable at hread
    rw [herr, decide_eq_true hid] at hread
    simpa using hread

/-- The result from a merged part whose rows are all readable. -/
def finishReadable (id : Nat) (M : Part) : CellValue :=
  let acc := if id = 1 ∨ id = 2 then M.sum.value else .ofBits M.acc
  match id with
  | 2 => num (acc.div (.ofNat M.n))
  | 7 => .bool (M.k = M.n)
  | 8 => .bool (0 < M.k)
  | 9 => .bool (M.k % 2 = 1)
  | _ => num acc

theorem finish_eq {M : Part} (hid : id ≤ 9) (herr : M.err = none) (hbad : M.bad = false) :
    finish ⟨id⟩ M = finishReadable id M := by
  unfold finish
  rw [if_neg (by dsimp only; omega), if_neg (by dsimp only; omega), herr, hbad]
  rfl

section Finishing

variable {ls : List (List Row)} {l : List Row} {M : Part}

theorem numbersOf_perm (h : ls.flatten.Perm l) :
    (numbersOf ls.flatten : Multiset F64) = numbersOf l := by
  rw [Multiset.coe_eq_coe]
  exact h.filterMap _

/-- The merged exact sum is that of all rows. -/
theorem Merged.sum_eq (h : Merged id ls M) (hperm : ls.flatten.Perm l) (h12 : id = 1 ∨ id = 2)
    (hlen : l.length ≤ 2 ^ 45 - 2 ^ 13) : Builtins.sum (numbersOf l) = some M.sum.value := by
  have hnumbers : (numbersOf l).length ≤ 2 ^ 45 - 2 ^ 13 :=
    (List.length_filterMap_le _ _).trans hlen
  have hterms : (grouping ls).terms = (numbersOf l : Multiset F64) := by
    rw [terms_grouping, numbersOf_perm hperm]
  have hcard : (grouping ls).terms.card ≤ 2 ^ 45 - 2 ^ 13 := by
    rwa [hterms, Multiset.coe_card]
  obtain ⟨d, hexp, hexact⟩ := Grouping.exact_spec (hcard.trans_lt (by norm_num))
    (Grouping.inRange_of_card_le hcard)
  rw [h.sum h12, Option.some.injEq, hterms] at hexact
  rw [hterms] at hexp
  rw [hexact]
  exact sum_spec (by omega) hexp

/-- The merged accumulator of `MIN` and `MAX` is the fold of all rows. -/
theorem Merged.extreme_eq (h : Merged id ls M) (hperm : ls.flatten.Perm l) {g : Bool}
    (hstep : (foldOf id).2 = extreme g) (hcombine : combine id = extreme g)
    (hstart : (foldOf id).1 = worst g) (h12 : ¬(id = 1 ∨ id = 2)) :
    .ofBits M.acc = (numbersOf l).foldl (extreme g) (worst g) := by
  have hflat : (ls.map numbersOf).flatten.Perm (numbersOf l) := by
    have heq : (ls.map numbersOf).flatten = numbersOf ls.flatten := List.filterMap_flatten.symm
    rw [heq]
    exact hperm.filterMap _
  rw [h.acc h12, hstart, ← foldl_extreme_eq hflat, List.map_map, List.foldl_map]
  congr 1
  funext a l'
  rw [hcombine]
  show extreme g a ((numbersOf l').foldl (foldOf id).2 (foldOf id).1) = _
  rw [hstep, hstart]
  rfl

/-- Where every value is readable, the merged part finishes as the twin of all
rows. -/
theorem Merged.finish_twin (h : Merged id ls M) (hperm : ls.flatten.Perm l)
    (hid : 1 ≤ id ∧ id ≤ 9) (h56 : ¬(id = 5 ∨ id = 6))
    (hsum : id = 1 ∨ id = 2 → l.length ≤ 2 ^ 45 - 2 ^ 13)
    (hread : ∀ v ∈ l.map (·.2), readable id v = true) :
    evalCore (twin id) (l.map (·.2)) = some (.ok (finish ⟨id⟩ M)) := by
  have hn : M.n = l.length := h.n.trans hperm.length_eq
  have hclean : ∀ r ∈ ls.flatten, r.2.isErr = false ∧ unreadable id r.2 = false := fun r hr =>
    (readable_iff hid.2).mp (hread r.2 (List.mem_map_of_mem (hperm.mem_iff.mp hr)))
  have hnone : M.err = none := by
    have hfirst := h.err
    cases herr : M.err with
    | none => rfl
    | some e =>
        rw [herr] at hfirst
        have hbad := (hclean _ (mem_errorsOf_iff.mp hfirst.1)).1
        cases hbad
  have hgood : M.bad = false := by
    rw [h.bad, List.any_eq_false]
    exact fun r hr => by rw [(hclean r hr).2]; decide
  rw [finish_eq hid.2 hnone hgood]
  by_cases h7 : 7 ≤ id
  · have hflags : ∀ v ∈ l.map (·.2), (flag v).isSome = true := fun v hv => by
      have hv' := hread v hv
      unfold readable at hv'
      rwa [if_pos h7] at hv'
    have hbools : bools (l.map (·.2)) = .ok ((l.map (·.2)).filterMap flag) := by
      rw [bools_eq, if_pos (List.all_eq_true.mpr hflags)]
    have hk : ((l.map (·.2)).filterMap flag).countP (· = true) = M.k := by
      rw [countP_flags hflags, h.k, hperm.countP_eq, List.countP_map]
      congr 1
      funext r
      unfold counted
      rw [if_neg (by omega), decide_eq_true ⟨h7, hid.2⟩, Bool.true_and]
      rfl
    have hlength : ((l.map (·.2)).filterMap flag).length = M.n := by
      rw [length_filterMap_of_isSome hflags, List.length_map, hn]
    obtain rfl | rfl | rfl : id = 7 ∨ id = 8 ∨ id = 9 := by omega
    · show some ((bools (l.map (·.2))).map _) = _
      rw [hbools]
      show some (Except.ok (CellValue.bool _)) = _
      rw [all_eq_countP, hk, hlength]
      rfl
    · show some ((bools (l.map (·.2))).map _) = _
      rw [hbools]
      show some (Except.ok (CellValue.bool _)) = _
      rw [any_eq_countP, hk]
      rfl
    · show some ((bools (l.map (·.2))).map _) = _
      rw [hbools]
      show some (Except.ok (CellValue.bool _)) = _
      rw [hk, beq_eq_decide]
      rfl
  · have hall : ∀ v ∈ l.map (·.2), (number v).isSome = true := fun v hv => by
      have hv' := hread v hv
      unfold readable at hv'
      rwa [if_neg h7] at hv'
    have hnumbers : (l.map (·.2)).filterMap number = numbersOf l := List.filterMap_map
    have hnums : nums (l.map (·.2)) = .ok (numbersOf l) := by
      rw [nums_eq, if_pos (List.all_eq_true.mpr hall), hnumbers]
    have hlength : (numbersOf l).length = M.n := by
      rw [← hnumbers, length_filterMap_of_isSome hall, List.length_map, hn]
    obtain rfl | rfl | rfl | rfl : id = 1 ∨ id = 2 ∨ id = 3 ∨ id = 4 := by omega
    · rw [show twin 1 = 22 from rfl, evalCore_sum hnums, h.sum_eq hperm (Or.inl rfl)
        (hsum (Or.inl rfl))]
      rfl
    · rw [show twin 2 = 23 from rfl, evalCore_average hnums, h.sum_eq hperm (Or.inr rfl)
        (hsum (Or.inr rfl)), hlength]
      rfl
    · show some ((nums (l.map (·.2))).map _) = _
      have hacc := h.extreme_eq hperm (g := false) rfl rfl rfl (by decide)
      rw [hnums]
      exact congrArg (fun v => some (Except.ok (num v))) hacc.symm
    · show some ((nums (l.map (·.2))).map _) = _
      have hacc := h.extreme_eq hperm (g := true) rfl rfl rfl (by decide)
      rw [hnums]
      exact congrArg (fun v => some (Except.ok (num v))) hacc.symm

theorem Merged.err_eq (h : Merged id ls M) (hperm : ls.flatten.Perm l) (hl : InOrder l) :
    M.err = (errorsOf l).head? :=
  h.err.unique (hperm.filterMap _) (isFirst_head hl)

theorem Merged.bad_eq (h : Merged id ls M) (hperm : ls.flatten.Perm l) :
    M.bad = l.any fun r => unreadable id r.2 := by
  rw [h.bad, Bool.eq_iff_iff, List.any_eq_true, List.any_eq_true]
  simp only [hperm.mem_iff]

theorem Merged.k_eq (h : Merged id ls M) (hperm : ls.flatten.Perm l) :
    M.k = (l.map (·.2)).countP (counted id) := by
  rw [h.k, hperm.countP_eq, List.countP_map]
  rfl

theorem num_ofNat {k : Nat} (hk : k < 2 ^ 61) : num (.ofNat k) = .ofF64 (.ofNat k) := by
  unfold num
  rw [if_pos (isFinite_ofNat hk)]

/-- The merged part of the parts of some rows finishes as the flat reduction of
all of them, but for the folds of `PRODUCT` and `SUMSQ`. -/
theorem Merged.finish_flat (h : Merged id ls M) (capacity : Nat) (hperm : ls.flatten.Perm l)
    (hl : InOrder l)
    (hid : 1 ≤ id ∧ id ≤ 9) (hlen : l.length ≤ 2 ^ 61)
    (hsum : id = 1 ∨ id = 2 → l.length ≤ 2 ^ 45 - 2 ^ 13) :
    ∃ v, core id (rowsOf capacity l) = some v ∧ finish ⟨id⟩ M =
      if (id = 5 ∨ id = 6) ∧ (∀ r ∈ l, readable id r.2 = true) then num (twoLevelFold id ls)
      else v := by
  have hcore : core id (rowsOf capacity l) = _ := core_eq (l := l.map (·.2)) (by
    unfold rowsOf
    rw [List.map_map]
    rfl)
  have herr := h.err_eq hperm hl
  rw [hcore, find?_isErr]
  cases hfirst : (errorsOf l).head? with
  | some e =>
      have hmem := mem_errorsOf_iff.mp (List.mem_of_head? hfirst)
      have hnot : ¬∀ r ∈ l, readable id r.2 = true := fun hall => by
        have herr := ((readable_iff hid.2).mp (hall _ hmem)).1
        cases herr
      refine ⟨.err e.2, rfl, ?_⟩
      rw [if_neg fun hc => hnot hc.2]
      unfold finish
      rw [if_neg (by dsimp only; omega), if_neg (by dsimp only; omega), herr, hfirst]
  | none =>
      have hnone : M.err = none := herr.trans hfirst
      by_cases hread : ∀ r ∈ l, readable id r.2 = true
      · have hvals : ∀ v ∈ l.map (·.2), readable id v = true := fun v hv => by
          obtain ⟨r, hr, rfl⟩ := List.mem_map.mp hv
          exact hread r hr
        obtain ⟨r, hr⟩ := evalCore_isSome hid (a := l.map (·.2)) (by rwa [List.length_map])
        refine ⟨valueOf r, congrArg (Option.map valueOf) hr, ?_⟩
        by_cases h56 : id = 5 ∨ id = 6
        · have hgood : M.bad = false := by
            rw [h.bad_eq hperm, List.any_eq_false]
            exact fun r hr => by rw [((readable_iff hid.2).mp (hread r hr)).2]; decide
          rw [if_pos ⟨h56, hread⟩, finish_eq hid.2 hnone hgood]
          have hacc := h.acc (by omega)
          obtain rfl | rfl := h56
          all_goals exact congrArg num hacc
        · rw [if_neg fun hc => h56 hc.1]
          have htwin := h.finish_twin hperm hid h56 hsum hvals
          rw [hr, Option.some.injEq] at htwin
          rw [htwin]
          rfl
      · have hall : (l.map (·.2)).all (readable id) = false := by
          rw [List.all_map, ← Bool.not_eq_true, List.all_eq_true]
          exact hread
        have hbad : M.bad = true := by
          have hvalue : ∀ r ∈ l, r.2.isErr = false := by
            have hfind : (l.map fun r => r.2).find? CellValue.isErr = none := by
              rw [find?_isErr, hfirst]
              rfl
            exact fun r hr => by simpa using List.find?_eq_none.mp hfind _ (List.mem_map_of_mem hr)
          rw [h.bad_eq hperm, List.any_eq_true]
          push Not at hread
          obtain ⟨r, hr, hunread⟩ := hread
          refine ⟨r, hr, ?_⟩
          by_contra hc
          exact hunread ((readable_iff hid.2).mpr ⟨hvalue r hr, by simpa using hc⟩)
        refine ⟨.err Err.VALUE, ?_, ?_⟩
        · show Option.map valueOf (evalCore (twin id) _) = _
          rw [evalCore_unreadable hid hall]
          rfl
        · rw [if_neg fun hc => hread hc.2]
          unfold finish
          rw [if_neg (by dsimp only; omega), if_neg (by dsimp only; omega), hnone, hbad]
          rfl

end Finishing

end Improv.Engine.TwoLevel
