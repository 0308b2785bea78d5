import Improv.PgModel.Statements
/-!
# One slot for several models

The batch decoded from the shared slot is split by model, and the slot moves no
further than every model has applied.  A model loses nothing by the split: its
share does to it what the whole batch does.
-/

namespace Improv.PgModel

open Improv.Lib Improv.CoreModel Improv.Engine

/-! ## Where the slot stops -/

/-- Transactions in commit order. -/
def InOrder (txns : List Txn) : Prop := txns.Pairwise fun t u => t.endLsn < u.endLsn

instance (txns : List Txn) : Decidable (InOrder txns) :=
  inferInstanceAs (Decidable (txns.Pairwise _))

/-- The end of the last transaction before a position, 0 where there is none. -/
def endBefore (done : List Txn) (first : Nat) : Nat :=
  match partitionPoint done first with
  | 0 => 0
  | i + 1 => (done[i]?).elim 0 Txn.endLsn

theorem endBefore_cons_of_lt {t : Txn} {done : List Txn} {first : Nat} (h : t.endLsn < first) :
    endBefore (t :: done) first =
      if partitionPoint done first = 0 then t.endLsn else endBefore done first := by
  unfold endBefore partitionPoint
  rw [List.takeWhile_cons_of_pos (by simpa using h), List.length_cons]
  cases (done.takeWhile fun t => t.endLsn < first).length with
  | zero => rfl
  | succ i => rfl

/-- It is an end, and before the position. -/
theorem endBefore_spec {done : List Txn} {first : Nat} (h : partitionPoint done first ≠ 0) :
    ∃ t ∈ done, t.endLsn = endBefore done first ∧ t.endLsn < first := by
  induction done with
  | nil => exact absurd rfl h
  | cons t done ih =>
      have ht : t.endLsn < first := by
        by_contra hnot
        apply h
        unfold partitionPoint
        rw [List.takeWhile_cons_of_neg (by simpa using hnot)]
        rfl
      rw [endBefore_cons_of_lt ht]
      by_cases hzero : partitionPoint done first = 0
      · rw [if_pos hzero]
        exact ⟨t, List.mem_cons_self, rfl, ht⟩
      · rw [if_neg hzero]
        obtain ⟨u, hu, huend, hlt⟩ := ih hzero
        exact ⟨u, List.mem_cons_of_mem t hu, huend, hlt⟩

theorem endBefore_of_zero {done : List Txn} {first : Nat} (h : partitionPoint done first = 0) :
    endBefore done first = 0 := by
  unfold endBefore
  rw [h]

theorem endBefore_lt (done : List Txn) {first : Nat} (hfirst : 0 < first) :
    endBefore done first < first := by
  by_cases hzero : partitionPoint done first = 0
  · rw [endBefore_of_zero hzero]
    exact hfirst
  · obtain ⟨t, _, hend, hlt⟩ := endBefore_spec hzero
    rw [← hend]
    exact hlt

/-- Where none comes before the position at the front, none does. -/
theorem not_lt_of_partitionPoint {done : List Txn} (hdone : InOrder done) {first : Nat}
    (h : partitionPoint done first = 0) {t : Txn} (ht : t ∈ done) : ¬t.endLsn < first := by
  cases done with
  | nil => cases ht
  | cons u done =>
      have hu : ¬u.endLsn < first := by
        intro hu
        unfold partitionPoint at h
        rw [List.takeWhile_cons_of_pos (by simpa using hu)] at h
        cases h
      rcases List.mem_cons.mp ht with rfl | ht
      · exact hu
      · have hut := (List.pairwise_cons.mp hdone).1 t ht
        omega

/-- No end before the position is past it. -/
theorem le_endBefore {done : List Txn} (hdone : InOrder done) {first : Nat} {t : Txn}
    (ht : t ∈ done) (hlt : t.endLsn < first) : t.endLsn ≤ endBefore done first := by
  induction done with
  | nil => cases ht
  | cons u done ih =>
      obtain ⟨hu, hrest⟩ := List.pairwise_cons.mp hdone
      have hufirst : u.endLsn < first := by
        rcases List.mem_cons.mp ht with rfl | ht
        · exact hlt
        · have hut := hu t ht
          omega
      rw [endBefore_cons_of_lt hufirst]
      by_cases hzero : partitionPoint done first = 0
      · rw [if_pos hzero]
        rcases List.mem_cons.mp ht with rfl | ht
        · exact le_rfl
        · exact absurd hlt (not_lt_of_partitionPoint hrest hzero ht)
      · rw [if_neg hzero]
        rcases List.mem_cons.mp ht with rfl | ht
        · obtain ⟨v, hv, hend, _⟩ := endBefore_spec hzero
          have hle := hu v hv
          omega
        · exact ih hrest ht

/-! ## The least of some positions -/

theorem foldl_min_le_left (ns : List Nat) (a : Nat) : ns.foldl min a ≤ a := by
  induction ns generalizing a with
  | nil => exact le_rfl
  | cons n ns ih => exact (ih (min a n)).trans (min_le_left a n)

theorem foldl_min_le {ns : List Nat} (a : Nat) {n : Nat} (hn : n ∈ ns) : ns.foldl min a ≤ n := by
  induction ns generalizing a with
  | nil => cases hn
  | cons k ns ih =>
      rcases List.mem_cons.mp hn with rfl | hn
      · exact (foldl_min_le_left ns (min a n)).trans (min_le_right a n)
      · exact ih (min a k) hn

theorem le_foldl_min {ns : List Nat} {a b : Nat} (ha : b ≤ a) (hns : ∀ n ∈ ns, b ≤ n) :
    b ≤ ns.foldl min a := by
  induction ns generalizing a with
  | nil => exact ha
  | cons n ns ih =>
      exact ih (le_min ha (hns n List.mem_cons_self)) fun k hk =>
        hns k (List.mem_cons_of_mem n hk)

theorem foldl_min_mem (ns : List Nat) (a : Nat) : ns.foldl min a = a ∨ ns.foldl min a ∈ ns := by
  induction ns generalizing a with
  | nil => exact .inl rfl
  | cons n ns ih =>
      rcases ih (min a n) with h | h
      · rcases min_choice a n with hmin | hmin
        · exact .inl (h.trans hmin)
        · exact .inr (List.mem_cons.mpr (.inl (h.trans hmin)))
      · exact .inr (List.mem_cons_of_mem n h)

theorem slotHold_eq (target : Nat) (done : List Txn) (firsts : List Nat) :
    slotHold target done firsts = (firsts.map (endBefore done)).foldl min target := rfl

/-! ## A model's share -/

/-- A transaction with only the changes that reach a model. -/
def share (models : SortedMap Nat (List Int)) (m : Int) (t : Txn) : Txn :=
  { t with changes := t.changes.filter fun c => m ∈ hit models c }

theorem nodup_hit (models : SortedMap Nat (List Int)) (c : Message) : (hit models c).Nodup := by
  unfold hit
  rw [(List.mergeSort_perm _ _).nodup_iff]
  exact List.nodup_dedup _

theorem mem_hit_iff {models : SortedMap Nat (List Int)} {m : Int} {c : Message} :
    m ∈ hit models c ↔ ∃ r ∈ c.rels, m ∈ models.group r := by
  unfold hit
  rw [List.mem_mergeSort, List.mem_dedup, List.mem_flatMap]
  rfl

/-- The changes of a transaction by model, as pairs. -/
theorem routeChanges_eq (models : SortedMap Nat (List Int)) (changes : List Message) :
    routeChanges models changes =
      (changes.flatMap fun c => (hit models c).map fun m => (m, c)).foldl
        (fun per p => per.push p.1 p.2) .empty := by
  unfold routeChanges
  rw [List.foldl_flatMap]
  simp only [List.foldl_map]

theorem group_routeChanges (models : SortedMap Nat (List Int)) (changes : List Message) (m : Int) :
    (routeChanges models changes).group m = changes.filter fun c => m ∈ hit models c := by
  rw [routeChanges_eq, SortedMap.group_foldl_push, SortedMap.group_empty, List.nil_append]
  induction changes with
  | nil => rfl
  | cons c changes ih =>
      rw [List.flatMap_cons, List.filter_append, List.map_append, ih]
      have hone : ((((hit models c).map fun m => (m, c)).filter fun p => p.1 = m).map (·.2)) =
          if m ∈ hit models c then [c] else [] := by
        rw [List.filter_map, List.map_map]
        have hfilter : (hit models c).filter ((fun p => decide (p.1 = m)) ∘ fun m => (m, c)) =
            (hit models c).filter fun x => x = m := rfl
        rw [hfilter]
        by_cases hm : m ∈ hit models c
        · rw [if_pos hm, List.filter_eq, (List.count_eq_one_of_mem (nodup_hit models c) hm)]
          rfl
        · rw [if_neg hm, List.filter_eq, List.count_eq_zero_of_not_mem hm]
          rfl
      rw [hone]
      by_cases hm : m ∈ hit models c
      · rw [if_pos hm, List.filter_cons_of_pos (by simpa using hm)]
        rfl
      · rw [if_neg hm, List.filter_cons_of_neg (by simpa using hm)]
        rfl

theorem nonempty_routeChanges (models : SortedMap Nat (List Int)) (changes : List Message) :
    (routeChanges models changes).Nonempty := by
  rw [routeChanges_eq]
  exact SortedMap.Nonempty.empty.foldl_push _

/-- What a model is given: its share of each transaction, those it has no part in
left out. -/
theorem group_route (txns : List Txn) (models : SortedMap Nat (List Int)) (m : Int) :
    (route txns models).group m =
      (txns.map (share models m)).filter fun t => t.changes ≠ [] := by
  have hroute : route txns models =
      (txns.flatMap fun t => (routeChanges models t.changes).entries.map fun p =>
        (p.1, { t with changes := p.2 })).foldl (fun out p => out.push p.1 p.2) .empty := by
    unfold route
    rw [List.foldl_flatMap]
    simp only [List.foldl_map]
  rw [hroute, SortedMap.group_foldl_push, SortedMap.group_empty, List.nil_append]
  clear hroute
  induction txns with
  | nil => rfl
  | cons t txns ih =>
      rw [List.flatMap_cons, List.filter_append, List.map_append, ih, List.map_cons]
      have hone : ((((routeChanges models t.changes).entries.map fun p =>
            (p.1, { t with changes := p.2 })).filter fun p => p.1 = m).map (·.2)) =
          if (share models m t).changes = [] then [] else [share models m t] := by
        rw [List.filter_map, List.map_map]
        have hentries := (nonempty_routeChanges models t.changes).filter_entries m
        rw [group_routeChanges] at hentries
        have hmap : (((routeChanges models t.changes).entries.filter fun p => p.1 = m).map
              fun p => ({ t with changes := p.2 } : Txn)) =
            (((routeChanges models t.changes).entries.filter fun p => p.1 = m).map (·.2)).map
              fun cs => { t with changes := cs } := by
          rw [List.map_map]
          rfl
        calc _ = (((routeChanges models t.changes).entries.filter fun p => p.1 = m).map
              fun p => ({ t with changes := p.2 } : Txn)) := rfl
          _ = _ := by
            rw [hmap, hentries]
            unfold share
            split <;> rfl
      rw [hone]
      by_cases hnil : (share models m t).changes = []
      · rw [if_pos hnil, List.filter_cons_of_neg (by simpa using hnil)]
        rfl
      · rw [if_neg hnil, List.filter_cons_of_pos (by simpa using hnil)]
        rfl

/-! ## A share does what the batch does -/

namespace Mapper

variable {cal : Calendar} {rels : SortedMap Nat Relation} {models : SortedMap Nat (List Int)}
  {m : Int}

/-- The relations a mapper binds are those its model is given. -/
def Serves (mp : Mapper) (models : SortedMap Nat (List Int)) (m : Int) : Prop :=
  ∀ rel, mp.binds rel = true ↔ m ∈ models.group rel

theorem Serves.of_sameNames {mp mp' : Mapper} (h : mp.Serves models m) (hsame : SameNames mp mp') :
    mp'.Serves models m := by
  intro rel
  unfold binds
  rw [← hsame.bindings]
  exact h rel

/-- A change that does not reach the model changes nothing. -/
theorem change_of_not_hit {replay : Bool} {xid : UInt32} {s : State} {c : Message}
    (hs : s.1.Serves models m) (hc : m ∉ hit models c) :
    change cal rels replay xid s c = .ok s := by
  have hunbound : ∀ rel ∈ c.rels, s.1.bindings.get? rel = none := by
    intro rel hrel
    have hnot : ¬s.1.binds rel = true := fun hbinds =>
      hc (mem_hit_iff.mpr ⟨rel, hrel, (hs rel).mp hbinds⟩)
    unfold binds SortedMap.contains at hnot
    simpa using hnot
  have hrow : ∀ {rel old new}, rel ∈ c.rels →
      changeRel cal rels replay xid rel old new s = .ok s := by
    intro rel old new hrel
    unfold changeRel
    rw [hunbound rel hrel]
  cases c with
  | insert rel new => exact hrow (by simp [Message.rels])
  | update rel old new => exact hrow (by simp [Message.rels])
  | delete rel old => exact hrow (by simp [Message.rels])
  | truncate gone =>
      have hgone : ∀ rel ∈ gone, truncate replay xid s rel = .ok s := by
        intro rel hrel
        unfold truncate bound
        rw [hunbound rel hrel]
        rfl
      change gone.foldlM (truncate replay xid) s = .ok s
      clear hc hunbound hrow
      induction gone with
      | nil => rfl
      | cons rel gone ih =>
          rw [List.foldlM_cons, hgone rel List.mem_cons_self]
          exact ih fun r hr => hgone r (List.mem_cons_of_mem rel hr)
  | control => rfl

/-- A transaction's share does what it does. -/
theorem txn_share {replayUntil : Nat} {s : State} (hs : s.1.Serves models m) (t : Txn) :
    txn cal rels replayUntil s (share models m t) = txn cal rels replayUntil s t :=
  foldlM_filter (P := fun s => s.1.Serves models m)
    (fun _ _ _ hp hstep => hp.of_sameNames (change_sameNames hstep))
    (fun _ _ hp hkeep => change_of_not_hit hp (by simpa using hkeep)) hs

theorem txns_route {replayUntil : Nat} {s : State} (hs : s.1.Serves models m) (txns : List Txn) :
    ((route txns models).group m).foldlM (txn cal rels replayUntil) s =
      txns.foldlM (txn cal rels replayUntil) s := by
  have hstep : ∀ (s : State) t s', s.1.Serves models m →
      txn cal rels replayUntil s t = .ok s' → s'.1.Serves models m :=
    fun _ _ _ hp h => hp.of_sameNames (txn_sameNames h)
  have hskip : ∀ (s : State) (t : Txn), s.1.Serves models m →
      decide (t.changes ≠ []) = false → txn cal rels replayUntil s t = .ok s := by
    intro s t _ ht
    have hnil : t.changes = [] := by simpa using ht
    unfold txn
    rw [hnil]
    rfl
  rw [group_route, foldlM_filter hstep hskip hs]
  induction txns generalizing s with
  | nil => rfl
  | cons t txns ih =>
      rw [List.map_cons, List.foldlM_cons, List.foldlM_cons, txn_share hs t]
      cases ht : txn cal rels replayUntil s t with
      | error e => rfl
      | ok s' => exact ih (hstep s t s' hs ht)

end Mapper

/-- Where each waiting model's share begins. -/
def firsts (txns : List Txn) (models : SortedMap Nat (List Int)) (waiting : List Int) :
    List Nat :=
  waiting.filterMap fun m => ((route txns models).group m).head?.map Txn.endLsn

/-- A share holds transactions of the batch, in its order. -/
theorem share_sublist (txns : List Txn) (models : SortedMap Nat (List Int)) (m : Int) :
    (((route txns models).group m).map Txn.endLsn).Sublist (txns.map Txn.endLsn) := by
  rw [group_route]
  have hsub := (List.filter_sublist (p := fun t : Txn => decide (t.changes ≠ []))
    (l := txns.map (share models m))).map Txn.endLsn
  rw [List.map_map] at hsub
  exact hsub

/-- The first transaction of a share is the earliest of it. -/
theorem head_le {txns : List Txn} (htxns : InOrder txns) {models : SortedMap Nat (List Int)}
    {m : Int} {first : Nat}
    (hfirst : ((route txns models).group m).head?.map Txn.endLsn = some first) {t : Txn}
    (ht : t ∈ (route txns models).group m) : first ≤ t.endLsn := by
  have hsorted : (((route txns models).group m).map Txn.endLsn).Pairwise (· < ·) := by
    have hall : (txns.map Txn.endLsn).Pairwise (· < ·) := List.pairwise_map.mpr htxns
    exact hall.sublist (share_sublist txns models m)
  cases hshare : (route txns models).group m with
  | nil =>
      rw [hshare] at ht
      cases ht
  | cons u us =>
      rw [hshare] at hfirst ht hsorted
      rw [List.head?_cons, Option.map_some, Option.some.injEq] at hfirst
      rw [List.map_cons, List.pairwise_cons] at hsorted
      rcases List.mem_cons.mp ht with rfl | ht
      · exact hfirst.ge
      · have hlt := hsorted.1 t.endLsn (List.mem_map_of_mem ht)
        omega

/-- The slot moves at most to the target, past no transaction a waiting model
was given, and as far as the batch's transactions allow; and what a model is
given does to it what the whole batch does. -/
theorem slot_never_skips (cal : Calendar) (txns : List Txn) (htxns : InOrder txns)
    (models : SortedMap Nat (List Int)) (waiting : List Int) (target : Nat) :
    let slot := slotHold target txns (firsts txns models waiting)
    slot ≤ target ∧
      (∀ m ∈ waiting, ∀ t ∈ (route txns models).group m, 0 < t.endLsn → slot < t.endLsn) ∧
      (slot = target ∨ slot = 0 ∨ ∃ t ∈ txns, t.endLsn = slot) ∧
      (∀ t ∈ txns, t.endLsn ≤ target →
        (∀ m ∈ waiting, ∀ u ∈ (route txns models).group m, t.endLsn < u.endLsn) →
        t.endLsn ≤ slot) ∧
      (firsts txns models waiting = [] → slot = target) ∧
      ∀ (m : Int) (mp : Mapper), mp.Serves models m →
        ∀ (model : Model) (rels : SortedMap Nat Relation) (replayUntil : Nat),
          mp.map cal model rels ((route txns models).group m) replayUntil =
            mp.map cal model rels txns replayUntil := by
  have hfirst : ∀ m ∈ waiting, ∀ t ∈ (route txns models).group m,
      ∃ first ∈ firsts txns models waiting, first ≤ t.endLsn := by
    intro m hm t ht
    cases hhead : ((route txns models).group m).head? with
    | none =>
        rw [List.head?_eq_none_iff] at hhead
        rw [hhead] at ht
        cases ht
    | some u =>
        have hu : ((route txns models).group m).head?.map Txn.endLsn = some u.endLsn := by
          rw [hhead]
          rfl
        exact ⟨u.endLsn, List.mem_filterMap.mpr ⟨m, hm, hu⟩, head_le htxns hu ht⟩
  refine ⟨?_, ?_, ?_, ?_, ?_, ?_⟩
  · exact foldl_min_le_left _ target
  · intro m hm t ht hpos
    obtain ⟨first, hmem, hle⟩ := hfirst m hm t ht
    have hhold : slotHold target txns (firsts txns models waiting) ≤ endBefore txns first :=
      foldl_min_le target (List.mem_map_of_mem hmem)
    by_cases hzero : first = 0
    · have hend : endBefore txns first = 0 := by
        apply endBefore_of_zero
        by_contra hne
        obtain ⟨u, _, _, hlt⟩ := endBefore_spec hne
        omega
      omega
    · have hlt := endBefore_lt txns (Nat.pos_of_ne_zero hzero)
      omega
  · rcases foldl_min_mem ((firsts txns models waiting).map (endBefore txns)) target with h | h
    · exact .inl h
    · obtain ⟨first, _, hend⟩ := List.mem_map.mp h
      by_cases hzero : partitionPoint txns first = 0
      · right
        left
        rw [slotHold_eq, ← hend, endBefore_of_zero hzero]
      · obtain ⟨t, ht, htend, _⟩ := endBefore_spec hzero
        exact .inr (.inr ⟨t, ht, htend.trans hend⟩)
  · intro t ht htarget hbefore
    apply le_foldl_min htarget
    intro n hn
    obtain ⟨first, hmem, rfl⟩ := List.mem_map.mp hn
    obtain ⟨m, hm, hhead⟩ := List.mem_filterMap.mp hmem
    obtain ⟨u, hu, rfl⟩ := Option.map_eq_some_iff.mp hhead
    exact le_endBefore htxns ht (hbefore m hm u (List.mem_of_mem_head? hu))
  · intro hnone
    rw [hnone]
    rfl
  · intro m mp hmp model rels replayUntil
    unfold Mapper.map
    rw [Mapper.txns_route hmp]

/-- An insert only model 1 binds, then a TRUNCATE of its relation and of model
2's. -/
def twoModels : List Txn :=
  [⟨1, 5, [.insert 1 [.text "3"]]⟩, ⟨2, 9, [.truncate [1, 2]]⟩]

theorem slot_stops_before_second :
    let models := SortedMap.ofList [(1, [1]), (2, [2])]
    slotHold 9 twoModels (firsts twoModels models [2]) = 5 ∧
      slotHold 9 twoModels (firsts twoModels models [2]) ≤ 9 := by
  intro models
  have hone : models.group 1 = [1] := by decide
  have htwo : models.group 2 = [2] := by decide
  have hfirsts : firsts twoModels models [2] = [9] := by
    simp [firsts, group_route, share, mem_hit_iff, twoModels, Message.rels, hone, htwo]
  refine ⟨?_, (slot_never_skips noCalendar twoModels (by decide) models [2] 9).1⟩
  rw [hfirsts]
  decide

end Improv.PgModel
