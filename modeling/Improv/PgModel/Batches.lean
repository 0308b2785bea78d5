import Improv.PgModel.RowChanges
/-!
# Batches keep the cells

Through whole transactions, and batch after batch, the cells of every bound
measure stay the view of its table: what loading the table would give.  A batch
makes one edit for each cell it changed.
-/

namespace Improv.PgModel

open Improv.Lib Improv.CoreModel Improv.Engine

/-! ## Bindings -/

/-- Every binding with its relation. -/
def allBound (bindings : SortedMap Nat (List Binding)) : List (Nat × Binding) :=
  bindings.entries.flatMap fun p => p.2.map fun b => (p.1, b)

theorem mem_allBound_iff {bindings : SortedMap Nat (List Binding)} {rel : Nat} {b : Binding} :
    (rel, b) ∈ allBound bindings ↔ b ∈ bindings.group rel := by
  unfold allBound SortedMap.group
  simp only [List.mem_flatMap, List.mem_map, Prod.mk.injEq, Prod.exists]
  constructor
  · rintro ⟨rel', bs, hmem, b', hb, rfl, rfl⟩
    rw [SortedMap.get?_eq_some_iff.mpr hmem]
    exact hb
  · intro hb
    cases hget : bindings.get? rel with
    | none =>
        rw [hget] at hb
        cases hb
    | some bs =>
        rw [hget] at hb
        exact ⟨rel, bs, SortedMap.get?_eq_some_iff.mp hget, b, hb, rfl, rfl⟩

/-- Bindings as a catalog holds them: each measure bound once, and here none
with an aggregate. -/
structure Plain (bindings : SortedMap Nat (List Binding)) : Prop where
  agg : ∀ rel, ∀ b ∈ bindings.group rel, b.agg = none
  once : ((allBound bindings).map fun p => p.2.measure).Nodup

theorem Plain.measure_injective {bindings : SortedMap Nat (List Binding)} (h : Plain bindings)
    {rel rel' : Nat} {b b' : Binding} (hb : b ∈ bindings.group rel)
    (hb' : b' ∈ bindings.group rel') (heq : b.measure = b'.measure) : rel = rel' ∧ b = b' :=
  Prod.mk.inj (List.inj_on_of_nodup_map h.once (mem_allBound_iff.mpr hb)
    (mem_allBound_iff.mpr hb') heq)

theorem Plain.nodup {bindings : SortedMap Nat (List Binding)} (h : Plain bindings) (rel : Nat) :
    ((bindings.group rel).map Binding.measure).Nodup := by
  unfold SortedMap.group
  cases hget : bindings.get? rel with
  | none => exact List.nodup_nil
  | some bs =>
      have hsub : (bs.map fun b => (rel, b)).Sublist (allBound bindings) := by
        unfold allBound
        rw [List.flatMap_def]
        apply List.sublist_flatten_of_mem
        exact List.mem_map.mpr ⟨(rel, bs), SortedMap.get?_eq_some_iff.mp hget, rfl⟩
      have hnodup := (hsub.map fun p => p.2.measure).nodup h.once
      rw [List.map_map] at hnodup
      exact hnodup

/-! ## A change -/

namespace Mapper

variable {cal : Calendar} {read : Loader} {describe : Nat → Relation}
  {rels : SortedMap Nat Relation} {xid : UInt32} {T T' : Tables} {mp mp' : Mapper}
  {m m' : Model} {touched touched' : Touched}

/-- What the bound measures' cells rest on: bindings of a catalog, measures of
their dimensions, and names that tell items apart. -/
structure Catalogued (mp : Mapper) : Prop where
  plain : Plain mp.bindings
  dims : ∀ rel, ∀ b ∈ mp.bound rel, b.cats.Nodup
  oneName : mp.items.OneName

/-- Every bound measure's cells are the view of its table. -/
def Shown (cal : Calendar) (read : Loader) (describe : Nat → Relation) (mp : Mapper) (m : Model)
    (T : Tables) : Prop :=
  ∀ rel, ∀ b ∈ mp.bound rel, FitsAt cal read describe mp.items T m rel b

/-- The tables' keys tell their rows apart. -/
def Allowed (read : Loader) (describe : Nat → Relation) (mp : Mapper) (m : Model) (T : Tables) :
    Prop :=
  ∀ rel, ∀ b ∈ mp.bound rel, KeysTell read describe m T rel b

/-- The relations sent are as described. -/
def Described (rels : SortedMap Nat Relation) (describe : Nat → Relation) : Prop :=
  ∀ rel r, rels.get? rel = some r → r = describe rel

/-- A fold of steps that each move one binding's view on moves every binding's
on, and leaves the others. -/
theorem foldlM_fits {f : State → Binding → Except Rebuild State} {bs : List Binding} {rel : Nat}
    (hbs : (bs.map Binding.measure).Nodup)
    (hf : ∀ b ∈ bs, ∀ m touched s', KeysTell read describe m T rel b →
      FitsAt cal read describe mp.items T m rel b → f (mp, m, touched) b = .ok s' →
      s'.1 = mp ∧ FitsAt cal read describe mp.items T' s'.2.1 rel b ∧
        Touches b.measure m s'.2.1)
    (hkeys : ∀ b ∈ bs, KeysTell read describe m T rel b)
    (hfits : ∀ b ∈ bs, FitsAt cal read describe mp.items T m rel b) {s' : State}
    (h : bs.foldlM f (mp, m, touched) = .ok s') :
    s'.1 = mp ∧ (∀ b ∈ bs, FitsAt cal read describe mp.items T' s'.2.1 rel b) ∧
      s'.2.1 = { m with inputs := s'.2.1.inputs } ∧
      ∀ k : Cell, k.measure ∉ bs.map Binding.measure →
        s'.2.1.inputs.get? k = m.inputs.get? k := by
  induction bs generalizing m touched with
  | nil =>
      cases h
      exact ⟨rfl, fun _ hb => (by cases hb), rfl, fun _ _ => rfl⟩
  | cons b bs ih =>
      rw [List.map_cons, List.nodup_cons] at hbs
      rw [List.foldlM_cons, bind_eq_ok_iff] at h
      obtain ⟨⟨mp1, m1, touched1⟩, hstep, h⟩ := h
      obtain ⟨rfl, hb, htouches⟩ := hf b List.mem_cons_self m touched _
        (hkeys b List.mem_cons_self) (hfits b List.mem_cons_self) hstep
      have hne : ∀ c ∈ bs, c.measure ≠ b.measure := fun c hc heq =>
        hbs.1 (heq ▸ List.mem_map_of_mem hc)
      obtain ⟨hmp, hrest, hm1, hothers⟩ := ih hbs.2
        (fun c hc => hf c (List.mem_cons_of_mem b hc))
        (fun c hc => (hkeys c (List.mem_cons_of_mem b hc)).of_touches htouches)
        (fun c hc => (hfits c (List.mem_cons_of_mem b hc)).of_touches htouches (hne c hc)) h
      refine ⟨hmp, ?_, ?_, ?_⟩
      · intro c hc
        rcases List.mem_cons.mp hc with rfl | hc
        · obtain ⟨x, hx, hcats, hfit⟩ := hb
          refine ⟨x, ?_, hcats, hfit.congr fun k => hothers ⟨c.measure, k⟩ hbs.1⟩
          rw [hm1]
          exact hx
        · exact hrest c hc
      · rw [hm1, htouches.rest]
      · intro k hk
        rw [List.map_cons, List.mem_cons, not_or] at hk
        rw [hothers k hk.2]
        exact htouches.others k hk.1

/-- What a step leads to: the mapper as it was, every view moved on to the new
tables, and no other cell changed. -/
structure Advanced (cal : Calendar) (read : Loader) (describe : Nat → Relation) (mp : Mapper)
    (m : Model) (s' : State) (T' : Tables) : Prop where
  mapper : s'.1 = mp
  shown : Shown cal read describe mp s'.2.1 T'
  rest : s'.2.1 = { m with inputs := s'.2.1.inputs }
  others : ∀ k : Cell, (∀ rel, ∀ b ∈ mp.bound rel, b.measure ≠ k.measure) →
    s'.2.1.inputs.get? k = m.inputs.get? k

theorem Advanced.refl (h : Shown cal read describe mp m T) (touched : Touched) :
    Advanced cal read describe mp m (mp, m, touched) T := ⟨rfl, h, rfl, fun _ _ => rfl⟩

theorem Advanced.trans {s s' : State} (h : Advanced cal read describe mp m s T)
    (h' : Advanced cal read describe mp s.2.1 s' T') : Advanced cal read describe mp m s' T' := by
  refine ⟨h'.mapper, h'.shown, ?_, fun k hk => (h'.others k hk).trans (h.others k hk)⟩
  rw [h'.rest, h.rest]

theorem Allowed.of_rest {m' : Model} (h : Allowed read describe mp m T)
    (hrest : m' = { m with inputs := m'.inputs }) : Allowed read describe mp m' T := by
  intro rel b hb
  have hvt : vtOf m' b = vtOf m b := by
    unfold vtOf
    rw [hrest]
  have hkeys := h rel b hb
  unfold KeysTell at hkeys ⊢
  rw [hvt]
  exact hkeys

/-- One relation's bindings moved on, the other relations' tables unchanged. -/
theorem advanced_of_foldlM {f : State → Binding → Except Rebuild State} {rel : Nat} {s' : State}
    (hcat : Catalogued mp) (hallowed : Allowed read describe mp m T)
    (hshown : Shown cal read describe mp m T) (hT : ∀ q, q ≠ rel → T' q = T q)
    (hf : ∀ b ∈ mp.bound rel, ∀ m touched s', KeysTell read describe m T rel b →
      FitsAt cal read describe mp.items T m rel b → f (mp, m, touched) b = .ok s' →
      s'.1 = mp ∧ FitsAt cal read describe mp.items T' s'.2.1 rel b ∧
        Touches b.measure m s'.2.1)
    (h : (mp.bound rel).foldlM f (mp, m, touched) = .ok s') :
    Advanced cal read describe mp m s' T' := by
  obtain ⟨hmp, hfits, hrest, hothers⟩ := foldlM_fits (hcat.plain.nodup rel) hf
    (hallowed rel) (hshown rel) h
  refine ⟨hmp, ?_, hrest, ?_⟩
  · intro q b hb
    by_cases hq : q = rel
    · subst hq
      exact hfits b hb
    · have hnot : b.measure ∉ (mp.bound rel).map Binding.measure := by
        intro hmem
        obtain ⟨c, hc, heq⟩ := List.mem_map.mp hmem
        exact hq (hcat.plain.measure_injective hc hb heq).1.symm
      obtain ⟨x, hx, hcats, hfit⟩ := (hshown q b hb).of_table (hT q hq)
      refine ⟨x, ?_, hcats, hfit.congr fun c => hothers ⟨b.measure, c⟩ hnot⟩
      rw [hrest]
      exact hx
  · intro k hk
    apply hothers
    intro hmem
    obtain ⟨c, hc, heq⟩ := List.mem_map.mp hmem
    exact hk rel c hc heq

theorem changeRel_advanced (ag : read.Agrees cal) (hrels : Described rels describe)
    (hcat : Catalogued mp) (hallowed : Allowed read describe mp m T)
    (hshown : Shown cal read describe mp m T) {rel : Nat} {c : Message}
    {old : Option (Option Tuple)} {new : Option Tuple} {s' : State}
    (hchange : c = .insert rel (new.getD []) ∧ old = none ∧ new ≠ none ∨
      (∃ o, c = .update rel o (new.getD []) ∧ old = some o ∧ new ≠ none) ∨
      ∃ o, c = .delete rel o ∧ old = some (some o) ∧ new = none)
    (htook : Took describe T T' c)
    (h : changeRel cal rels false xid rel old new (mp, m, touched) = .ok s') :
    Advanced cal read describe mp m s' T' := by
  have hT : ∀ q, q ≠ rel → T' q = T q := by
    rcases hchange with ⟨rfl, _, _⟩ | ⟨o, rfl, _, _⟩ | ⟨o, rfl, _, _⟩
    · obtain ⟨_, _, _, hT⟩ := htook
      exact hT
    · obtain ⟨_, _, _, _, _, _, _, hT⟩ := htook
      exact hT
    · obtain ⟨_, _, _, _, _, hT⟩ := htook
      exact hT
  unfold changeRel at h
  cases hbs : mp.bindings.get? rel with
  | none =>
      simp only [hbs] at h
      cases h
      refine .refl ?_ touched
      intro q b hb
      have hq : q ≠ rel := by
        rintro rfl
        unfold bound at hb
        rw [hbs] at hb
        cases hb
      exact (hshown q b hb).of_table (hT q hq)
  | some bs =>
      simp only [hbs] at h
      cases hr : rels.get? rel with
      | none => simp [hr] at h
      | some r =>
          simp only [hr] at h
          have hdescribe := hrels rel r hr
          subst hdescribe
          have hbound : mp.bound rel = bs := by
            unfold bound
            rw [hbs]
            rfl
          rw [← hbound] at h
          refine advanced_of_foldlM hcat hallowed hshown hT ?_ h
          intro b hb m1 touched1 s1 hkeys hfits hstep
          rcases changeRow_cases hstep with ⟨_, hmp, hrow⟩ | ⟨hagg, _⟩ | ⟨hagg, _⟩
          · obtain ⟨hfits', htouches⟩ := row_fits ag hcat.oneName (hcat.dims rel b hb) hkeys
              hchange htook hrow hfits
            exact ⟨hmp, hfits', htouches⟩
          · exact absurd (hcat.plain.agg rel b hb) hagg
          · exact absurd (hcat.plain.agg rel b hb) hagg

theorem get?_clear (m : Model) (touched : Touched) (measure : MeasureId) (k : Cell) :
    (clear m touched measure).1.inputs.get? k =
      if k.measure = measure then none else m.inputs.get? k := by
  unfold clear
  rw [SortedMap.get?_filter]
  by_cases hk : k.measure = measure
  · rw [if_pos hk]
    cases m.inputs.get? k with
    | none => rfl
    | some v => simp [Option.filter, hk]
  · rw [if_neg hk]
    cases m.inputs.get? k with
    | none => rfl
    | some v => simp [Option.filter, hk]

theorem clear_touches (m : Model) (touched : Touched) (measure : MeasureId) :
    Touches measure m (clear m touched measure).1 :=
  ⟨rfl, fun k hk => by rw [get?_clear, if_neg hk]⟩

theorem truncate_advanced (hcat : Catalogued mp) (hallowed : Allowed read describe mp m T)
    (hshown : Shown cal read describe mp m T) {rel : Nat} {s' : State}
    (hT : ∀ q, T' q = if q = rel then [] else T q)
    (h : truncate false xid (mp, m, touched) rel = .ok s') :
    Advanced cal read describe mp m s' T' := by
  refine advanced_of_foldlM (f := fun s b => truncateBinding false xid b s) hcat hallowed hshown
    (fun q hq => by rw [hT, if_neg hq]) ?_ h
  intro b hb m1 touched1 s1 _ hfits hstep
  rcases truncateBinding_cases hstep with ⟨_, _, rfl⟩ | ⟨hagg, _⟩ | ⟨hagg, _⟩
  · refine ⟨rfl, ?_, clear_touches m1 touched1 b.measure⟩
    obtain ⟨x, hx, hcats, hfit⟩ := hfits
    refine ⟨x, hx, hcats, ?_⟩
    rw [hT, if_pos rfl]
    refine ⟨fun _ hu => (by cases hu), fun _ hu => (by cases hu), fun _ hu => (by cases hu), ?_⟩
    have hview : (fun c => (clear m1 touched1 b.measure).1.inputs.get? ⟨b.measure, c⟩) =
        fun _ => none := by
      funext c
      rw [get?_clear, if_pos rfl]
    change Shows _ (fun c => (clear m1 touched1 b.measure).1.inputs.get? ⟨b.measure, c⟩) []
    rw [hview]
    exact .nil _
  · exact absurd (hcat.plain.agg rel b hb) hagg
  · exact absurd (hcat.plain.agg rel b hb) hagg

theorem truncates_advanced (hcat : Catalogued mp) {gone : List Nat}
    (hallowed : Allowed read describe mp m T)
    (hshown : Shown cal read describe mp m T) {s' : State}
    (hT : ∀ q, T' q = if q ∈ gone then [] else T q)
    (h : gone.foldlM (truncate false xid) (mp, m, touched) = .ok s') :
    Advanced cal read describe mp m s' T' := by
  induction gone generalizing m T touched with
  | nil =>
      cases h
      have heq : T' = T := funext fun q => by rw [hT, if_neg List.not_mem_nil]
      rw [heq]
      exact .refl hshown touched
  | cons rel gone ih =>
      rw [List.foldlM_cons, bind_eq_ok_iff] at h
      obtain ⟨⟨mp1, m1, touched1⟩, hstep, h⟩ := h
      have hfirst : Advanced cal read describe mp m (mp1, m1, touched1)
          fun q => if q = rel then [] else T q :=
        truncate_advanced hcat hallowed hshown (fun _ => rfl) hstep
      obtain rfl : mp1 = mp := hfirst.mapper
      refine hfirst.trans (ih ?_ hfirst.shown ?_ h)
      · have hsame := hallowed.of_rest hfirst.rest
        intro q b hb hfull hkeyed
        have hkeys := hsame q b hb hfull hkeyed
        change (if q = rel then [] else T q).Pairwise _
        split
        · exact List.Pairwise.nil
        · exact hkeys
      · intro q
        rw [hT]
        by_cases hq : q = rel
        · simp [hq]
        · simp [hq]

/-- One decoded change moves every view on. -/
theorem change_advanced (ag : read.Agrees cal) (hrels : Described rels describe)
    (hcat : Catalogued mp) (hallowed : Allowed read describe mp m T)
    (hshown : Shown cal read describe mp m T) {c : Message} {s' : State}
    (htook : Took describe T T' c)
    (h : change cal rels false xid (mp, m, touched) c = .ok s') :
    Advanced cal read describe mp m s' T' := by
  cases c with
  | insert rel new =>
      exact changeRel_advanced ag hrels hcat hallowed hshown
        (.inl ⟨rfl, rfl, Option.some_ne_none new⟩) htook h
  | update rel old new =>
      exact changeRel_advanced ag hrels hcat hallowed hshown
        (.inr (.inl ⟨old, rfl, rfl, Option.some_ne_none new⟩)) htook h
  | delete rel old =>
      exact changeRel_advanced ag hrels hcat hallowed hshown (.inr (.inr ⟨old, rfl, rfl, rfl⟩))
        htook h
  | truncate gone => exact truncates_advanced hcat hallowed hshown htook h
  | control =>
      cases h
      rw [htook]
      exact .refl hshown touched

/-! ## A batch -/

/-- The tables before and after some changes, their keys telling rows apart
throughout. -/
def History (read : Loader) (describe : Nat → Relation) (mp : Mapper) (m : Model) :
    List Message → Tables → Tables → Prop
  | [], T, T' => T' = T
  | c :: cs, T, T' => ∃ T1, Took describe T T1 c ∧ Allowed read describe mp m T1 ∧
      History read describe mp m cs T1 T'

theorem History.append {cs ds : List Message}
    (h : History read describe mp m (cs ++ ds) T T') :
    ∃ T1, History read describe mp m cs T T1 ∧ History read describe mp m ds T1 T' := by
  induction cs generalizing T with
  | nil => exact ⟨T, rfl, h⟩
  | cons c cs ih =>
      obtain ⟨T1, htook, hallowed, h⟩ := h
      obtain ⟨T2, hcs, hds⟩ := ih h
      exact ⟨T2, ⟨T1, htook, hallowed, hcs⟩, hds⟩

theorem History.allowed {cs : List Message} (h : History read describe mp m cs T T')
    (hallowed : Allowed read describe mp m T) : Allowed read describe mp m T' := by
  induction cs generalizing T with
  | nil =>
      rw [show T' = T from h]
      exact hallowed
  | cons c cs ih =>
      obtain ⟨T1, _, hallowed1, h⟩ := h
      exact ih h hallowed1

theorem History.of_rest {cs : List Message} {m' : Model}
    (h : History read describe mp m cs T T') (hrest : m' = { m with inputs := m'.inputs }) :
    History read describe mp m' cs T T' := by
  induction cs generalizing T with
  | nil => exact h
  | cons c cs ih =>
      obtain ⟨T1, htook, hallowed, h⟩ := h
      exact ⟨T1, htook, hallowed.of_rest hrest, ih h⟩

theorem changes_advanced (ag : read.Agrees cal) (hrels : Described rels describe)
    (hcat : Catalogued mp) {cs : List Message} (hallowed : Allowed read describe mp m T)
    (hshown : Shown cal read describe mp m T) (hist : History read describe mp m cs T T')
    {s' : State} (h : cs.foldlM (change cal rels false xid) (mp, m, touched) = .ok s') :
    Advanced cal read describe mp m s' T' := by
  induction cs generalizing m T touched with
  | nil =>
      cases h
      rw [show T' = T from hist]
      exact .refl hshown touched
  | cons c cs ih =>
      obtain ⟨T1, htook, hallowed1, hist⟩ := hist
      rw [List.foldlM_cons, bind_eq_ok_iff] at h
      obtain ⟨⟨mp1, m1, touched1⟩, hstep, h⟩ := h
      have hfirst := change_advanced ag hrels hcat hallowed hshown htook hstep
      obtain rfl : mp1 = mp := hfirst.mapper
      exact hfirst.trans (ih (hallowed1.of_rest hfirst.rest) hfirst.shown
        (hist.of_rest hfirst.rest) h)

/-- Some transactions move every view on. -/
theorem txns_advanced (ag : read.Agrees cal) (hrels : Described rels describe)
    (hcat : Catalogued mp) {txns : List Txn} {replayUntil : Nat}
    (hlater : ∀ t ∈ txns, replayUntil < t.endLsn) (hallowed : Allowed read describe mp m T)
    (hshown : Shown cal read describe mp m T)
    (hist : History read describe mp m (txns.flatMap Txn.changes) T T') {s' : State}
    (h : txns.foldlM (txn cal rels replayUntil) (mp, m, touched) = .ok s') :
    Advanced cal read describe mp m s' T' := by
  induction txns generalizing m T touched with
  | nil =>
      cases h
      rw [show T' = T from hist]
      exact .refl hshown touched
  | cons t txns ih =>
      rw [List.flatMap_cons] at hist
      obtain ⟨T1, hist1, hist⟩ := hist.append
      rw [List.foldlM_cons, bind_eq_ok_iff] at h
      obtain ⟨⟨mp1, m1, touched1⟩, hstep, h⟩ := h
      unfold txn at hstep
      have hreplay : decide (t.endLsn ≤ replayUntil) = false := by
        have hlt := hlater t List.mem_cons_self
        simpa using hlt
      rw [hreplay] at hstep
      have hfirst := changes_advanced ag hrels hcat hallowed hshown hist1 hstep
      obtain rfl : mp1 = mp := hfirst.mapper
      exact hfirst.trans (ih (fun u hu => hlater u (List.mem_cons_of_mem t hu))
        ((hist1.allowed hallowed).of_rest hfirst.rest) hfirst.shown
        (hist.of_rest hfirst.rest) h)

end Mapper

end Improv.PgModel
