import Improv.Engine.Rounds
/-!
# Incremental evaluation

A session's snapshot against a new session's over the same base cells: they are
equal after every run in which every measure's collection holds one value per
coordinate, and a ranking that gives a cell two values loses the cell when one
of them goes.
-/

namespace Improv.Engine

open Improv.Lib Improv.Lib.Bag Improv.CoreModel

/-! ## A dataflow -/

/-- A measure's differences between two collections, in the order of their
coordinates and values. -/
def differences (m : MeasureId) (old new : Coll) : List Delta :=
  (inOrder ((old + new).dedup.map fun x => DeltaKey.mk m x.1 x.2)).map fun d =>
    (d, (new.count (d.coord, d.value) : ℤ) - old.count (d.coord, d.value))

theorem mem_differences {m : MeasureId} {old new : Coll} {x : Delta} :
    x ∈ differences m old new ↔
      (x.1.coord, x.1.value) ∈ old + new ∧ x.1.measure = m ∧
        x.2 = (new.count (x.1.coord, x.1.value) : ℤ) - old.count (x.1.coord, x.1.value) := by
  obtain ⟨⟨m', k, v⟩, n⟩ := x
  unfold differences
  simp only [List.mem_map, mem_inOrder, Multiset.mem_map, Multiset.mem_dedup, Prod.exists,
    Prod.mk.injEq]
  constructor
  · intro h
    obtain ⟨d, ⟨k', v', hmem, rfl⟩, hd, rfl⟩ := h
    cases hd
    exact ⟨hmem, rfl, rfl⟩
  · intro h
    obtain ⟨hmem, rfl, rfl⟩ := h
    exact ⟨_, ⟨k, v, hmem, rfl⟩, rfl, rfl⟩

theorem nodup_keys_differences (m : MeasureId) (old new : Coll) :
    ((differences m old new).map Prod.fst).Nodup := by
  have hkeys : (differences m old new).map Prod.fst =
      inOrder ((old + new).dedup.map fun x => DeltaKey.mk m x.1 x.2) := by
    unfold differences
    rw [List.map_map]
    exact List.map_id _
  rw [hkeys, ← Multiset.coe_nodup, coe_inOrder]
  refine (Multiset.nodup_dedup _).map fun x y h => ?_
  injection h with _ hk hv
  exact Prod.ext hk hv

/-- The differences of each measure in turn, each measure's in order. -/
def sortedFlow : Flow where
  emit _ ids old new := ids.dedup.flatMap fun m => differences m (old m) (new m)
  accumulates _ ids old new m k v := by
    have hnodup : ((ids.dedup.flatMap fun m => differences m (old m) (new m)).map
        Prod.fst).Nodup := by
      rw [List.map_flatMap]
      refine List.nodup_flatMap.mpr ⟨fun m _ => nodup_keys_differences m _ _, ?_⟩
      refine (List.nodup_dedup ids).imp fun {m m'} hne => ?_
      intro d hd hd'
      obtain ⟨x, hx, rfl⟩ := List.mem_map.mp hd
      obtain ⟨x', hx', heq⟩ := List.mem_map.mp hd'
      have hm := (mem_differences.mp hx).2.1
      have hm' := (mem_differences.mp hx').2.1
      exact hne (hm.symm.trans ((congrArg DeltaKey.measure heq.symm).trans hm'))
    by_cases hids : m ∈ ids
    · rw [if_pos hids]
      by_cases hmem : (k, v) ∈ old m + new m
      · refine weight_of_mem hnodup (List.mem_flatMap.mpr ⟨m, List.mem_dedup.mpr hids, ?_⟩)
        exact mem_differences.mpr ⟨hmem, rfl, rfl⟩
      · have hnone : (⟨m, k, v⟩ : DeltaKey) ∉
            (ids.dedup.flatMap fun m => differences m (old m) (new m)).map Prod.fst := by
          intro hd
          obtain ⟨x, hx, hkey⟩ := List.mem_map.mp hd
          obtain ⟨m', -, hx⟩ := List.mem_flatMap.mp hx
          have hx' := mem_differences.mp hx
          obtain rfl : m = m' := by
            rw [← hx'.2.1, hkey]
          rw [hkey] at hx'
          exact hmem hx'.1
        rw [Multiset.mem_add, not_or] at hmem
        rw [weight_eq_zero hnone, Multiset.count_eq_zero_of_notMem hmem.1,
          Multiset.count_eq_zero_of_notMem hmem.2]
        rfl
    · rw [if_neg hids]
      refine weight_eq_zero fun hd => ?_
      obtain ⟨x, hx, hkey⟩ := List.mem_map.mp hd
      obtain ⟨m', hm', hx⟩ := List.mem_flatMap.mp hx
      have hm := (mem_differences.mp hx).2.1
      rw [hkey] at hm
      have hmm : m = m' := hm
      exact hids (hmm ▸ List.mem_dedup.mp hm')
  seed_asserts ids new x hx := by
    obtain ⟨m, -, hx⟩ := List.mem_flatMap.mp hx
    obtain ⟨hmem, -, hn⟩ := mem_differences.mp hx
    rw [zero_add] at hmem
    have hpos := Multiset.count_pos.mpr hmem
    rw [hn, Multiset.count_zero]
    omega

/-! ## Sessions against fresh evaluations -/

variable {R : Registry} {K : Kernels} {flow : Flow} {host : HostStep} {g : Graph}

/-- A batch evaluation's cells of a measure's rows as they come; a coordinate
seen twice keeps its last value. -/
def evaluated (l : List (CoordKey × CellValue)) : MeasureValues :=
  l.foldl (fun vals x => vals.insert x.1 x.2) ∅

theorem rows_evaluated {l : List (CoordKey × CellValue)} (h : OneValued (l : Coll)) :
    rows (evaluated l) = l := by
  induction l using List.reverseRecOn with
  | nil => rfl
  | append_singleton l x ih =>
      have hcons : ((l ++ [x] : List _) : Coll) = x ::ₘ (l : Coll) :=
        Quot.sound (@List.perm_append_comm _ l [x])
      rw [hcons] at h ⊢
      unfold OneValued at h
      rw [Multiset.map_cons, Multiset.nodup_cons] at h
      have hrows := ih h.2
      have hnone : (evaluated l).lookup x.1 = none := by
        rw [Option.eq_none_iff_forall_not_mem]
        intro v hv
        rw [Option.mem_def, ← mem_rows, hrows] at hv
        exact h.1 (Multiset.mem_map.mpr ⟨(x.1, v), hv, rfl⟩)
      unfold evaluated at hnone hrows ⊢
      rw [List.foldl_append, ← hrows]
      exact rows_insert x.2 hnone

/-- In a run in which every measure's collection holds one value per
coordinate, the snapshot is a new session's over the final base cells, and a
batch evaluation's, and each round's changes lead from the snapshot before it
to the one after it. -/
theorem incremental_correct (hfixes : g.fixes = []) {cells : MeasureId → MeasureValues}
    {rounds : List (List Edit × Reply)} (hone : g.OneValuedThrough R K cells rounds) :
    (∀ flow', (Worker.run R K flow host g cells rounds).snapshot g =
        (Worker.start R K flow' host g (g.cellsAfter cells rounds)).snapshot g) ∧
      (∀ m (l : List (CoordKey × CellValue)),
        (l : Coll) = g.outputs R K (fun m => rows (g.cellsAfter cells rounds m)) m →
          (Worker.run R K flow host g cells rounds).snapshot g m = evaluated l) ∧
      ∀ done edits rest, rounds = done ++ (edits, Reply.changes) :: rest →
        ChangesBetween ((Worker.run R K flow host g cells done).snapshot g)
          ((Worker.run R K flow host g cells (done ++ [(edits, .changes)])).snapshot g)
          ((Worker.run R K flow host g cells done).applyDelta R K flow host g edits).2 := by
  have hrun : Settled R K g (Worker.run R K flow host g cells rounds)
      (g.cellsAfter cells rounds) := settled_run hfixes hone
  refine ⟨fun flow' => ?_, fun m l hl => ?_, fun done edits rest hrounds => ?_⟩
  · have hseeded := seeded_cellsAfter (g := g) cells rounds
    have hfresh : Settled R K g (Worker.start R K flow' host g (g.cellsAfter cells rounds))
        (g.cellsAfter cells rounds) := by
      have hstart : Settled R K g (Worker.start R K flow' host g (g.cellsAfter cells rounds))
          (g.seeded (g.cellsAfter cells rounds)) :=
        settled_start hfixes (hseeded.symm ▸ hone rounds List.prefix_rfl)
      rwa [hseeded] at hstart
    rw [snapshot_of_no_fixes hfixes, snapshot_of_no_fixes hfixes]
    exact hrun.snapshot_eq hfresh
  · rw [snapshot_of_no_fixes hfixes]
    apply rows_injective
    have hcolls := hone rounds List.prefix_rfl m
    rw [rows_evaluated (hl ▸ hcolls), hl, hrun.shows m, hrun.seen, funext hrun.feeds.2]
  · have hdone : Settled R K g (Worker.run R K flow host g cells done)
        (g.cellsAfter cells done) := by
      refine settled_run hfixes fun pre hpre => hone pre ?_
      rw [hrounds]
      exact hpre.trans (List.prefix_append _ _)
    have hserve : Worker.run R K flow host g cells (done ++ [(edits, .changes)]) =
        ((Worker.run R K flow host g cells done).applyDelta R K flow host g edits).1 := by
      unfold Worker.run
      rw [List.foldl_append]
      rfl
    rw [hserve]
    exact hdone.changes_applyDelta hfixes edits

/-! ## Plans that keep the condition -/

/-- The measures a session's plans can read hold one value per coordinate, over
the categories of the schema. -/
def SourcesOver (S : Schema) (src : Sources) : Prop :=
  ∀ m c, src m = some c → Ranges S (S.dims m) c ∧ OneValued c

theorem SourcesOver.sources {S : Schema} {inputs : Sources} {b : Built}
    (hinputs : SourcesOver S inputs) (hb : SourcesOver S b.derived) :
    SourcesOver S (b.sources inputs) := by
  intro m c hm
  unfold Built.sources at hm
  rcases Option.or_eq_some_iff.mp hm with hm | ⟨-, hm⟩
  · exact hinputs m c hm
  · exact hb m c hm

theorem SourcesOver.insert {S : Schema} {b : Built} (h : SourcesOver S b.derived)
    {m : MeasureId} {c : Coll} (flat : Bool) (hc : Ranges S (S.dims m) c) (hone : OneValued c) :
    SourcesOver S (b.insert m c flat).derived := by
  intro n c' hn
  unfold Built.insert at hn
  by_cases hm : n = m
  · subst hm
    simp only [if_true, Option.some.injEq] at hn
    subst hn
    exact ⟨hc, hone⟩
  · simp only [if_neg hm] at hn
    exact h n c' hn

theorem SourcesOver.buildNext {S : Schema} {inputs : Sources} {b : Built}
    (hinputs : SourcesOver S inputs) (hb : SourcesOver S b.derived) {x : MeasureId × PlanNode}
    (hwf : WellFormed S x.2) (hs : SingleValued S (fun _ => True) x.2)
    (hdim : SameCats x.2.cats (S.dims x.1)) :
    SourcesOver S (Engine.buildNext R K inputs b x).derived := by
  have hsrc := hinputs.sources hb
  unfold Engine.buildNext
  cases hc : buildColl R K (b.sources inputs) x.2 with
  | error e => exact hb
  | ok c =>
      have hranges : Ranges S (S.dims x.1) c := fun y hy =>
        (ranges_buildColl (fun m c hm => (hsrc m c hm).1) hwf hc y hy).congr hdim
      have hone : OneValued c := oneValued_buildColl (fun m c hm => (hsrc m c hm).1)
        (fun m c _ hm => (hsrc m c hm).2) hs hwf c hc
      by_cases hf : functional b.flat x.2 = true
      · simp only [if_pos hf]
        exact hb.insert true hranges hone
      · simp only [if_neg hf]
        exact hb.insert false (fun y hy => hranges y (Multiset.mem_dedup.mp hy))
          (hone.mono (Multiset.dedup_le c))

/-- Plans none of whose operators merges rows hold one value per coordinate over
any base cells of the model. -/
theorem oneValuedAt_of_singleValued {S : Schema}
    (hplans : ∀ x ∈ g.plans, WellFormed S x.2 ∧ SingleValued S (fun _ => True) x.2 ∧
      SameCats x.2.cats (S.dims x.1)) {cells : MeasureId → MeasureValues}
    (hcells : ∀ m ∈ g.inputs, Ranges S (S.dims m) (rows (cells m))) :
    g.OneValuedAt R K cells := by
  have hinputs : SourcesOver S (g.sources fun m => rows (cells m)) := by
    intro m c hm
    unfold Graph.sources at hm
    by_cases hin : m ∈ g.inputs
    · rw [if_pos hin] at hm
      cases hm
      exact ⟨hcells m hin, oneValued_rows _⟩
    · rw [if_neg hin] at hm
      cases hm
  have hbuilt : ∀ (plans : Plans), (∀ x ∈ plans, x ∈ g.plans) → ∀ b : Built,
      SourcesOver S b.derived →
      SourcesOver S
        (plans.foldl (Engine.buildNext R K (g.sources fun m => rows (cells m))) b).derived := by
    intro plans
    induction plans with
    | nil => exact fun _ b hb => hb
    | cons x plans ih =>
        intro hsub b hb
        obtain ⟨hwf, hs, hdim⟩ := hplans x (hsub x List.mem_cons_self)
        exact ih (fun y hy => hsub y (List.mem_cons_of_mem _ hy)) _
          (hinputs.buildNext hb hwf hs hdim)
  intro m
  have hall := hbuilt g.plans (fun _ h => h) (.start (g.sources fun m => rows (cells m)))
    fun m c hm => by cases hm
  unfold Graph.outputs buildDerived
  cases hm : (g.plans.foldl (Engine.buildNext R K (g.sources fun m => rows (cells m)))
      (.start (g.sources fun m => rows (cells m)))).derived m with
  | none => exact oneValued_zero
  | some c => exact (hall m c hm).2

/-! ## A ranking that loses a cell -/

/-- The ranks of the measure over `A`, `T` and `C`. -/
def ranksMeasure : MeasureId := ⟨2⟩

def rankGraph : Graph := ⟨[rankMeasure], [(ranksMeasure, rankPlan)], []⟩

/-- 5 at one item of `C`. -/
def oneRankCell : MeasureId → MeasureValues := fun m =>
  if m = rankMeasure then Finmap.singleton [(1, 10), (2, 20), (3, 30)] (.ofF64 (.ofNat 5))
  else ∅

/-- 7 set at another item of `C`, then cleared. -/
def setAndClear : List (List Edit × Reply) :=
  [([⟨rankMeasure, [(1, 10), (2, 20), (3, 31)], some (.ofF64 (.ofNat 7))⟩], .changes),
    ([⟨rankMeasure, [(1, 10), (2, 20), (3, 31)], none⟩], .changes)]

/-- No plan is evaluated by the host. -/
def noHost : HostStep := fun _ _ _ _ => ∅

/-- The rank's cell is gone after the second rank came and went, though a new
session over the same cells shows it. -/
theorem incremental_fails_on_rank :
    rankGraph.fixes = [] ∧
      (Worker.run ⟨[]⟩ rankKernels sortedFlow noHost rankGraph oneRankCell
        setAndClear).snapshot rankGraph ≠
      (Worker.start ⟨[]⟩ rankKernels sortedFlow noHost rankGraph
        (rankGraph.cellsAfter oneRankCell setAndClear)).snapshot rankGraph := by
  refine ⟨rfl, fun h => ?_⟩
  have hcell := congrArg (fun s => (s ranksMeasure).lookup [(1, 10), (2, 20)]) h
  revert hcell
  decide +kernel

/-- The measure negated. -/
def negGraph : Graph :=
  ⟨[rankMeasure], [(ranksMeasure, .mapUnary .neg
    (.inputMeasure rankMeasure ⟨.number, .of [⟨1⟩, ⟨2⟩, ⟨3⟩]⟩)
    ⟨.number, .of [⟨1⟩, ⟨2⟩, ⟨3⟩]⟩)], []⟩

theorem outputs_negGraph (colls : MeasureId → Coll) (m : MeasureId) :
    negGraph.outputs ⟨[]⟩ rankKernels colls m =
      if m = ranksMeasure then
        (colls rankMeasure).map fun x => (x.1, Kernels.applyUnary .neg x.2)
      else 0 := by
  by_cases hm : m = ranksMeasure
  · subst hm
    rfl
  · rw [if_neg hm]
    refine outputs_of_not_built ?_ colls
    change m ∉ [ranksMeasure]
    simpa using hm

theorem incremental_correct_neg :
    (Worker.run ⟨[]⟩ rankKernels sortedFlow noHost negGraph oneRankCell
        setAndClear).snapshot negGraph =
      (Worker.start ⟨[]⟩ rankKernels sortedFlow noHost negGraph
        (negGraph.cellsAfter oneRankCell setAndClear)).snapshot negGraph :=
  (incremental_correct rfl fun _ _ m => by
    rw [outputs_negGraph]
    by_cases hm : m = ranksMeasure
    · rw [if_pos hm]
      exact (oneValued_rows _).map_values _
    · rw [if_neg hm]
      exact oneValued_zero).1 sortedFlow

end Improv.Engine
