import Improv.Engine.Functional
/-!
# Derived measures

The collections of the derived measures, built in order over those of the input
measures, each collapsed unless its plan is functional.  Which measures are
built depends only on which inputs exist, and a measure's collection only on
the collections its plan reads.
-/

namespace Improv.Engine

open Improv.Lib Improv.CoreModel

/-- The measures with their plans, in build order. -/
abbrev Plans := List (MeasureId × PlanNode)

/-! ## What a plan reads -/

mutual

/-- The measures whose collections a plan's collection is built from. -/
def planReads : PlanNode → List MeasureId
  | .inputMeasure m _ => [m]
  | .literal .. | .items .. | .fixpoint .. => []
  | .mapUnary _ a _ | .remap a _ _ => planReads a
  | .mapBinary _ a b _ | .join a b _ _ => planReads a ++ planReads b
  | .aggregate ins params pred _ _ _ _ _ _ _ _ =>
    planReadsAll ins ++ planReadsAll params ++ planReadsOpt pred
  | .recurrence _ _ refs _ _ _ _ => planReadsAll refs
  | .coalesce args _ _ | .funcCall _ args _ => planReadsAll args
  | .shift input _ _ _ default _ => planReads input ++ planReadsOpt default
  | .cond test branch otherwise _ _ =>
    planReads test ++ planReads branch ++ planReadsOpt otherwise

def planReadsAll : List PlanNode → List MeasureId
  | [] => []
  | p :: ps => planReads p ++ planReadsAll ps

def planReadsOpt : Option PlanNode → List MeasureId
  | none => []
  | some p => planReads p

end

variable {R : Registry} {K : Kernels}

mutual

/-- A plan's collection depends only on the collections it reads. -/
theorem buildColl_congr {src src' : Sources} :
    (p : PlanNode) → (∀ m ∈ planReads p, src m = src' m) →
      buildColl R K src p = buildColl R K src' p
  | .inputMeasure m ty, h => by
      rw [buildColl, buildColl, h m (by simp [planReads])]
  | .literal .., _ => by rw [buildColl, buildColl]
  | .items .., _ => by rw [buildColl, buildColl]
  | .fixpoint .., _ => by rw [buildColl, buildColl]
  | .mapUnary op a ty, h => by
      rw [buildColl, buildColl, buildColl_congr a h]
  | .remap a maps ty, h => by
      rw [buildColl, buildColl, buildColl_congr a h]
  | .mapBinary op a b ty, h => by
      have ha := buildColl_congr a fun m hm => h m (by simp [planReads, hm])
      have hb := buildColl_congr b fun m hm => h m (by simp [planReads, hm])
      have hside : broadcastSide R K src a = broadcastSide R K src' a := by
        cases a with
        | join c d keys u =>
            exact buildColl_congr c fun m hm => h m (by simp [planReads, hm])
        | _ => rfl
      rw [buildColl_mapBinary_eq, buildColl_mapBinary_eq, hside, ha, hb]
  | .join a b keys ty, h => by
      have ha := buildColl_congr a fun m hm => h m (by simp [planReads, hm])
      have hb := buildColl_congr b fun m hm => h m (by simp [planReads, hm])
      rw [buildColl, buildColl, ha, hb]
  | .aggregate ins params pred g f o w r n l ty, h => by
      have hi := buildColls_congr ins fun m hm => h m (by simp [planReads, hm])
      have hq := buildColls_congr params fun m hm => h m (by simp [planReads, hm])
      have hp := buildOpt_congr pred fun m hm => h m (by simp [planReads, hm])
      rw [buildColl, buildColl, hi, hq, hp]
  | .recurrence body ids refs slots cat order ty, h => by
      rw [buildColl, buildColl, buildColls_congr refs h]
  | .coalesce args grid ty, h => by
      rw [buildColl, buildColl, buildColls_congr args h]
  | .funcCall func args ty, h => by
      rw [buildColl, buildColl, buildColls_congr args h]
  | .shift input cat offset order default ty, h => by
      have hi := buildColl_congr input fun m hm => h m (by simp [planReads, hm])
      have hd := buildOpt_congr default fun m hm => h m (by simp [planReads, hm])
      rw [buildColl, buildColl, hi, hd]
  | .cond test branch otherwise spanning ty, h => by
      have ht := buildColl_congr test fun m hm => h m (by simp [planReads, hm])
      have hb := buildColl_congr branch fun m hm => h m (by simp [planReads, hm])
      have ho := buildOpt_congr otherwise fun m hm => h m (by simp [planReads, hm])
      rw [buildColl, buildColl, ht, hb, ho]

theorem buildColls_congr {src src' : Sources} :
    (ps : List PlanNode) → (∀ m ∈ planReadsAll ps, src m = src' m) →
      buildColls R K src ps = buildColls R K src' ps
  | [], _ => by rw [buildColls, buildColls]
  | p :: ps, h => by
      have hp := buildColl_congr p fun m hm => h m (by simp [planReadsAll, hm])
      have hps := buildColls_congr ps fun m hm => h m (by simp [planReadsAll, hm])
      rw [buildColls, buildColls, hp, hps]

theorem buildOpt_congr {src src' : Sources} :
    (p : Option PlanNode) → (∀ m ∈ planReadsOpt p, src m = src' m) →
      buildOpt R K src p = buildOpt R K src' p
  | none, _ => by rw [buildOpt, buildOpt]
  | some p, h => by
      rw [buildOpt, buildOpt, buildColl_congr p h]

end

/-! ## Which plans build -/

theorem aggregate_builds {ins params : List (PlanNode × Coll)} {pred : Option (PlanNode × Coll)}
    {groupBy : List CategoryId} {func : FuncId} {order : ItemOrder} {window : Option Window}
    {perItem : Bool} {into : ItemOrder} {flat : Bool} :
    (∃ c, aggregate K ins params pred groupBy func order window perItem into flat = .ok c) ↔
      ins.map (·.1) ≠ [] := by
  cases ins with
  | nil => simp [aggregate]
  | cons first rest =>
      simp only [aggregate, List.map_cons, ne_eq, reduceCtorEq, not_false_eq_true, iff_true]
      split <;> exact ⟨_, rfl⟩

theorem coalesce_builds {args : List (PlanNode × Coll)} {grid : Option ItemOrder}
    {ty : TypeInfo} :
    (∃ c, coalesce args grid ty = .ok c) ↔
      args.map (·.1) ≠ [] ∧ (grid = none → ∃ p ∈ args.map (·.1), spans ty p = true) := by
  unfold coalesce
  cases args with
  | nil => simp
  | cons a args =>
      cases grid with
      | some g => simp
      | none =>
          by_cases hany : (a :: args).any fun a => spans ty a.1
          · have hex : ∃ p ∈ (a :: args).map (·.1), spans ty p = true := by
              simpa using hany
            simp only [hany, List.isEmpty_cons, Option.isNone_none]
            simpa using hex
          · have hex : ¬∃ p ∈ (a :: args).map (·.1), spans ty p = true := by
              simpa using hany
            simp only [Bool.not_eq_true] at hany
            simp only [hany, List.isEmpty_cons, Option.isNone_none]
            simpa using hex

theorem recurrence_builds {body : Expr} {ids : List MeasureId} {refs : List (PlanNode × Coll)}
    {slots : List Slot} {cat : CategoryId} {order : List ItemId} :
    (∃ c, recurrence R K body ids refs slots cat order = .ok c) ↔ refs.map (·.1) ≠ [] := by
  cases refs with
  | nil => simp [recurrence]
  | cons first rest => simp [recurrence]

theorem cond_builds {test branch : PlanNode × Coll} {otherwise : Option (PlanNode × Coll)}
    {spanning : Option Nat} :
    (∃ c, cond test branch otherwise spanning = .ok c) ↔
      (otherwise.map (·.1)).isSome ∨ spanning = none ∨ spanning = some 0 := by
  unfold cond testDomain
  cases spanning with
  | none => simp
  | some i =>
      by_cases hi : i = 0
      · simp [hi]
      · cases otherwise <;> simp [hi]

theorem zip_fst_of_buildColls {src src' : Sources} {ps : List PlanNode} {cs cs' : List Coll}
    (h : buildColls R K src ps = .ok cs) (h' : buildColls R K src' ps = .ok cs') :
    (ps.zip cs).map (·.1) = (ps.zip cs').map (·.1) :=
  (mem_zip_of_buildColls h).2.trans (mem_zip_of_buildColls h').2.symm

mutual

/-- Whether a plan builds depends only on which collections there are. -/
theorem buildColl_builds {src src' : Sources} (hsrc : ∀ m, (src m).isSome → (src' m).isSome) :
    (p : PlanNode) → (∃ c, buildColl R K src p = .ok c) → ∃ c, buildColl R K src' p = .ok c
  | .inputMeasure m ty, h => by
      obtain ⟨c, hc⟩ := h
      have hsome := hsrc m (by rw [buildColl_inputMeasure.mp hc]; rfl)
      obtain ⟨c', hc'⟩ := Option.isSome_iff_exists.mp hsome
      exact ⟨c', buildColl_inputMeasure.mpr hc'⟩
  | .literal .., _ => ⟨_, by rw [buildColl]⟩
  | .items .., _ => ⟨_, by rw [buildColl]⟩
  | .fixpoint .., h => by
      obtain ⟨c, hc⟩ := h
      rw [buildColl] at hc
      cases hc
  | .mapUnary op a ty, h => by
      obtain ⟨c, hc⟩ := h
      rw [buildColl] at hc
      obtain ⟨x, hx, -⟩ := bind_eq_ok_iff.mp hc
      obtain ⟨x', hx'⟩ := buildColl_builds hsrc a ⟨x, hx⟩
      simp only [buildColl]
      exact ⟨_, bind_eq_ok_iff.mpr ⟨x', hx', rfl⟩⟩
  | .remap a maps ty, h => by
      obtain ⟨c, hc⟩ := h
      rw [buildColl] at hc
      obtain ⟨x, hx, -⟩ := bind_eq_ok_iff.mp hc
      obtain ⟨x', hx'⟩ := buildColl_builds hsrc a ⟨x, hx⟩
      simp only [buildColl]
      exact ⟨_, bind_eq_ok_iff.mpr ⟨x', hx', rfl⟩⟩
  | .mapBinary op a b ty, h => by
      obtain ⟨c, hc⟩ := h
      rw [buildColl_mapBinary_eq] at hc
      obtain ⟨x, hx, hc⟩ := bind_eq_ok_iff.mp hc
      obtain ⟨l, hl, hc⟩ := bind_eq_ok_iff.mp hc
      obtain ⟨r, hr, -⟩ := bind_eq_ok_iff.mp hc
      obtain ⟨l', hl'⟩ := buildColl_builds hsrc a ⟨l, hl⟩
      obtain ⟨r', hr'⟩ := buildColl_builds hsrc b ⟨r, hr⟩
      have hside : ∃ x', broadcastSide R K src' a = .ok x' := by
        cases a with
        | join d e keys u => exact buildColl_builds hsrc d ⟨x, hx⟩
        | _ => exact ⟨_, rfl⟩
      obtain ⟨x', hx'⟩ := hside
      simp only [buildColl_mapBinary_eq]
      exact ⟨_, bind_eq_ok_iff.mpr ⟨x', hx', bind_eq_ok_iff.mpr ⟨l', hl',
        bind_eq_ok_iff.mpr ⟨r', hr', rfl⟩⟩⟩⟩
  | .join a b keys ty, h => by
      obtain ⟨c, hc⟩ := h
      rw [buildColl] at hc
      obtain ⟨l, hl, hc⟩ := bind_eq_ok_iff.mp hc
      obtain ⟨r, hr, -⟩ := bind_eq_ok_iff.mp hc
      obtain ⟨l', hl'⟩ := buildColl_builds hsrc a ⟨l, hl⟩
      obtain ⟨r', hr'⟩ := buildColl_builds hsrc b ⟨r, hr⟩
      simp only [buildColl]
      exact ⟨_, bind_eq_ok_iff.mpr ⟨l', hl', bind_eq_ok_iff.mpr ⟨r', hr', rfl⟩⟩⟩
  | .aggregate ins params pred g f o w r n l ty, h => by
      obtain ⟨c, hc⟩ := h
      rw [buildColl] at hc
      obtain ⟨is, his, hc⟩ := bind_eq_ok_iff.mp hc
      obtain ⟨pc, hpc, hc⟩ := bind_eq_ok_iff.mp hc
      obtain ⟨ps, hps, hc⟩ := bind_eq_ok_iff.mp hc
      obtain ⟨is', his'⟩ := buildColls_builds hsrc ins ⟨is, his⟩
      obtain ⟨pc', hpc'⟩ := buildOpt_builds hsrc pred ⟨pc, hpc⟩
      obtain ⟨ps', hps'⟩ := buildColls_builds hsrc params ⟨ps, hps⟩
      obtain ⟨c', hc'⟩ := aggregate_builds.mpr
        (zip_fst_of_buildColls his his' ▸ aggregate_builds.mp ⟨c, hc⟩)
      refine ⟨c', ?_⟩
      rw [buildColl]
      exact bind_eq_ok_iff.mpr ⟨is', his', bind_eq_ok_iff.mpr ⟨pc', hpc',
        bind_eq_ok_iff.mpr ⟨ps', hps', hc'⟩⟩⟩
  | .recurrence body ids refs slots cat order ty, h => by
      obtain ⟨c, hc⟩ := h
      rw [buildColl] at hc
      obtain ⟨cs, hcs, hc⟩ := bind_eq_ok_iff.mp hc
      obtain ⟨cs', hcs'⟩ := buildColls_builds hsrc refs ⟨cs, hcs⟩
      obtain ⟨c', hc'⟩ := recurrence_builds.mpr
        (zip_fst_of_buildColls hcs hcs' ▸ recurrence_builds.mp ⟨c, hc⟩)
      refine ⟨c', ?_⟩
      rw [buildColl]
      exact bind_eq_ok_iff.mpr ⟨cs', hcs', hc'⟩
  | .coalesce args grid ty, h => by
      obtain ⟨c, hc⟩ := h
      rw [buildColl] at hc
      obtain ⟨cs, hcs, hc⟩ := bind_eq_ok_iff.mp hc
      obtain ⟨cs', hcs'⟩ := buildColls_builds hsrc args ⟨cs, hcs⟩
      obtain ⟨c', hc'⟩ := coalesce_builds.mpr
        (zip_fst_of_buildColls hcs hcs' ▸ coalesce_builds.mp ⟨c, hc⟩)
      refine ⟨c', ?_⟩
      rw [buildColl]
      exact bind_eq_ok_iff.mpr ⟨cs', hcs', hc'⟩
  | .funcCall func args ty, h => by
      obtain ⟨c, hc⟩ := h
      rw [buildColl] at hc
      obtain ⟨cs, hcs, -⟩ := bind_eq_ok_iff.mp hc
      obtain ⟨cs', hcs'⟩ := buildColls_builds hsrc args ⟨cs, hcs⟩
      simp only [buildColl]
      exact ⟨_, bind_eq_ok_iff.mpr ⟨cs', hcs', rfl⟩⟩
  | .shift input cat offset order default ty, h => by
      obtain ⟨c, hc⟩ := h
      rw [buildColl] at hc
      obtain ⟨x, hx, hc⟩ := bind_eq_ok_iff.mp hc
      obtain ⟨d, hd, -⟩ := bind_eq_ok_iff.mp hc
      obtain ⟨x', hx'⟩ := buildColl_builds hsrc input ⟨x, hx⟩
      obtain ⟨d', hd'⟩ := buildOpt_builds hsrc default ⟨d, hd⟩
      simp only [buildColl]
      exact ⟨_, bind_eq_ok_iff.mpr ⟨x', hx', bind_eq_ok_iff.mpr ⟨d', hd', rfl⟩⟩⟩
  | .cond test branch otherwise spanning ty, h => by
      obtain ⟨c, hc⟩ := h
      rw [buildColl] at hc
      obtain ⟨t, ht, hc⟩ := bind_eq_ok_iff.mp hc
      obtain ⟨a, ha, hc⟩ := bind_eq_ok_iff.mp hc
      obtain ⟨b, hb, hc⟩ := bind_eq_ok_iff.mp hc
      obtain ⟨t', ht'⟩ := buildColl_builds hsrc test ⟨t, ht⟩
      obtain ⟨a', ha'⟩ := buildColl_builds hsrc branch ⟨a, ha⟩
      obtain ⟨b', hb'⟩ := buildOpt_builds hsrc otherwise ⟨b, hb⟩
      have hcond := cond_builds.mp ⟨c, hc⟩
      rw [map_fst_getD] at hcond
      have hcond' : ∃ c', cond (test, t') (branch, a') (otherwise.map (·, b'.getD 0)) spanning =
          .ok c' := by
        apply cond_builds.mpr
        rw [map_fst_getD]
        exact hcond
      obtain ⟨c', hc'⟩ := hcond'
      refine ⟨c', ?_⟩
      rw [buildColl]
      exact bind_eq_ok_iff.mpr ⟨t', ht', bind_eq_ok_iff.mpr ⟨a', ha',
        bind_eq_ok_iff.mpr ⟨b', hb', hc'⟩⟩⟩

theorem buildColls_builds {src src' : Sources} (hsrc : ∀ m, (src m).isSome → (src' m).isSome) :
    (ps : List PlanNode) → (∃ cs, buildColls R K src ps = .ok cs) →
      ∃ cs, buildColls R K src' ps = .ok cs
  | [], _ => ⟨[], by rw [buildColls]⟩
  | p :: ps, h => by
      obtain ⟨cs, hcs⟩ := h
      rw [buildColls] at hcs
      obtain ⟨c, hc, hcs⟩ := bind_eq_ok_iff.mp hcs
      obtain ⟨rest, hrest, -⟩ := bind_eq_ok_iff.mp hcs
      obtain ⟨c', hc'⟩ := buildColl_builds hsrc p ⟨c, hc⟩
      obtain ⟨rest', hrest'⟩ := buildColls_builds hsrc ps ⟨rest, hrest⟩
      simp only [buildColls]
      exact ⟨_, bind_eq_ok_iff.mpr ⟨c', hc', bind_eq_ok_iff.mpr ⟨rest', hrest', rfl⟩⟩⟩

theorem buildOpt_builds {src src' : Sources} (hsrc : ∀ m, (src m).isSome → (src' m).isSome) :
    (p : Option PlanNode) → (∃ c, buildOpt R K src p = .ok c) →
      ∃ c, buildOpt R K src' p = .ok c
  | none, _ => ⟨none, by rw [buildOpt]⟩
  | some p, h => by
      obtain ⟨c, hc⟩ := h
      rw [buildOpt] at hc
      obtain ⟨x, hx, -⟩ := bind_eq_ok_iff.mp hc
      obtain ⟨x', hx'⟩ := buildColl_builds hsrc p ⟨x, hx⟩
      simp only [buildOpt]
      exact ⟨_, bind_eq_ok_iff.mpr ⟨x', hx', rfl⟩⟩

end

/-! ## Building the measures -/

/-- What has been built: the derived measures' collections, which measures'
collections hold one value per key, and the measures built, in order. -/
structure Built where
  derived : Sources
  flat : MeasureId → Bool
  ids : List MeasureId

namespace Built

/-- Nothing built over the inputs, which hold one value per key. -/
def start (inputs : Sources) : Built where
  derived _ := none
  flat m := (inputs m).isSome
  ids := []

/-- The collections a plan can read. -/
def sources (inputs : Sources) (b : Built) : Sources := fun m => (inputs m).or (b.derived m)

/-- One more measure built. -/
def insert (b : Built) (m : MeasureId) (c : Coll) (flat : Bool) : Built where
  derived n := if n = m then some c else b.derived n
  flat n := (flat && decide (n = m)) || b.flat n
  ids := b.ids ++ [m]

end Built

/-- One plan's collection, collapsed to one value per key unless the plan is
functional; a plan that fails to build is left out. -/
def buildNext (R : Registry) (K : Kernels) (inputs : Sources) (b : Built)
    (x : MeasureId × PlanNode) : Built :=
  match buildColl R K (b.sources inputs) x.2 with
  | .error _ => b
  | .ok c =>
    if functional b.flat x.2 then b.insert x.1 c true
    else b.insert x.1 c.dedup false

/-- Each plan's collection, in order. -/
def buildDerived (R : Registry) (K : Kernels) (inputs : Sources) (plans : Plans) : Built :=
  plans.foldl (buildNext R K inputs) (.start inputs)

/-- The same measures built, with the same collections for those in `P`. -/
structure Built.Alike (P : MeasureId → Prop) (b b' : Built) : Prop where
  ids : b.ids = b'.ids
  flat : b.flat = b'.flat
  isSome : ∀ m, (b.derived m).isSome = (b'.derived m).isSome
  derived : ∀ m, P m → b.derived m = b'.derived m

section Alike

variable {P : MeasureId → Prop} {b b' : Built} {inputs inputs' : Sources}

theorem Built.Alike.insert (h : b.Alike P b') {m : MeasureId} {c c' : Coll} {flat : Bool}
    (hc : P m → c = c') : (b.insert m c flat).Alike P (b'.insert m c' flat) where
  ids := by simp [Built.insert, h.ids]
  flat := by simp [Built.insert, h.flat]
  isSome n := by
    by_cases hn : n = m
    · simp [Built.insert, hn]
    · simp [Built.insert, hn, h.isSome n]
  derived n hP := by
    by_cases hn : n = m
    · subst hn
      simp [Built.insert, hc hP]
    · simp [Built.insert, hn, h.derived n hP]

theorem Built.Alike.sources_isSome (h : b.Alike P b')
    (hsome : ∀ m, (inputs m).isSome = (inputs' m).isSome) (m : MeasureId) :
    (b.sources inputs m).isSome = (b'.sources inputs' m).isSome := by
  unfold Built.sources
  rw [Option.isSome_or, Option.isSome_or, hsome m, h.isSome m]

/-- A step builds the same measure of alike inputs, and the same collection
where `P` holds of what the plan reads. -/
theorem Built.Alike.buildNext (h : b.Alike P b')
    (hsome : ∀ m, (inputs m).isSome = (inputs' m).isSome)
    (hP : ∀ m, P m → inputs m = inputs' m) {x : MeasureId × PlanNode}
    (hclosed : P x.1 → ∀ m ∈ planReads x.2, P m) :
    (Engine.buildNext R K inputs b x).Alike P (Engine.buildNext R K inputs' b' x) := by
  have hsrc := h.sources_isSome hsome
  have heq : P x.1 →
      buildColl R K (b.sources inputs) x.2 = buildColl R K (b'.sources inputs') x.2 := by
    intro hx
    refine buildColl_congr x.2 fun m hm => ?_
    have hPm := hclosed hx m hm
    unfold Built.sources
    rw [hP m hPm, h.derived m hPm]
  unfold Engine.buildNext
  cases hc : buildColl R K (b.sources inputs) x.2 with
  | error e =>
      cases hc' : buildColl R K (b'.sources inputs') x.2 with
      | error e' => exact h
      | ok c' =>
          obtain ⟨c, hok⟩ := buildColl_builds (fun m h => (hsrc m).trans h) x.2 ⟨c', hc'⟩
          rw [hc] at hok
          cases hok
  | ok c =>
      obtain ⟨c', hc'⟩ := buildColl_builds (fun m h => (hsrc m).symm.trans h) x.2 ⟨c, hc⟩
      rw [hc']
      have hcc : P x.1 → c = c' := by
        intro hx
        have hboth := heq hx
        rw [hc, hc'] at hboth
        exact Except.ok.inj hboth
      simp only [h.flat]
      by_cases hf : functional b'.flat x.2 = true
      · rw [if_pos hf, if_pos hf]
        exact h.insert hcc
      · rw [if_neg hf, if_neg hf]
        exact h.insert fun hx => congrArg Multiset.dedup (hcc hx)

/-- Which measures are built depends only on which inputs there are, and the
collections of a closed set of measures only on the inputs in it. -/
theorem buildDerived_alike {plans : Plans}
    (hsome : ∀ m, (inputs m).isSome = (inputs' m).isSome)
    (hP : ∀ m, P m → inputs m = inputs' m)
    (hclosed : ∀ x ∈ plans, P x.1 → ∀ m ∈ planReads x.2, P m) :
    (buildDerived R K inputs plans).Alike P (buildDerived R K inputs' plans) := by
  have hstart : (Built.start inputs).Alike P (Built.start inputs') :=
    ⟨rfl, funext hsome, fun _ => rfl, fun _ _ => rfl⟩
  unfold buildDerived
  generalize Built.start inputs = b at hstart
  generalize Built.start inputs' = b' at hstart
  induction plans generalizing b b' with
  | nil => exact hstart
  | cons x plans ih =>
      rw [List.foldl_cons, List.foldl_cons]
      exact ih (fun y hy => hclosed y (List.mem_cons_of_mem _ hy)) _ _
        (hstart.buildNext hsome hP (hclosed x List.mem_cons_self))

end Alike

end Improv.Engine
