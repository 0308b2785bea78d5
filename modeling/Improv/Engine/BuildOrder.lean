import Improv.CoreModel.References
import Improv.Engine.CycleSearch
/-!
# The build order of derived measures

The engine builds the derived measures its targets need in dependency order: a
measure comes after every derived measure its formula reads.  A measure's
references to itself are no edges: they are a recurrence, which the compiler
checks.  The measures come out of a hash map, in any order.
-/

namespace Improv.Engine

open Improv.Lib Improv.CoreModel Relation

/-- The error of a model that cannot be built. -/
inductive EngineError
  | cycle (names : String)
deriving DecidableEq

/-- The node of a derived measure. -/
def indexOf (derived : List (MeasureId × Formula)) (m : MeasureId) : Option Nat :=
  derived.findIdx? fun p => p.1 = m

/-- The derived measure of a node. -/
def measureAt (derived : List (MeasureId × Formula)) (i : Nat) : MeasureId :=
  ((derived[i]?).map Prod.fst).getD ⟨0⟩

/-- The derived measures each formula refers to, but its own. -/
def dependencies (derived : List (MeasureId × Formula)) : DependencyGraph :=
  derived.map fun (id, f) =>
    (f.referencedMeasures.filter fun d => d ≠ id).filterMap (indexOf derived)

/-- The names of a cycle, from its first measure back to it. -/
def cycleText (model : Model) (ids : List MeasureId) : String :=
  " → ".intercalate ((ids ++ ids.head?.toList).map fun id =>
    ((model.measures.get? id).map Measure.name).getD "")

/-- A cycle from its lowest measure id. -/
def fromLowest (ids : List MeasureId) : List MeasureId :=
  ids.rotate ((ids.min?.map fun low => ids.idxOf low).getD 0)

/-- The cycle through `start` as measure names. -/
def cycleNames (model : Model) (derived : List (MeasureId × Formula)) (g : DependencyGraph)
    (start : Nat) : Option String :=
  (cycleFrom g start).map fun path =>
    cycleText model (fromLowest (path.map (measureAt derived)))

/-- The derived measures the targets need, in dependency order. -/
def derivedBuildOrder (model : Model) (derived : List (MeasureId × Formula))
    (targets : List MeasureId) : Option (Except EngineError (List (MeasureId × Formula))) :=
  let g := dependencies derived
  match buildOrder g (targets.filterMap (indexOf derived)) with
  | none => none
  | some (.ok order) => some (.ok (order.filterMap fun i => derived[i]?))
  | some (.error i) => (cycleNames model derived g i).map fun names => .error (.cycle names)

/-! ## Nodes and measures -/

variable {model : Model} {derived : List (MeasureId × Formula)} {targets : List MeasureId}

theorem measureAt_of_getElem? {i : Nat} {p : MeasureId × Formula} (h : derived[i]? = some p) :
    measureAt derived i = p.1 := by
  unfold measureAt
  rw [h]
  rfl

theorem getElem?_of_indexOf {m : MeasureId} {i : Nat} (h : indexOf derived m = some i) :
    ∃ f, derived[i]? = some (m, f) := by
  obtain ⟨hlt, heq, -⟩ := List.findIdx?_eq_some_iff_getElem.mp h
  rw [decide_eq_true_eq] at heq
  exact ⟨derived[i].2, by rw [List.getElem?_eq_getElem hlt, ← heq]⟩

theorem indexOf_of_mem {m : MeasureId} {f : Formula} (h : (m, f) ∈ derived) :
    ∃ i, indexOf derived m = some i := by
  rw [← Option.isSome_iff_exists]
  unfold indexOf
  rw [List.findIdx?_isSome, List.any_eq_true]
  exact ⟨(m, f), h, by simp⟩

theorem measureAt_inj (h : model.Enumerates derived) {i j : Nat} (hi : i < derived.length)
    (hj : j < derived.length) (heq : measureAt derived i = measureAt derived j) : i = j := by
  have hlt : i < (derived.map Prod.fst).length := by rwa [List.length_map]
  apply (List.getElem?_inj hlt h.nodup).mp
  rw [List.getElem?_map, List.getElem?_map, List.getElem?_eq_getElem hi,
    List.getElem?_eq_getElem hj, Option.map_some, Option.map_some, ← measureAt_of_getElem?
    (List.getElem?_eq_getElem hi), ← measureAt_of_getElem? (List.getElem?_eq_getElem hj), heq]

theorem edge_iff {i j : Nat} :
    (dependencies derived).Edge i j ↔ ∃ m f d, derived[i]? = some (m, f) ∧
      f.expr.Refers d ∧ d ≠ m ∧ indexOf derived d = some j := by
  unfold DependencyGraph.Edge DependencyGraph.deps dependencies
  rw [List.getElem?_map]
  cases hi : derived[i]? with
  | none => simp
  | some p =>
      obtain ⟨m, f⟩ := p
      simp only [Option.map_some, Option.getD_some, List.mem_filterMap, List.mem_filter,
        decide_eq_true_eq, Formula.referencedMeasures, Expr.mem_referencedMeasures]
      constructor
      · rintro ⟨d, ⟨hrefers, hne⟩, hj⟩
        exact ⟨m, f, d, rfl, hrefers, hne, hj⟩
      · rintro ⟨m', f', d, heq, hrefers, hne, hj⟩
        cases heq
        exact ⟨d, ⟨hrefers, hne⟩, hj⟩

theorem lt_of_indexOf {m : MeasureId} {i : Nat} (h : indexOf derived m = some i) :
    i < derived.length :=
  (List.findIdx?_eq_some_iff_getElem.mp h).1

theorem dependencies_wf {i j : Nat} (h : (dependencies derived).Edge i j) :
    j < (dependencies derived).length := by
  obtain ⟨m, f, d, -, -, -, hj⟩ := edge_iff.mp h
  unfold dependencies
  rw [List.length_map]
  exact lt_of_indexOf hj

/-- An edge between nodes is one between their measures. -/
theorem dependsOn_of_edge (h : model.Enumerates derived) {i j : Nat}
    (hedge : (dependencies derived).Edge i j) :
    model.DependsOn (measureAt derived i) (measureAt derived j) := by
  obtain ⟨m, f, d, hi, hrefers, hne, hj⟩ := edge_iff.mp hedge
  obtain ⟨f', hj'⟩ := getElem?_of_indexOf hj
  rw [measureAt_of_getElem? hi, measureAt_of_getElem? hj']
  refine ⟨hne, ?_, f, ?_, .here hrefers⟩
  · rw [(h.mem_iff d f').mp (List.mem_of_getElem? hj')]
    rfl
  · exact (h.mem_iff m f).mp (List.mem_of_getElem? hi)

/-- A measure a node's measure depends on has a node, and an edge to it. -/
theorem edge_of_dependsOn (h : model.Enumerates derived) (hlambdas : model.lambdas.ReadParams)
    {i : Nat} (hi : i < derived.length) {d : MeasureId}
    (hdepends : model.DependsOn (measureAt derived i) d) :
    ∃ j, (dependencies derived).Edge i j ∧ measureAt derived j = d := by
  obtain ⟨hne, hd, f, hf, hreads⟩ := hdepends
  obtain ⟨f', hf'⟩ := Option.isSome_iff_exists.mp hd
  obtain ⟨j, hj⟩ := indexOf_of_mem ((h.mem_iff d f').mpr hf')
  obtain ⟨f'', hj'⟩ := getElem?_of_indexOf hj
  have hget := List.getElem?_eq_getElem hi
  have hformula : f = derived[i].2 := by
    rw [measureAt_of_getElem? hget] at hf
    have hmem := (h.mem_iff derived[i].1 derived[i].2).mp (List.getElem_mem hi)
    rw [hf] at hmem
    exact Option.some_inj.mp hmem
  refine ⟨j, edge_iff.mpr ⟨derived[i].1, derived[i].2, d, hget, ?_, ?_, hj⟩,
    measureAt_of_getElem? hj'⟩
  · rw [← hformula]
    exact hlambdas.reads_iff.mp hreads
  · rw [measureAt_of_getElem? hget] at hne
    exact hne

/-! ## What the targets need -/

/-- The derived measures the targets need. -/
def Needed (model : Model) (targets : List MeasureId) (m : MeasureId) : Prop :=
  Reached model.DependsOn (targets.filter fun t => (model.derivedFormula t).isSome) m

theorem lt_of_reached {i : Nat} (h : Reached (dependencies derived).Edge
    (targets.filterMap (indexOf derived)) i) : i < derived.length := by
  obtain ⟨r, hr, hpath⟩ := h
  cases hpath with
  | refl =>
      obtain ⟨t, -, ht⟩ := List.mem_filterMap.mp hr
      exact lt_of_indexOf ht
  | tail _ hedge =>
      have hlt := dependencies_wf hedge
      unfold dependencies at hlt
      rwa [List.length_map] at hlt

theorem needed_of_reached (h : model.Enumerates derived) {i : Nat}
    (hreached : Reached (dependencies derived).Edge (targets.filterMap (indexOf derived)) i) :
    Needed model targets (measureAt derived i) := by
  obtain ⟨r, hr, hpath⟩ := hreached
  obtain ⟨t, ht, hindex⟩ := List.mem_filterMap.mp hr
  obtain ⟨f, hget⟩ := getElem?_of_indexOf hindex
  have hlift := ReflTransGen.lift (measureAt derived) (fun _ _ => dependsOn_of_edge h) _ _ hpath
  refine ⟨measureAt derived r, ?_, hlift⟩
  rw [measureAt_of_getElem? hget]
  refine List.mem_filter.mpr ⟨ht, ?_⟩
  rw [(h.mem_iff t f).mp (List.mem_of_getElem? hget)]
  rfl

theorem reached_of_needed (h : model.Enumerates derived) (hlambdas : model.lambdas.ReadParams)
    {m : MeasureId} (hneeded : Needed model targets m) :
    ∃ i, measureAt derived i = m ∧
      Reached (dependencies derived).Edge (targets.filterMap (indexOf derived)) i := by
  obtain ⟨r, hr, hpath⟩ := hneeded
  induction hpath with
  | refl =>
      obtain ⟨ht, hsome⟩ := List.mem_filter.mp hr
      obtain ⟨f, hf⟩ := Option.isSome_iff_exists.mp hsome
      obtain ⟨i, hi⟩ := indexOf_of_mem ((h.mem_iff r f).mpr hf)
      obtain ⟨f', hget⟩ := getElem?_of_indexOf hi
      exact ⟨i, measureAt_of_getElem? hget, .root (List.mem_filterMap.mpr ⟨r, ht, hi⟩)⟩
  | tail _ hedge ih =>
      obtain ⟨i, rfl, hreached⟩ := ih
      obtain ⟨j, hj, rfl⟩ := edge_of_dependsOn h hlambdas (lt_of_reached hreached) hedge
      exact ⟨j, rfl, hreached.tail hj⟩

/-- The derived measures the targets need, each once with its formula and after
all it depends on. -/
structure IsBuildOrder (model : Model) (targets : List MeasureId)
    (order : List (MeasureId × Formula)) : Prop where
  topological : Topological model.DependsOn (order.map Prod.fst)
  mem_iff : ∀ m f, (m, f) ∈ order ↔ Needed model targets m ∧ model.derivedFormula m = some f

theorem isBuildOrder_of_nodes (h : model.Enumerates derived) (hlambdas : model.lambdas.ReadParams)
    {order : List Nat} (htopological : Topological (dependencies derived).Edge order)
    (hmem : ∀ i, i ∈ order ↔
      Reached (dependencies derived).Edge (targets.filterMap (indexOf derived)) i) :
    IsBuildOrder model targets (order.filterMap fun i => derived[i]?) := by
  have hlt : ∀ i ∈ order, i < derived.length := fun i hi => lt_of_reached ((hmem i).mp hi)
  have hids : (order.filterMap fun i => derived[i]?).map Prod.fst =
      order.map (measureAt derived) := by
    rw [List.map_filterMap, ← List.filterMap_eq_map]
    apply List.filterMap_congr
    intro i hi
    have hget := List.getElem?_eq_getElem (hlt i hi)
    show derived[i]?.map Prod.fst = some (measureAt derived i)
    rw [measureAt_of_getElem? hget, hget]
    rfl
  refine ⟨?_, fun m f => ⟨fun hin => ?_, fun hin => ?_⟩⟩
  · rw [hids]
    apply htopological.map
    · exact fun i hi j hj => measureAt_inj h (hlt i hi) (hlt j hj)
    · exact fun i hi d => edge_of_dependsOn h hlambdas (hlt i hi)
  · obtain ⟨i, hi, hget⟩ := List.mem_filterMap.mp hin
    have hneeded := needed_of_reached h ((hmem i).mp hi)
    rw [measureAt_of_getElem? hget] at hneeded
    exact ⟨hneeded, (h.mem_iff m f).mp (List.mem_of_getElem? hget)⟩
  · obtain ⟨i, hi, hreached⟩ := reached_of_needed h hlambdas hin.1
    have hlt' := lt_of_reached hreached
    have hget := List.getElem?_eq_getElem hlt'
    rw [measureAt_of_getElem? hget] at hi
    have hformula : derived[i].2 = f := by
      have hat := (h.mem_iff derived[i].1 derived[i].2).mp (List.getElem_mem hlt')
      rw [hi, hin.2] at hat
      exact (Option.some_inj.mp hat).symm
    refine List.mem_filterMap.mpr ⟨i, (hmem i).mpr hreached, ?_⟩
    rw [hget, ← hi, ← hformula]

/-- Some cycle of references is among what the targets need. -/
def HasCycle (model : Model) (targets : List MeasureId) : Prop :=
  ∃ m, Needed model targets m ∧ TransGen model.DependsOn m m

theorem IsBuildOrder.not_hasCycle {order : List (MeasureId × Formula)}
    (h : IsBuildOrder model targets order) : ¬HasCycle model targets := by
  rintro ⟨m, hneeded, hcycle⟩
  obtain ⟨d, ⟨-, -, f, hf, -⟩, -⟩ := TransGen.head'_iff.mp hcycle
  exact h.topological.acyclic (List.mem_map_of_mem ((h.mem_iff m f).mpr ⟨hneeded, hf⟩)) hcycle

/-- The build order is topological over all that a formula reads, it fails
exactly on a cycle of references, and it then names one. -/
theorem derivedBuildOrder_correct (model : Model) (derived : List (MeasureId × Formula))
    (targets : List MeasureId) (h : model.Enumerates derived)
    (hlambdas : model.lambdas.ReadParams) :
    (¬HasCycle model targets ∧ ∃ order, derivedBuildOrder model derived targets =
        some (.ok order) ∧ IsBuildOrder model targets order) ∨
    (HasCycle model targets ∧ ∃ ids : List MeasureId, ids ≠ [] ∧
      Cycle.Chain model.DependsOn ids ∧
      derivedBuildOrder model derived targets = some (.error (.cycle (cycleText model ids)))) := by
  unfold derivedBuildOrder
  rcases buildOrder_spec (dependencies derived) (targets.filterMap (indexOf derived)) with
    ⟨order, horder, htopological, hmem⟩ | ⟨w, hw, hreached, hcycle⟩
  · have hbuild := isBuildOrder_of_nodes h hlambdas htopological hmem
    simp only [horder]
    exact .inl ⟨hbuild.not_hasCycle, _, rfl, hbuild⟩
  · obtain ⟨rest, hfrom, hchain⟩ := cycleFrom_spec (fun _ _ => dependencies_wf) hcycle
    have hlift := TransGen.lift (measureAt derived) (fun _ _ => dependsOn_of_edge h) _ _ hcycle
    simp only [hw, cycleNames, hfrom, Option.map_some]
    refine .inr ⟨⟨measureAt derived w, needed_of_reached h hreached, hlift⟩,
      fromLowest ((w :: rest).map (measureAt derived)), ?_, ?_, rfl⟩
    · unfold fromLowest
      rw [ne_eq, List.rotate_eq_nil_iff]
      exact List.cons_ne_nil _ _
    · have hrotated : (fromLowest ((w :: rest).map (measureAt derived)) : Cycle MeasureId) =
          Cycle.map (measureAt derived) (w :: rest : List Nat) := by
        rw [Cycle.map_coe]
        exact Cycle.coe_eq_coe.mpr (List.IsRotated.symm ⟨_, rfl⟩)
      rw [hrotated, Cycle.chain_map]
      exact hchain.imp fun _ _ => dependsOn_of_edge h

/-- A price and the total made of it twice. -/
def priceAndTotal : Model :=
  (Model.new.addMeasure ⟨⟨1⟩, "Price", .number, [], .derived ⟨.literal (.enum 0)⟩, none,
    none⟩).addMeasure ⟨⟨2⟩, "Total", .number, [],
      .derived ⟨.binaryOp .add (.ref ⟨1⟩ .default) (.ref ⟨1⟩ .default)⟩, none, none⟩

theorem derivedBuildOrder_correct_total :
    (¬HasCycle priceAndTotal [⟨2⟩] ∧ ∃ order,
        derivedBuildOrder priceAndTotal priceAndTotal.derivedEntries [⟨2⟩] = some (.ok order) ∧
          IsBuildOrder priceAndTotal [⟨2⟩] order) ∨
    (HasCycle priceAndTotal [⟨2⟩] ∧ ∃ ids : List MeasureId, ids ≠ [] ∧
      Cycle.Chain priceAndTotal.DependsOn ids ∧
      derivedBuildOrder priceAndTotal priceAndTotal.derivedEntries [⟨2⟩] =
        some (.error (.cycle (cycleText priceAndTotal ids)))) :=
  derivedBuildOrder_correct priceAndTotal priceAndTotal.derivedEntries [⟨2⟩]
    priceAndTotal.enumerates_derivedEntries fun _ _ hl => nomatch hl

/-! ## Self-references -/

/-- The function `PREV`. -/
def PREV : FuncId := ⟨904⟩

/-- A reference to `m` that is not the first argument of a `PREV`: neither a
recurrence nor a fixed point allows one to the measure itself. -/
inductive RefersBare (m : MeasureId) : Expr → Prop
  | ref {spec : DimensionSpec} : RefersBare m (.ref m spec)
  | operand {op : UnaryOp} {a : Expr} : RefersBare m a → RefersBare m (.unaryOp op a)
  | left {op : BinaryOp} {a b : Expr} : RefersBare m a → RefersBare m (.binaryOp op a b)
  | right {op : BinaryOp} {a b : Expr} : RefersBare m b → RefersBare m (.binaryOp op a b)
  | arg {f : FuncId} {args : List Expr} {i : Nat} {a : Expr} : args[i]? = some a →
      f ≠ PREV ∨ i ≠ 0 → RefersBare m a → RefersBare m (.call f args)

/-- A total made of itself. -/
def bareSelf : Model :=
  Model.new.addMeasure ⟨⟨1⟩, "Total", .number, [],
    .derived ⟨.binaryOp .add (.ref ⟨1⟩ .default) (.ref ⟨1⟩ .default)⟩, none, none⟩

/-- A total made by a named lambda whose body refers to another measure, which
no such body may. -/
def looseLambda : Model :=
  { (Model.new.addMeasure ⟨⟨1⟩, "Flow", .number, [], .derived ⟨.literal (.enum 0)⟩, none,
      none⟩).addMeasure ⟨⟨2⟩, "Total", .number, [],
        .derived ⟨.call (Functions.namedLambda 1) []⟩, none, none⟩ with
    lambdas := SortedMap.empty.insert 1 ⟨"F", [], .ref ⟨1⟩ .default⟩ }

/-- A measure that refers to itself as no recurrence does is in the order: only
the compiler refuses it.  And what the body of a named lambda refers to is no
edge. -/
theorem derivedBuildOrder_misses :
    (∃ f, bareSelf.derivedFormula ⟨1⟩ = some f ∧ RefersBare ⟨1⟩ f.expr ∧
      derivedBuildOrder bareSelf bareSelf.derivedEntries [⟨1⟩] = some (.ok [(⟨1⟩, f)])) ∧
    ∃ f, looseLambda.DependsOn ⟨2⟩ ⟨1⟩ ∧
      derivedBuildOrder looseLambda looseLambda.derivedEntries [⟨2⟩] = some (.ok [(⟨2⟩, f)]) := by
  refine ⟨⟨_, rfl, .left .ref, by decide +kernel⟩, ⟨.call (Functions.namedLambda 1) []⟩, ?_, ?_⟩
  · refine ⟨by decide, by decide +kernel, ⟨.call (Functions.namedLambda 1) []⟩, rfl, ?_⟩
    have hreaches : Reaches looseLambda.lambdas (.call (Functions.namedLambda 1) []) (1, 0) :=
      .direct (by decide +kernel)
    exact .through hreaches rfl .ref (by decide +kernel)
  · decide +kernel

end Improv.Engine
