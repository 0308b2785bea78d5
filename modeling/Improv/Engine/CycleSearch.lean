import Mathlib.Data.List.Cycle
import Improv.Engine.DependencyOrder
/-!
# The cycle through a node

The engine names a cycle by a breadth-first search from a node the build order
found on one, until an edge leads back to it, and then follows the parents the
search recorded.  Both loops end within as many rounds as the graph has nodes,
and what they find is a cycle of the graph.
-/

namespace Improv.Engine

open Improv.Lib Relation

/-- The node each node was first reached from, the last one recorded first. -/
abbrev Parents := List (Nat × Nat)

/-- The edges of `u` in turn: new nodes are recorded and queued, until one leads
back to `start`. -/
def scanEdges (start u : Nat) : List Nat → Parents → List Nat → Parents × Option (List Nat)
  | [], parent, queue => (parent, some queue)
  | v :: vs, parent, queue =>
    if v = start then (parent, none)
    else if (parent.lookup v).isNone then scanEdges start u vs ((v, u) :: parent) (queue ++ [v])
    else scanEdges start u vs parent queue

/-- Breadth-first from `start` until an edge leads back to it: the node of that
edge and the parents. -/
def searchBack (g : DependencyGraph) (start : Nat) :
    (fuel : Nat) → Parents → List Nat → Option (Nat × Parents)
  | _, parent, [] => some (start, parent)
  | 0, _, _ :: _ => none
  | fuel + 1, parent, u :: queue =>
    match scanEdges start u (g.deps u) parent queue with
    | (parent, none) => some (u, parent)
    | (parent, some queue) => searchBack g start fuel parent queue

/-- The parents of a node in turn, itself first. -/
def trail (parent : Parents) : (fuel node : Nat) → Option (List Nat)
  | 0, _ => none
  | fuel + 1, node =>
    match parent.lookup node with
    | none => some [node]
    | some p => (trail parent fuel p).map (node :: ·)

/-- The cycle through `start`, from `start` to the node with the edge back. -/
def cycleFrom (g : DependencyGraph) (start : Nat) : Option (List Nat) :=
  (searchBack g start (g.length + 1) [] [start]).bind fun (last, parent) =>
    (trail parent (parent.length + 1) last).map List.reverse

/-! ## The parents form a tree -/

variable {g : DependencyGraph} {start : Nat}

/-- The nodes the search has reached. -/
def Parents.Holds (start : Nat) (parent : Parents) (u : Nat) : Prop :=
  u = start ∨ u ∈ parent.map Prod.fst

/-- Each node but `start` has one parent, which was reached before it. -/
inductive Parents.Tree (g : DependencyGraph) (start : Nat) : Parents → Prop
  | nil : Tree g start []
  | cons {v u : Nat} {parent : Parents} (rest : Tree g start parent) (hedge : g.Edge u v)
      (hparent : parent.Holds start u) (hnew : ¬parent.Holds start v) :
      Tree g start ((v, u) :: parent)

theorem Parents.Holds.cons {parent : Parents} {u : Nat} (h : parent.Holds start u)
    (p : Nat × Nat) : Parents.Holds start (p :: parent) u :=
  h.imp_right fun hmem => List.mem_cons_of_mem p.1 hmem

theorem lookup_eq_none {parent : Parents} {u : Nat} (h : u ∉ parent.map Prod.fst) :
    parent.lookup u = none := by
  rw [List.lookup_eq_none_iff]
  intro p hp
  rw [bne_iff_ne]
  intro heq
  exact h (heq ▸ List.mem_map_of_mem hp)

theorem lookup_isNone_iff {parent : Parents} {u : Nat} :
    (parent.lookup u).isNone ↔ u ∉ parent.map Prod.fst := by
  constructor
  · intro h hmem
    obtain ⟨p, hp, rfl⟩ := List.mem_map.mp hmem
    rw [Option.isNone_iff_eq_none, List.lookup_eq_none_iff] at h
    have hne := h p hp
    rw [bne_iff_ne] at hne
    exact hne rfl
  · intro h
    rw [lookup_eq_none h]
    rfl

/-- A node reached before the newest has the trail it had without it. -/
theorem Parents.Tree.trail_cons {parent : Parents} {v u : Nat} (h : parent.Tree g start)
    (hnew : ¬parent.Holds start v) {fuel node : Nat} (hnode : parent.Holds start node) :
    trail ((v, u) :: parent) fuel node = trail parent fuel node := by
  induction fuel generalizing node with
  | zero => rfl
  | succ fuel ih =>
      have hne : node ≠ v := fun heq => hnew (heq ▸ hnode)
      have hlookup : List.lookup node ((v, u) :: parent) = parent.lookup node := by
        rw [List.lookup_cons, beq_eq_false_iff_ne.mpr hne]
      unfold trail
      rw [hlookup]
      cases hp : parent.lookup node with
      | none => rfl
      | some p =>
          have hholds : ∀ {parent : Parents}, parent.Tree g start → ∀ {node p},
              parent.lookup node = some p → parent.Holds start p := by
            intro parent h
            induction h with
            | nil => exact fun hnone => nomatch hnone
            | @cons v u parent _ _ hparent _ ihp =>
                intro node p hp
                rw [List.lookup_cons] at hp
                split at hp
                · cases hp
                  exact hparent.cons _
                · exact (ihp hp).cons _
          simp only
          rw [ih (hholds h hp)]

/-- The trail of a reached node is a path from `start` to it, read backwards. -/
theorem Parents.Tree.trail_spec {parent : Parents} (h : parent.Tree g start) {fuel node : Nat}
    (hnode : parent.Holds start node) (hfuel : parent.length < fuel) :
    ∃ path, trail parent fuel node = some (path ++ [start]) ∧
      (path ++ [start]).head? = some node ∧ List.IsChain (flip g.Edge) (path ++ [start]) := by
  induction h generalizing fuel node with
  | nil =>
      obtain ⟨fuel, rfl⟩ := Nat.exists_eq_add_one.mpr (Nat.zero_lt_of_lt hfuel)
      have hstart : node = start := by
        rcases hnode with rfl | hmem
        · rfl
        · exact absurd hmem List.not_mem_nil
      exact ⟨[], by rw [hstart]; rfl, by rw [hstart]; rfl, .singleton start⟩
  | @cons v u parent rest hedge hparent hnew ih =>
      rw [List.length_cons] at hfuel
      by_cases hv : node = v
      · subst hv
        obtain ⟨fuel, rfl⟩ := Nat.exists_eq_add_one.mpr (Nat.zero_lt_of_lt hfuel)
        obtain ⟨path, hpath, hhead, hchain⟩ := @ih fuel u hparent (by omega)
        refine ⟨node :: path, ?_, rfl, ?_⟩
        · unfold trail
          rw [List.lookup_cons, beq_self_eq_true]
          simp only [rest.trail_cons hnew hparent, hpath, Option.map_some, List.cons_append]
        · rw [List.cons_append, List.isChain_cons]
          refine ⟨fun y hy => ?_, hchain⟩
          rw [hhead] at hy
          cases hy
          exact hedge
      · have hholds : parent.Holds start node := by
          rcases hnode with hstart | hmem
          · exact .inl hstart
          · rcases List.mem_cons.mp hmem with heq | hmem
            · exact absurd heq hv
            · exact .inr hmem
        obtain ⟨path, hpath, hhead, hchain⟩ := @ih fuel node hholds (by omega)
        exact ⟨path, by rw [rest.trail_cons hnew hholds]; exact hpath, hhead, hchain⟩

/-! ## The search finds an edge back -/

/-- What the search keeps: its parents form a tree, what is queued was reached,
and every node reached that is not queued has all its edges to nodes reached,
none of them `start`. -/
structure SearchInv (g : DependencyGraph) (start : Nat) (parent : Parents)
    (queue : List Nat) : Prop where
  tree : parent.Tree g start
  queued : ∀ u ∈ queue, parent.Holds start u
  searched : ∀ u, parent.Holds start u → u ∉ queue → ∀ w, g.Edge u w →
    w ≠ start ∧ parent.Holds start w

/-- The nodes the search has yet to reach. -/
def unreached (g : DependencyGraph) (parent : Parents) : Finset Nat :=
  Finset.range g.length \ (parent.map Prod.fst).toFinset

theorem unreached_cons {parent : Parents} {v u : Nat} (hv : v < g.length)
    (hnew : v ∉ parent.map Prod.fst) :
    (unreached g ((v, u) :: parent)).card < (unreached g parent).card := by
  apply Finset.card_lt_card
  refine ⟨fun w hw => ?_, fun hsub => ?_⟩
  · unfold unreached at hw ⊢
    simp only [List.map_cons, List.toFinset_cons, Finset.mem_sdiff, Finset.mem_insert,
      not_or] at hw ⊢
    exact ⟨hw.1, hw.2.2⟩
  · have hmem : v ∈ unreached g parent := by
      unfold unreached
      rw [Finset.mem_sdiff, Finset.mem_range, List.mem_toFinset]
      exact ⟨hv, hnew⟩
    have hnot := hsub hmem
    unfold unreached at hnot
    simp at hnot

/-- What the edges of one node add to the search. -/
structure ScanInv (g : DependencyGraph) (start u : Nat) (todo : List Nat) (parent : Parents)
    (queue : List Nat) : Prop where
  tree : parent.Tree g start
  queued : ∀ w ∈ queue, parent.Holds start w
  node : parent.Holds start u
  searched : ∀ x, parent.Holds start x → x ∉ queue → x ≠ u → ∀ w, g.Edge x w →
    w ≠ start ∧ parent.Holds start w
  scanned : ∀ w, g.Edge u w → w ∉ todo → w ≠ start ∧ parent.Holds start w

/-- The edges of `u` either lead back to `start` or are all searched. -/
theorem scanEdges_spec (hwf : ∀ u w, g.Edge u w → w < g.length) {u : Nat} {vs : List Nat}
    {parent : Parents} {queue : List Nat} (h : ScanInv g start u vs parent queue)
    (hvs : ∀ v ∈ vs, g.Edge u v) :
    (∃ parent', scanEdges start u vs parent queue = (parent', none) ∧ parent'.Tree g start ∧
      parent'.Holds start u ∧ g.Edge u start) ∨
    ∃ parent' queue', scanEdges start u vs parent queue = (parent', some queue') ∧
      SearchInv g start parent' queue' ∧
      queue'.length + (unreached g parent').card ≤
        queue.length + (unreached g parent).card := by
  induction vs generalizing parent queue with
  | nil =>
      refine .inr ⟨parent, queue, rfl, ⟨h.tree, h.queued, fun x hx hqueue w hw => ?_⟩, le_rfl⟩
      by_cases hxu : x = u
      · exact h.scanned w (hxu ▸ hw) List.not_mem_nil
      · exact h.searched x hx hqueue hxu w hw
  | cons v vs ih =>
      have hedge := hvs v List.mem_cons_self
      have hvs' : ∀ w ∈ vs, g.Edge u w := fun w hw => hvs w (List.mem_cons_of_mem v hw)
      unfold scanEdges
      split
      · rename_i hstart
        exact .inl ⟨parent, rfl, h.tree, h.node, hstart ▸ hedge⟩
      · rename_i hne
        split
        · rename_i hnone
          have hnew := lookup_isNone_iff.mp hnone
          have hnot : ¬parent.Holds start v := fun hholds => hholds.elim hne hnew
          have hlt := unreached_cons (u := u) (hwf u v hedge) hnew
          have hscan : ScanInv g start u vs ((v, u) :: parent) (queue ++ [v]) := by
            refine ⟨.cons h.tree hedge h.node hnot, fun w hw => ?_, h.node.cons _,
              fun x hx hqueue hxu w hw => ?_, fun w hw hnotin => ?_⟩
            · rcases List.mem_append.mp hw with hw | hw
              · exact (h.queued w hw).cons _
              · rw [List.mem_singleton.mp hw]
                exact .inr List.mem_cons_self
            · rw [List.mem_append, List.mem_singleton, not_or] at hqueue
              have hold : parent.Holds start x := by
                rcases hx with hx | hx
                · exact .inl hx
                · exact .inr ((List.mem_cons.mp hx).resolve_left hqueue.2)
              have hsearched := h.searched x hold hqueue.1 hxu w hw
              exact ⟨hsearched.1, hsearched.2.cons _⟩
            · by_cases hwv : w = v
              · rw [hwv]
                exact ⟨hne, .inr List.mem_cons_self⟩
              · have hscanned := h.scanned w hw fun hmem =>
                  (List.mem_cons.mp hmem).elim hwv hnotin
                exact ⟨hscanned.1, hscanned.2.cons _⟩
          rcases ih hscan hvs' with hfound | ⟨parent', queue', heq, hinv, hle⟩
          · exact .inl hfound
          · refine .inr ⟨parent', queue', heq, hinv, ?_⟩
            rw [List.length_append, List.length_singleton] at hle
            omega
        · rename_i hsome
          have hold : parent.Holds start v := by
            by_contra hnot
            exact hsome (lookup_isNone_iff.mpr fun hmem => hnot (.inr hmem))
          apply ih _ hvs'
          refine ⟨h.tree, h.queued, h.node, h.searched, fun w hw hnotin => ?_⟩
          by_cases hwv : w = v
          · rw [hwv]
            exact ⟨hne, hold⟩
          · exact h.scanned w hw fun hmem => (List.mem_cons.mp hmem).elim hwv hnotin

/-- A search that ends without an edge back has found no cycle. -/
theorem SearchInv.not_cycle {parent : Parents} (h : SearchInv g start parent []) :
    ¬TransGen g.Edge start start := by
  intro hcycle
  have hheld : ∀ u, ReflTransGen g.Edge start u → parent.Holds start u := by
    intro u hpath
    induction hpath with
    | refl => exact .inl rfl
    | tail _ hedge ih => exact (h.searched _ ih List.not_mem_nil _ hedge).2
  obtain ⟨u, hpath, hedge⟩ := TransGen.tail'_iff.mp hcycle
  exact (h.searched u (hheld u hpath) List.not_mem_nil start hedge).1 rfl

theorem searchBack_spec (hwf : ∀ u w, g.Edge u w → w < g.length)
    (hcycle : TransGen g.Edge start start) {fuel : Nat} {parent : Parents} {queue : List Nat}
    (h : SearchInv g start parent queue)
    (hfuel : queue.length + (unreached g parent).card ≤ fuel) :
    ∃ last parent', searchBack g start fuel parent queue = some (last, parent') ∧
      parent'.Tree g start ∧ parent'.Holds start last ∧ g.Edge last start := by
  induction fuel generalizing parent queue with
  | zero =>
      cases queue with
      | nil => exact absurd hcycle (h.not_cycle)
      | cons u queue => simp at hfuel
  | succ fuel ih =>
      cases queue with
      | nil => exact absurd hcycle (h.not_cycle)
      | cons u queue =>
          have hscan : ScanInv g start u (g.deps u) parent queue := by
            refine ⟨h.tree, fun w hw => h.queued w (List.mem_cons_of_mem u hw),
              h.queued u List.mem_cons_self, fun x hx hqueue hxu => ?_, fun w hw hnot => ?_⟩
            · exact h.searched x hx fun hmem => (List.mem_cons.mp hmem).elim hxu hqueue
            · exact absurd hw hnot
          unfold searchBack
          rw [List.length_cons] at hfuel
          rcases scanEdges_spec hwf hscan (fun v hv => hv) with
            ⟨parent', heq, htree, hholds, hedge⟩ | ⟨parent', queue', heq, hinv, hle⟩
          · rw [heq]
            exact ⟨u, parent', rfl, htree, hholds, hedge⟩
          · rw [heq]
            exact ih hinv (by omega)

/-- Of a node on a cycle, what is found is a cycle through it. -/
theorem cycleFrom_spec (hwf : ∀ u w, g.Edge u w → w < g.length)
    (hcycle : TransGen g.Edge start start) :
    ∃ rest, cycleFrom g start = some (start :: rest) ∧
      Cycle.Chain g.Edge (start :: rest : List Nat) := by
  have hinv : SearchInv g start [] [start] := by
    refine ⟨.nil, fun u hu => .inl (List.mem_singleton.mp hu), fun u hu hqueue => ?_⟩
    rcases hu with rfl | hu
    · exact absurd List.mem_cons_self hqueue
    · exact absurd hu List.not_mem_nil
  have hfuel : [start].length + (unreached g []).card ≤ g.length + 1 := by
    unfold unreached
    simp only [List.map_nil, List.toFinset_nil, Finset.sdiff_empty, Finset.card_range,
      List.length_singleton]
    omega
  obtain ⟨last, parent, hsearch, htree, hholds, hback⟩ := searchBack_spec hwf hcycle hinv hfuel
  obtain ⟨path, htrail, hhead, hchain⟩ := htree.trail_spec hholds (Nat.lt_succ_self _)
  refine ⟨path.reverse, ?_, ?_⟩
  · unfold cycleFrom
    rw [hsearch]
    simp only [Option.bind_some, htrail, Option.map_some, List.reverse_append,
      List.reverse_singleton, List.singleton_append]
  · rw [Cycle.chain_coe_cons]
    have hreverse : start :: (path.reverse ++ [start]) =
        (start :: (path ++ [start])).reverse := by
      simp
    rw [hreverse, List.isChain_reverse, List.isChain_cons]
    refine ⟨fun y hy => ?_, hchain⟩
    rw [hhead] at hy
    cases hy
    exact hback

end Improv.Engine
