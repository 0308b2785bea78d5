import Mathlib.Data.Finset.Card
import Improv.Lib.Topological
/-!
# The dependency build order

A depth-first topological sort that rejects cycles.  Nodes are indices, and
`g[u]` lists the dependencies of node `u` in the order they are visited; the
result is the post-order of the search from the roots.  Fuel stands for the
recursion's depth, and the number of nodes is enough of it.
-/

namespace Improv.Engine

open Improv.Lib Relation

/-- The dependencies of each node. -/
abbrev DependencyGraph := List (List Nat)

namespace DependencyGraph

def deps (g : DependencyGraph) (u : Nat) : List Nat := (g[u]?).getD []

/-- `w` is one of the dependencies of `u`. -/
def Edge (g : DependencyGraph) (u w : Nat) : Prop := w ∈ g.deps u

theorem lt_of_edge {g : DependencyGraph} {u w : Nat} (h : g.Edge u w) : u < g.length := by
  by_contra hlt
  unfold Edge deps at h
  rw [List.getElem?_eq_none (by omega)] at h
  exact List.not_mem_nil h

end DependencyGraph

/-- How far the search is with a node. -/
inductive Mark
  | unvisited
  | onStack
  | done
deriving DecidableEq

/-- The search's marks and the order it has built. -/
structure Visits where
  mark : Nat → Mark
  order : List Nat

/-- A search's result: nothing when out of fuel, or an error at a node on a
cycle. -/
abbrev SearchResult (α : Type) := Option (Except Nat α)

/-- The dependencies of a node in turn, `next` visiting one. -/
def visitEach (next : Nat → Visits → SearchResult Visits) :
    List Nat → Visits → SearchResult Visits
  | [], s => some (.ok s)
  | w :: ws, s =>
    match s.mark w with
    | .onStack => some (.error w)
    | .unvisited =>
      match next w s with
      | some (.ok s) => visitEach next ws s
      | failed => failed
    | .done => visitEach next ws s

def visit (g : DependencyGraph) : (fuel v : Nat) → Visits → SearchResult Visits
  | 0, _, _ => none
  | fuel + 1, v, s =>
    match visitEach (visit g fuel) (g.deps v)
        { s with mark := Function.update s.mark v .onStack } with
    | some (.ok s) => some (.ok ⟨Function.update s.mark v .done, s.order ++ [v]⟩)
    | failed => failed

def visitRoots (g : DependencyGraph) : List Nat → Visits → SearchResult Visits
  | [], s => some (.ok s)
  | v :: vs, s =>
    match s.mark v with
    | .unvisited =>
      match visit g (g.length + 1) v s with
      | some (.ok s) => visitRoots g vs s
      | failed => failed
    | _ => visitRoots g vs s

/-- The build order of `roots` in `g`, or a node on a cycle. -/
def buildOrder (g : DependencyGraph) (roots : List Nat) : SearchResult (List Nat) :=
  (visitRoots g roots ⟨fun _ => .unvisited, []⟩).map fun r => r.map Visits.order

/-! ## What the search keeps -/

variable {g : DependencyGraph} {roots stack : List Nat} {s s' : Visits}

/-- Done nodes are the order, which is topological and reached; nodes on the
stack are those given. -/
structure Visits.Inv (g : DependencyGraph) (roots stack : List Nat) (s : Visits) : Prop where
  done_iff : ∀ u, s.mark u = .done ↔ u ∈ s.order
  onStack_iff : ∀ u, s.mark u = .onStack ↔ u ∈ stack
  topological : Topological g.Edge s.order
  reached : ∀ u ∈ s.order, Reached g.Edge roots u

/-- A later state of the search: no node is unvisited again, and what is done
stays done. -/
structure Visits.Later (s s' : Visits) : Prop where
  unvisited : ∀ u, s'.mark u = .unvisited → s.mark u = .unvisited
  done : ∀ u, s.mark u = .done → s'.mark u = .done

theorem Visits.Later.refl (s : Visits) : s.Later s := ⟨fun _ h => h, fun _ h => h⟩

theorem Visits.Later.trans {s'' : Visits} (h : s.Later s') (h' : s'.Later s'') : s.Later s'' where
  unvisited u hu := h.unvisited u (h'.unvisited u hu)
  done u hu := h'.done u (h.done u hu)

/-- A search of the nodes `ws` ends with all of them done, or at a reached node
on a cycle. -/
def Settles (g : DependencyGraph) (roots stack ws : List Nat) (s : Visits)
    (r : SearchResult Visits) : Prop :=
  (∃ s', r = some (.ok s') ∧ s'.Inv g roots stack ∧ s.Later s' ∧ ∀ w ∈ ws, s'.mark w = .done) ∨
    ∃ w, r = some (.error w) ∧ Reached g.Edge roots w ∧ TransGen g.Edge w w

/-- The nodes of the graph that are not visited yet. -/
def Visits.left (g : DependencyGraph) (s : Visits) : Finset Nat :=
  (Finset.range g.length).filter fun u => s.mark u = .unvisited

theorem Visits.Later.left_le (h : s.Later s') : (s'.left g).card ≤ (s.left g).card := by
  apply Finset.card_le_card
  intro u hu
  unfold Visits.left at hu ⊢
  rw [Finset.mem_filter] at hu ⊢
  exact ⟨hu.1, h.unvisited u hu.2⟩

/-- A node put on the stack. -/
def Visits.enter (s : Visits) (v : Nat) : Visits :=
  { s with mark := Function.update s.mark v .onStack }

/-- The node on top of the stack is done. -/
def Visits.leave (s : Visits) (v : Nat) : Visits :=
  ⟨Function.update s.mark v .done, s.order ++ [v]⟩

theorem Visits.left_enter_lt {v : Nat} (hv : s.mark v = .unvisited) (hlt : v < g.length) :
    ((s.enter v).left g).card < (s.left g).card := by
  apply Finset.card_lt_card
  refine ⟨fun u hu => ?_, fun hsub => ?_⟩
  · unfold Visits.left Visits.enter at hu
    unfold Visits.left
    rw [Finset.mem_filter] at hu ⊢
    refine ⟨hu.1, ?_⟩
    by_cases huv : u = v
    · rw [huv]
      exact hv
    · have hmark := hu.2
      simp only [Function.update_of_ne huv] at hmark
      exact hmark
  · have hmem : v ∈ s.left g := Finset.mem_filter.mpr ⟨Finset.mem_range.mpr hlt, hv⟩
    have hnot := (Finset.mem_filter.mp (hsub hmem)).2
    simp only [Visits.enter, Function.update_self] at hnot
    cases hnot

theorem Visits.Inv.enter {v : Nat} (h : s.Inv g roots stack) (hv : s.mark v = .unvisited) :
    (s.enter v).Inv g roots (v :: stack) where
  done_iff u := by
    unfold Visits.enter
    by_cases huv : u = v
    · subst huv
      simp only [Function.update_self, reduceCtorEq, false_iff]
      rw [← h.done_iff, hv]
      exact Mark.noConfusion
    · simp only [Function.update_of_ne huv]
      exact h.done_iff u
  onStack_iff u := by
    unfold Visits.enter
    by_cases huv : u = v
    · simp [huv]
    · simp only [Function.update_of_ne huv, List.mem_cons, huv, false_or]
      exact h.onStack_iff u
  topological := h.topological
  reached := h.reached

theorem Visits.Inv.leave {v : Nat} (h : s.Inv g roots (v :: stack)) (hv : v ∉ stack)
    (hreached : Reached g.Edge roots v) (hdeps : ∀ w ∈ g.deps v, s.mark w = .done) :
    (s.leave v).Inv g roots stack where
  done_iff u := by
    unfold Visits.leave
    by_cases huv : u = v
    · simp [huv]
    · simp only [Function.update_of_ne huv, List.mem_append, List.mem_singleton, huv, or_false]
      exact h.done_iff u
  onStack_iff u := by
    unfold Visits.leave
    by_cases huv : u = v
    · subst huv
      simp [hv]
    · simp only [Function.update_of_ne huv]
      rw [h.onStack_iff, List.mem_cons, or_iff_right huv]
  topological := by
    apply h.topological.snoc
    · rw [← h.done_iff, (h.onStack_iff v).mpr List.mem_cons_self]
      exact Mark.noConfusion
    · exact fun w hw => (h.done_iff w).mp (hdeps w hw)
  reached u hu := by
    rcases List.mem_append.mp hu with hu | hu
    · exact h.reached u hu
    · rw [List.mem_singleton.mp hu]
      exact hreached

theorem Visits.later_enter {v : Nat} (hv : s.mark v = .unvisited) : s.Later (s.enter v) where
  unvisited u hu := by
    by_cases huv : u = v
    · rw [huv]
      exact hv
    · simp only [Visits.enter, Function.update_of_ne huv] at hu
      exact hu
  done u hu := by
    have huv : u ≠ v := by
      intro heq
      rw [heq, hv] at hu
      cases hu
    simp only [Visits.enter, Function.update_of_ne huv]
    exact hu

theorem Visits.later_leave {v : Nat} (s : Visits) : s.Later (s.leave v) where
  unvisited u hu := by
    by_cases huv : u = v
    · simp [Visits.leave, huv] at hu
    · simp only [Visits.leave, Function.update_of_ne huv] at hu
      exact hu
  done u hu := by
    by_cases huv : u = v
    · simp [Visits.leave, huv]
    · simp only [Visits.leave, Function.update_of_ne huv]
      exact hu

theorem visitEach_spec {next : Nat → Visits → SearchResult Visits} {ws : List Nat}
    (h : s.Inv g roots stack)
    (hws : ∀ w ∈ ws, Reached g.Edge roots w ∧ ∀ u ∈ stack, TransGen g.Edge u w)
    (hnext : ∀ w ∈ ws, ∀ s', s'.Inv g roots stack → s.Later s' → s'.mark w = .unvisited →
      Settles g roots stack [w] s' (next w s')) :
    Settles g roots stack ws s (visitEach next ws s) := by
  induction ws generalizing s with
  | nil => exact .inl ⟨s, rfl, h, .refl s, fun w hw => absurd hw List.not_mem_nil⟩
  | cons w ws ih =>
      have htail : ∀ {t : Visits}, t.Inv g roots stack → s.Later t → t.mark w = .done →
          Settles g roots stack (w :: ws) s (visitEach next ws t) := by
        intro t ht hlater hdone
        rcases ih ht (fun x hx => hws x (List.mem_cons_of_mem w hx))
          (fun x hx t' ht' hlater' => hnext x (List.mem_cons_of_mem w hx) t' ht'
            (hlater.trans hlater')) with ⟨s', hs', hinv, hlater', hall⟩ | hcycle
        · refine .inl ⟨s', hs', hinv, hlater.trans hlater', fun x hx => ?_⟩
          rcases List.mem_cons.mp hx with rfl | hx
          · exact hlater'.done x hdone
          · exact hall x hx
        · exact .inr hcycle
      obtain ⟨hreached, hpaths⟩ := hws w List.mem_cons_self
      unfold visitEach
      cases hmark : s.mark w with
      | onStack =>
          -- An edge back to the stack closes a cycle.
          exact .inr ⟨w, rfl, hreached, hpaths w ((h.onStack_iff w).mp hmark)⟩
      | done => exact htail h (.refl s) hmark
      | unvisited =>
          rcases hnext w List.mem_cons_self s h (.refl s) hmark with
            ⟨t, ht, hinv, hlater, hall⟩ | ⟨x, hx, hcycle⟩
          · simp only [ht]
            exact htail hinv hlater (hall w (List.mem_singleton.mpr rfl))
          · simp only [hx]
            exact .inr ⟨x, rfl, hcycle⟩

theorem visit_spec {fuel v : Nat} (h : s.Inv g roots stack) (hv : s.mark v = .unvisited)
    (hreached : Reached g.Edge roots v) (hpaths : ∀ u ∈ stack, TransGen g.Edge u v)
    (hfuel : (s.left g).card < fuel) :
    Settles g roots stack [v] s (visit g fuel v s) := by
  induction fuel generalizing s v stack with
  | zero => omega
  | succ fuel ih =>
      have hnot : v ∉ stack := by
        rw [← h.onStack_iff, hv]
        exact Mark.noConfusion
      have hchildren : Settles g roots (v :: stack) (g.deps v) (s.enter v)
          (visitEach (visit g fuel) (g.deps v) (s.enter v)) := by
        have hpaths' : ∀ w ∈ g.deps v, ∀ u ∈ v :: stack, TransGen g.Edge u w := by
          intro w hw u hu
          rcases List.mem_cons.mp hu with rfl | hu
          · exact .single hw
          · exact (hpaths u hu).tail hw
        apply visitEach_spec (h.enter hv)
        · exact fun w hw => ⟨hreached.tail hw, hpaths' w hw⟩
        · intro w hw s' hs' hlater hmark
          have hlt := s.left_enter_lt hv (DependencyGraph.lt_of_edge hw)
          have hle := hlater.left_le (g := g)
          exact ih hs' hmark (hreached.tail hw) (hpaths' w hw) (by omega)
      unfold visit
      rcases hchildren with ⟨t, ht, hinv, hlater, hall⟩ | ⟨w, hw, hcycle⟩
      · rw [Visits.enter] at ht
        simp only [ht]
        refine .inl ⟨t.leave v, rfl, hinv.leave hnot hreached hall, ?_, fun w hw => ?_⟩
        · exact ((Visits.later_enter hv).trans hlater).trans t.later_leave
        · rw [List.mem_singleton.mp hw]
          exact Function.update_self _ _ _
      · rw [Visits.enter] at hw
        simp only [hw]
        exact .inr ⟨w, rfl, hcycle⟩

theorem visitRoots_spec {vs : List Nat} (h : s.Inv g roots []) (hvs : ∀ v ∈ vs, v ∈ roots) :
    Settles g roots [] vs s (visitRoots g vs s) := by
  induction vs generalizing s with
  | nil => exact .inl ⟨s, rfl, h, .refl s, fun w hw => absurd hw List.not_mem_nil⟩
  | cons v vs ih =>
      have htail : ∀ {t : Visits}, t.Inv g roots [] → s.Later t → t.mark v = .done →
          Settles g roots [] (v :: vs) s (visitRoots g vs t) := by
        intro t ht hlater hdone
        rcases ih ht (fun x hx => hvs x (List.mem_cons_of_mem v hx)) with
          ⟨s', hs', hinv, hlater', hall⟩ | hcycle
        · refine .inl ⟨s', hs', hinv, hlater.trans hlater', fun x hx => ?_⟩
          rcases List.mem_cons.mp hx with rfl | hx
          · exact hlater'.done x hdone
          · exact hall x hx
        · exact .inr hcycle
      unfold visitRoots
      cases hmark : s.mark v with
      | onStack => exact absurd ((h.onStack_iff v).mp hmark) List.not_mem_nil
      | done => exact htail h (.refl s) hmark
      | unvisited =>
          have hleft : (s.left g).card < g.length + 1 := by
            have hle := Finset.card_filter_le (Finset.range g.length)
              fun u => s.mark u = .unvisited
            rw [Finset.card_range] at hle
            unfold Visits.left
            omega
          have hroot : Reached g.Edge roots v := .root (hvs v List.mem_cons_self)
          rcases visit_spec h hmark hroot (fun u hu => absurd hu List.not_mem_nil) hleft with
            ⟨t, ht, hinv, hlater, hall⟩ | ⟨x, hx, hcycle⟩
          · simp only [ht]
            exact htail hinv hlater (hall v (List.mem_singleton.mpr rfl))
          · simp only [hx]
            exact .inr ⟨x, rfl, hcycle⟩

/-- The build order holds exactly the reached nodes, each once and after its
dependencies; an error is at a reached node on a cycle. -/
theorem buildOrder_spec (g : DependencyGraph) (roots : List Nat) :
    (∃ order, buildOrder g roots = some (.ok order) ∧ Topological g.Edge order ∧
      ∀ u, u ∈ order ↔ Reached g.Edge roots u) ∨
    ∃ w, buildOrder g roots = some (.error w) ∧ Reached g.Edge roots w ∧ TransGen g.Edge w w := by
  have hstart : (⟨fun _ => .unvisited, []⟩ : Visits).Inv g roots [] :=
    ⟨by simp, by simp, .nil, by simp⟩
  unfold buildOrder
  rcases visitRoots_spec hstart (fun v hv => hv) with ⟨s, hs, hinv, -, hall⟩ | ⟨w, hw, hcycle⟩
  · rw [hs]
    refine .inl ⟨s.order, rfl, hinv.topological, fun u => ⟨hinv.reached u, ?_⟩⟩
    rintro ⟨r, hr, hpath⟩
    exact hinv.topological.mem_of_path ((hinv.done_iff r).mp (hall r hr)) hpath
  · rw [hw]
    exact .inr ⟨w, rfl, hcycle⟩

end Improv.Engine
