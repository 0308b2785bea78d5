import Mathlib.Data.List.Basic
import Mathlib.Logic.Relation
/-!
# Work-list walks of a graph

A walk takes the node pushed last, skips it when it was seen, and otherwise
visits it and pushes its successors.  A walk from a node visits exactly the
nodes reachable from it, each once, whatever it accumulates on its visits.
-/

namespace Improv.Lib

open Relation

/-- A graph by the nodes each node pushes; only finitely many push any. -/
structure Graph (α : Type*) where
  next : α → List α
  support : List α
  next_eq_nil : ∀ a, a ∉ support → next a = []

namespace Graph

variable {α σ : Type*} [DecidableEq α] (g : Graph α)

def Edge (a b : α) : Prop := b ∈ g.next a

/-- The nodes with successors that are not seen yet. -/
def unseen (seen : List α) : List α := g.support.filter fun a => a ∉ seen

theorem length_unseen_cons_le (a : α) (seen : List α) :
    (g.unseen (a :: seen)).length ≤ (g.unseen seen).length := by
  unfold unseen
  apply List.Sublist.length_le
  apply List.monotone_filter_right
  intro b hb
  simp only [List.mem_cons, not_or, decide_eq_true_eq] at hb ⊢
  exact hb.2

theorem length_unseen_cons_lt {a : α} {seen : List α} (ha : a ∉ seen)
    (hsupport : a ∈ g.support) :
    (g.unseen (a :: seen)).length < (g.unseen seen).length := by
  have hsub : (g.unseen (a :: seen)) = (g.unseen seen).filter fun b => b ≠ a := by
    unfold unseen
    rw [List.filter_filter]
    apply List.filter_congr
    intro b _
    simp
  have hmem : a ∈ g.unseen seen := by simp [unseen, ha, hsupport]
  rw [hsub]
  exact List.length_filter_lt_length_iff_exists.mpr ⟨a, hmem, by simp⟩

/-- The nodes still to visit after visiting `a`. -/
def push (a : α) (todo : List α) : List α := (g.next a).reverse ++ todo

/-- The walk from the nodes still to visit, given those seen. -/
def walk (visit : σ → α → σ) (todo seen : List α) (s : σ) : σ :=
  match todo with
  | [] => s
  | a :: todo =>
    if a ∈ seen then walk visit todo seen s
    else walk visit (g.push a todo) (a :: seen) (visit s a)
termination_by ((g.unseen seen).length, todo.length)
decreasing_by
  · exact Prod.Lex.right _ (by simp)
  · next ha =>
      by_cases hsupport : a ∈ g.support
      · exact Prod.Lex.left _ _ (g.length_unseen_cons_lt ha hsupport)
      · rw [push, g.next_eq_nil a hsupport, Prod.lex_def]
        have hle := g.length_unseen_cons_le a seen
        simp only [List.reverse_nil, List.nil_append, List.length_cons]
        omega

/-- What `all` is to a walk from `todo` that has seen `seen`: it holds both, is
closed under successors beyond `seen`, and holds nothing unreached. -/
structure Covers (todo seen all : List α) : Prop where
  holds_seen : ∀ a ∈ seen, a ∈ all
  holds_todo : ∀ a ∈ todo, a ∈ all
  closed : ∀ a ∈ all, a ∉ seen → ∀ b, g.Edge a b → b ∈ all
  reached : ∀ a ∈ all, a ∈ seen ∨ ∃ t ∈ todo, ReflTransGen g.Edge t a

variable {g}

omit [DecidableEq α] in
theorem Covers.skip {a : α} {todo seen all : List α} (ha : a ∈ seen)
    (h : g.Covers todo seen all) : g.Covers (a :: todo) seen all where
  holds_seen := h.holds_seen
  holds_todo := by
    intro b hb
    rcases List.mem_cons.mp hb with rfl | hb
    · exact h.holds_seen b ha
    · exact h.holds_todo b hb
  closed := h.closed
  reached := by
    intro b hb
    rcases h.reached b hb with hseen | ⟨t, ht, hpath⟩
    · exact .inl hseen
    · exact .inr ⟨t, List.mem_cons_of_mem a ht, hpath⟩

theorem Covers.visit {a : α} {todo seen all : List α}
    (h : g.Covers (g.push a todo) (a :: seen) all) :
    g.Covers (a :: todo) seen all where
  holds_seen := fun b hb => h.holds_seen b (List.mem_cons_of_mem a hb)
  holds_todo := by
    intro b hb
    rcases List.mem_cons.mp hb with rfl | hb
    · exact h.holds_seen b List.mem_cons_self
    · exact h.holds_todo b (List.mem_append_right _ hb)
  closed := by
    intro b hb hnew c hc
    by_cases hba : b = a
    · subst hba
      exact h.holds_todo c (List.mem_append_left _ (List.mem_reverse.mpr hc))
    · exact h.closed b hb (by simp [hba, hnew]) c hc
  reached := by
    intro b hb
    rcases h.reached b hb with hseen | ⟨t, ht, hpath⟩
    · rcases List.mem_cons.mp hseen with rfl | hseen
      · exact .inr ⟨b, List.mem_cons_self, .refl⟩
      · exact .inl hseen
    · rcases List.mem_append.mp ht with ht | ht
      · exact .inr ⟨a, List.mem_cons_self, .head (List.mem_reverse.mp ht) hpath⟩
      · exact .inr ⟨t, List.mem_cons_of_mem a ht, hpath⟩

/-- The walk rule: what a visit keeps of the nodes visited and the state holds
at the end, of nodes that cover the walk. -/
theorem walk_spec {visit : σ → α → σ} {P : List α → σ → Prop}
    (hvisit : ∀ seen s a, P seen s → P (a :: seen) (visit s a))
    (todo seen : List α) (s : σ) (h : P seen s) :
    ∃ all, P all (g.walk visit todo seen s) ∧ g.Covers todo seen all := by
  fun_induction walk g visit todo seen s with
  | case1 seen s =>
      refine ⟨seen, h, fun _ ha => ha, by simp, fun a ha hnew => absurd ha hnew, ?_⟩
      exact fun a ha => .inl ha
  | case2 seen s a todo ha ih =>
      obtain ⟨all, hall, hcovers⟩ := ih h
      exact ⟨all, hall, hcovers.skip ha⟩
  | case3 seen s a todo ha ih =>
      obtain ⟨all, hall, hcovers⟩ := ih (hvisit seen s a h)
      exact ⟨all, hall, hcovers.visit⟩

/-- A walk from one node visits exactly what is reachable from it. -/
theorem walk_from {visit : σ → α → σ} {P : List α → σ → Prop}
    (hvisit : ∀ seen s a, P seen s → P (a :: seen) (visit s a)) (start : α) (s : σ)
    (h : P [] s) :
    ∃ all, P all (g.walk visit [start] [] s) ∧ ∀ a, a ∈ all ↔ ReflTransGen g.Edge start a := by
  obtain ⟨all, hall, hcovers⟩ := walk_spec (g := g) hvisit [start] [] s h
  refine ⟨all, hall, fun a => ⟨fun ha => ?_, fun hpath => ?_⟩⟩
  · rcases hcovers.reached a ha with hseen | ⟨t, ht, hpath⟩
    · exact absurd hseen List.not_mem_nil
    · rwa [List.mem_singleton.mp ht] at hpath
  · induction hpath with
    | refl => exact hcovers.holds_todo start (List.mem_singleton.mpr rfl)
    | tail _ hedge ih => exact hcovers.closed _ ih List.not_mem_nil _ hedge

end Graph

end Improv.Lib
