import Mathlib.Data.List.Nodup
import Mathlib.Logic.Relation
/-!
# Topological orders

An order of the nodes of a graph in which each node stands once, after every
node it points to.  Such an order is closed under edges, and no node of it lies
on a cycle.
-/

namespace Improv.Lib

open Relation

variable {α β : Type*}

/-- Each node once, after every node it points to. -/
structure Topological (edge : α → α → Prop) (order : List α) : Prop where
  nodup : order.Nodup
  after : ∀ {pre post : List α} {a b : α}, order = pre ++ a :: post → edge a b → b ∈ pre

/-- The nodes some root leads to. -/
def Reached (edge : α → α → Prop) (roots : List α) (a : α) : Prop :=
  ∃ r ∈ roots, ReflTransGen edge r a

variable {edge : α → α → Prop} {roots : List α}

theorem Reached.root {a : α} (h : a ∈ roots) : Reached edge roots a := ⟨a, h, .refl⟩

theorem Reached.tail {a b : α} (h : Reached edge roots a) (hedge : edge a b) :
    Reached edge roots b := by
  obtain ⟨r, hr, hpath⟩ := h
  exact ⟨r, hr, hpath.tail hedge⟩

namespace Topological

theorem nil : Topological edge ([] : List α) where
  nodup := List.nodup_nil
  after h _ := by simp at h

theorem snoc {order : List α} {a : α} (h : Topological edge order) (ha : a ∉ order)
    (hafter : ∀ b, edge a b → b ∈ order) : Topological edge (order ++ [a]) where
  nodup := List.nodup_append.mpr ⟨h.nodup, List.nodup_singleton a, by
    intro b hb c hc heq
    rw [List.mem_singleton] at hc
    exact ha (hc ▸ heq ▸ hb)⟩
  after := by
    intro pre post b c heq hedge
    rcases List.eq_nil_or_concat post with rfl | ⟨post, last, rfl⟩
    · have hlast := List.append_inj' heq rfl
      have hab : a = b := List.singleton_inj.mp hlast.2
      rw [← hlast.1]
      exact hafter c (hab ▸ hedge)
    · have hsplit : order ++ [a] = (pre ++ b :: post) ++ [last] := by
        rw [heq]
        simp
      exact h.after (List.append_inj' hsplit rfl).1 hedge

theorem mem_of_edge {order : List α} (h : Topological edge order) {a b : α} (ha : a ∈ order)
    (hedge : edge a b) : b ∈ order := by
  obtain ⟨pre, post, rfl⟩ := List.append_of_mem ha
  exact List.mem_append_left _ (h.after rfl hedge)

theorem mem_of_path {order : List α} (h : Topological edge order) {a b : α} (ha : a ∈ order)
    (hpath : ReflTransGen edge a b) : b ∈ order := by
  induction hpath with
  | refl => exact ha
  | tail _ hedge ih => exact h.mem_of_edge ih hedge

theorem idxOf_lt [DecidableEq α] {order : List α} (h : Topological edge order) {a b : α}
    (ha : a ∈ order) (hpath : TransGen edge a b) : order.idxOf b < order.idxOf a := by
  have hstep : ∀ {a b}, a ∈ order → edge a b → order.idxOf b < order.idxOf a := by
    intro a b ha hedge
    obtain ⟨pre, post, horder⟩ := List.append_of_mem ha
    have hb := h.after horder hedge
    have hnodup := h.nodup
    rw [horder, List.nodup_append] at hnodup
    have hnot : a ∉ pre := fun hpre => hnodup.2.2 a hpre a List.mem_cons_self rfl
    have hat : order.idxOf a = pre.length := by
      rw [horder, List.idxOf_append_of_notMem hnot, List.idxOf_cons_self]
      omega
    have hbelow : order.idxOf b < pre.length := by
      rw [horder, List.idxOf_append_of_mem hb]
      exact List.idxOf_lt_length_iff.mpr hb
    omega
  induction hpath with
  | single hedge => exact hstep ha hedge
  | tail hpath hedge ih =>
      have hlast := hstep (h.mem_of_path ha hpath.to_reflTransGen) hedge
      omega

/-- No node of the order lies on a cycle. -/
theorem acyclic {order : List α} (h : Topological edge order) {a : α} (ha : a ∈ order) :
    ¬TransGen edge a a := by
  classical
  intro hcycle
  have hlt := h.idxOf_lt ha hcycle
  omega

/-- An order of nodes is one of their images, where edges between them are edges
of the images. -/
theorem map {f : α → β} {edge' : β → β → Prop} {order : List α} (h : Topological edge order)
    (hinj : ∀ a ∈ order, ∀ b ∈ order, f a = f b → a = b)
    (hedge : ∀ a ∈ order, ∀ y, edge' (f a) y → ∃ b, edge a b ∧ f b = y) :
    Topological edge' (order.map f) where
  nodup := (List.nodup_map_iff_inj_on h.nodup).mpr hinj
  after := by
    intro pre post x y heq hxy
    obtain ⟨pre', rest, rfl, rfl, hrest⟩ := List.map_eq_append_iff.mp heq
    obtain ⟨a, post', rfl, rfl, -⟩ := List.map_eq_cons_iff.mp hrest
    have ha : a ∈ pre' ++ a :: post' := List.mem_append_right _ List.mem_cons_self
    obtain ⟨b, hb, rfl⟩ := hedge a ha y hxy
    exact List.mem_map_of_mem (h.after rfl hb)

end Topological

end Improv.Lib
