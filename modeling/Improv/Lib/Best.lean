import Mathlib.Data.List.Basic
import Mathlib.Tactic.Common
/-!
# The best of some values

The value of a list that no other beats, for a comparison under which any two
values that do not beat each other are one.
-/

namespace Improv.Lib

variable {α : Type*} {r : α → α → Bool} {as bs : List α} {a b : α}

/-- One value beats another in a strict order that compares any two. -/
structure Beats (r : α → α → Bool) : Prop where
  asymm : ∀ a b, r a b = true → r b a = false
  trans : ∀ a b c, r a b = false → r b c = false → r a c = false
  eq : ∀ a b, r a b = false → r b a = false → a = b

/-- The better of a value and the best so far. -/
def better (r : α → α → Bool) (b a : α) : α := if r a b then a else b

/-- The best of some values, the earlier of two that tie. -/
def best (r : α → α → Bool) : List α → Option α
  | [] => none
  | a :: as => some (as.foldl (better r) a)

/-- A value of the list that none of the others beats. -/
def IsBest (r : α → α → Bool) (as : List α) (b : α) : Prop := b ∈ as ∧ ∀ a ∈ as, r a b = false

namespace Beats

theorem irrefl (h : Beats r) (a : α) : r a a = false := by
  by_contra hne
  have htrue : r a a = true := by simpa using hne
  rw [h.asymm a a htrue] at htrue
  cases htrue

theorem isBest_foldl (h : Beats r) (a : α) (as : List α) :
    IsBest r (a :: as) (as.foldl (better r) a) := by
  induction as generalizing a with
  | nil => exact ⟨List.mem_singleton_self a, fun x hx => by
      rw [List.mem_singleton.mp hx]
      exact h.irrefl a⟩
  | cons c as ih =>
      rw [List.foldl_cons]
      have hbest := ih (better r a c)
      have hfirst : r a (better r a c) = false ∧ r c (better r a c) = false := by
        unfold better
        by_cases hc : r c a = true
        · rw [if_pos hc]
          exact ⟨h.asymm c a hc, h.irrefl c⟩
        · rw [if_neg hc]
          exact ⟨h.irrefl a, by simpa using hc⟩
      have hlast := hbest.2 (better r a c) List.mem_cons_self
      constructor
      · rcases List.mem_cons.mp hbest.1 with heq | hmem
        · rw [heq]
          unfold better
          split <;> simp
        · exact List.mem_cons_of_mem a (List.mem_cons_of_mem c hmem)
      · intro x hx
        rcases List.mem_cons.mp hx with rfl | hx
        · exact h.trans _ _ _ hfirst.1 hlast
        · rcases List.mem_cons.mp hx with rfl | hx
          · exact h.trans _ _ _ hfirst.2 hlast
          · exact hbest.2 x (List.mem_cons_of_mem _ hx)

theorem isBest_unique (h : Beats r) (ha : IsBest r as a) (hb : IsBest r as b) : a = b :=
  h.eq a b (hb.2 a ha.1) (ha.2 b hb.1)

theorem best_eq_some_iff (h : Beats r) : best r as = some b ↔ IsBest r as b := by
  cases as with
  | nil => exact ⟨fun hnone => (by cases hnone), fun hbest => (by cases hbest.1)⟩
  | cons a as =>
      have hbest := h.isBest_foldl a as
      unfold best
      rw [Option.some.injEq]
      constructor
      · intro heq
        rw [← heq]
        exact hbest
      · intro hb
        exact h.isBest_unique hbest hb

/-- The best of some values is that of any others with the same members. -/
theorem best_congr (h : Beats r) (hsame : ∀ a, a ∈ as ↔ a ∈ bs) : best r as = best r bs := by
  ext b
  rw [h.best_eq_some_iff, h.best_eq_some_iff]
  unfold IsBest
  simp only [hsame]

/-! ## Comparisons -/

theorem swap_eq (c : α → α → Ordering) [Std.OrientedCmp c] (a b : α) :
    c a b = (c b a).swap := Std.OrientedCmp.eq_swap

variable {c : α → α → Ordering} [Std.TransCmp c] [Std.LawfulEqCmp c]

theorem of_lt : Beats fun a b => (c a b).isLT where
  asymm := by
    intro a b h
    rw [swap_eq c b a, Ordering.isLT_swap]
    cases hab : c a b <;> simp_all
  trans := by
    intro a b d hab hbd
    have hba : (c b a).isLE = true := by
      rw [swap_eq c b a]
      cases h : c a b <;> simp_all
    have hdb : (c d b).isLE = true := by
      rw [swap_eq c d b]
      cases h : c b d <;> simp_all
    have hda := Std.TransCmp.isLE_trans hdb hba
    rw [swap_eq c a d]
    cases h : c d a <;> simp_all
  eq := by
    intro a b hab hba
    rw [swap_eq c b a] at hba
    have heq : c a b = .eq := by cases h : c a b <;> simp_all
    exact Std.LawfulEqCmp.eq_of_compare heq

theorem of_gt : Beats fun a b => (c a b).isGT := by
  have hswap : (fun a b => (c a b).isGT) = fun a b => (c b a).isLT := by
    ext a b
    rw [swap_eq c a b, Ordering.isGT_swap]
  have hlt : Beats fun a b => (c a b).isLT := of_lt
  rw [hswap]
  exact ⟨fun a b => hlt.asymm b a, fun a b d hab hbd => hlt.trans d b a hbd hab,
    fun a b hab hba => hlt.eq a b hba hab⟩

end Beats

end Improv.Lib
