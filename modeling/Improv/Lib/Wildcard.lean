import Mathlib.Data.List.Infix
import Mathlib.Tactic.Common
/-!
# Wildcard patterns

A pattern of literals, single wildcards and runs, and what it matches.  A
matcher that only ever goes back to the last run it met loses nothing: what an
earlier run could still take, the last one can.
-/

namespace Improv.Lib.Wildcard

/-- One part of a pattern: a literal, any one element, or any run of them. -/
inductive Pat (α : Type)
  | lit (c : α)
  | one
  | many
deriving DecidableEq

variable {α : Type} {fin : List α → Prop} {p q : List (Pat α)} {s t u : List α}

/-- A pattern matches the start of a list, and what is left ends it. -/
def Matches (fin : List α → Prop) : List (Pat α) → List α → Prop
  | [], s => fin s
  | .lit c :: p, s => ∃ r, s = c :: r ∧ Matches fin p r
  | .one :: p, s => ∃ c r, s = c :: r ∧ Matches fin p r
  | .many :: p, s => ∃ r, r <:+ s ∧ Matches fin p r

/-- The whole list is matched. -/
abbrev Whole : List (Pat α) → List α → Prop := Matches (· = [])

/-- Some start of the list is matched. -/
abbrev Start : List (Pat α) → List α → Prop := Matches fun _ => True

theorem start_iff : Start p s ↔ ∃ u, u <+: s ∧ Whole p u := by
  induction p generalizing s with
  | nil =>
      constructor
      · intro _
        exact ⟨[], List.nil_prefix, rfl⟩
      · intro _
        trivial
  | cons x p ih =>
      cases x with
      | lit c =>
          constructor
          · intro ⟨r, hs, hr⟩
            obtain ⟨u, hu, hp⟩ := ih.mp hr
            exact ⟨c :: u, hs ▸ List.cons_prefix_cons.mpr ⟨rfl, hu⟩, u, rfl, hp⟩
          · intro ⟨u, hu, r, hur, hp⟩
            obtain ⟨v, hv⟩ := hu
            exact ⟨r ++ v, by rw [← hv, hur, List.cons_append],
              ih.mpr ⟨r, List.prefix_append r v, hp⟩⟩
      | one =>
          constructor
          · intro ⟨c, r, hs, hr⟩
            obtain ⟨u, hu, hp⟩ := ih.mp hr
            exact ⟨c :: u, hs ▸ List.cons_prefix_cons.mpr ⟨rfl, hu⟩, c, u, rfl, hp⟩
          · intro ⟨u, hu, c, r, hur, hp⟩
            obtain ⟨v, hv⟩ := hu
            exact ⟨c, r ++ v, by rw [← hv, hur, List.cons_append],
              ih.mpr ⟨r, List.prefix_append r v, hp⟩⟩
      | many =>
          constructor
          · intro ⟨r, hr, hm⟩
            obtain ⟨u, hu, hp⟩ := ih.mp hm
            obtain ⟨v, hv⟩ := hr
            exact ⟨v ++ u, hv ▸ (List.prefix_append_right_inj v).mpr hu, u,
              List.suffix_append v u, hp⟩
          · intro ⟨u, hu, r, hr, hp⟩
            obtain ⟨v, hv⟩ := hr
            obtain ⟨w, hw⟩ := hu
            refine ⟨r ++ w, ⟨v, ?_⟩, ih.mpr ⟨r, List.prefix_append r w, hp⟩⟩
            rw [← List.append_assoc, hv, hw]

/-- A run after a pattern takes whatever the pattern leaves. -/
theorem whole_append_many : Whole (p ++ [.many]) s ↔ ∃ u, u <+: s ∧ Whole p u := by
  rw [← start_iff]
  induction p generalizing s with
  | nil =>
      constructor
      · intro _
        trivial
      · intro _
        exact ⟨[], List.nil_suffix, rfl⟩
  | cons x p ih =>
      cases x with
      | lit c => exact exists_congr fun r => and_congr_right fun _ => ih
      | one => exact exists_congr fun c => exists_congr fun r => and_congr_right fun _ => ih
      | many => exact exists_congr fun r => and_congr_right fun _ => ih

/-! ## The parts between two runs -/

/-- What is left of a list after a part that is no run. -/
def Pat.consume [DecidableEq α] : Pat α → List α → Option (List α)
  | .lit c, d :: s => if d = c then some s else none
  | .one, _ :: s => some s
  | _, _ => none

/-- A part that is no run takes one element, or nothing is matched. -/
theorem matches_cons_iff [DecidableEq α] {x : Pat α} (hx : x ≠ .many) :
    Matches fin (x :: p) s ↔ ∃ r, x.consume s = some r ∧ Matches fin p r := by
  cases x with
  | many => exact absurd rfl hx
  | one =>
      cases s with
      | nil => simp [Matches, Pat.consume]
      | cons d s => simp [Matches, Pat.consume]
  | lit c =>
      cases s with
      | nil => simp [Matches, Pat.consume]
      | cons d s =>
          by_cases hd : d = c
          · simp [Matches, Pat.consume, hd]
          · simp [Matches, Pat.consume, hd]

theorem consume_eq_some [DecidableEq α] {x : Pat α} {r : List α} (h : x.consume s = some r) :
    ∃ d, s = d :: r := by
  cases s with
  | nil => cases x <;> simp [Pat.consume] at h
  | cons d s =>
      cases x with
      | lit c =>
          change (if d = c then some s else none) = some r at h
          split at h
          · exact ⟨d, by rw [Option.some.inj h]⟩
          · cases h
      | one => exact ⟨d, congrArg (d :: ·) (Option.some.inj h)⟩
      | many => cases h

/-- Parts without a run take one element each. -/
theorem Matches.of_append (hq : ∀ x ∈ q, x ≠ .many) (h : Matches fin (q ++ p) s) :
    q.length ≤ s.length ∧ Matches fin p (s.drop q.length) := by
  induction q generalizing s with
  | nil => exact ⟨Nat.zero_le _, h⟩
  | cons x q ih =>
      have htail : ∀ y ∈ q, y ≠ .many := fun y hy => hq y (List.mem_cons_of_mem x hy)
      cases x with
      | many => exact absurd rfl (hq .many List.mem_cons_self)
      | lit c =>
          obtain ⟨r, rfl, hr⟩ := h
          obtain ⟨hlen, hrest⟩ := ih htail hr
          exact ⟨Nat.succ_le_succ hlen, hrest⟩
      | one =>
          obtain ⟨c, r, rfl, hr⟩ := h
          obtain ⟨hlen, hrest⟩ := ih htail hr
          exact ⟨Nat.succ_le_succ hlen, hrest⟩

/-! ## Going back to the last run -/

/-- Where a matcher stands after its last run: since the pattern `sp` and the
list `ss` were next, only parts that take one element have been passed. -/
structure Since (sp : List (Pat α)) (ss : List α) (p : List (Pat α)) (s : List α) : Prop where
  passed : ∃ q u, (∀ x ∈ q, x ≠ .many) ∧ sp = q ++ p ∧ ss = u ++ s ∧ u.length = q.length

/-- The last run takes at least one more element. -/
def Later (fin : List α → Prop) (sp : List (Pat α)) (ss : List α) : Prop :=
  ∃ c rest r, ss = c :: rest ∧ r <:+ rest ∧ Matches fin sp r

theorem since_self (p : List (Pat α)) (s : List α) : Since p s p s where
  passed := ⟨[], [], by simp, rfl, rfl, rfl⟩

namespace Since

variable {sp : List (Pat α)} {ss : List α}

theorem pass {x : Pat α} {d : α} (h : Since sp ss (x :: p) (d :: s)) (hx : x ≠ .many) :
    Since sp ss p s where
  passed := by
    obtain ⟨q, u, hq, hsp, hss, hlen⟩ := h.passed
    refine ⟨q ++ [x], u ++ [d], ?_, by simp [hsp], by simp [hss], by simp [hlen]⟩
    intro y hy
    cases List.mem_append.mp hy with
    | inl hmem => exact hq y hmem
    | inr hmem =>
        rw [List.mem_singleton.mp hmem]
        exact hx

/-- What an earlier run could take, a run met since can. -/
theorem later_many (h : Since sp ss (.many :: p) s) (hlater : Later fin sp ss) :
    Matches fin (.many :: p) s := by
  obtain ⟨q, u, hq, hsp, hss, hlen⟩ := h.passed
  obtain ⟨c, rest, r, hcons, hr, hm⟩ := hlater
  rw [hsp] at hm
  obtain ⟨-, r', hr', hm'⟩ := Matches.of_append hq hm
  refine ⟨r', hr'.trans ?_, hm'⟩
  have hr : r <:+ ss := hcons ▸ hr.trans (List.suffix_cons c rest)
  have hs : s <:+ ss := hss ▸ List.suffix_append u s
  apply List.suffix_of_suffix_length_le ((List.drop_suffix _ r).trans hr) hs
  have hle := hr.length_le
  rw [hss, List.length_append] at hle
  rw [List.length_drop]
  omega

/-- At the end of the list no run can take more. -/
theorem not_later_nil (h : Since sp ss p []) : ¬Later fin sp ss := by
  intro ⟨c, rest, r, hcons, hr, hm⟩
  obtain ⟨q, u, hq, hsp, hss, hlen⟩ := h.passed
  rw [hsp] at hm
  have hle := (Matches.of_append hq hm).1
  have hrest := hr.length_le
  rw [List.append_nil] at hss
  rw [hss] at hcons
  have hu := congrArg List.length hcons
  rw [List.length_cons] at hu
  omega

end Since

/-- Going back one element of the last run. -/
theorem later_cons {sp : List (Pat α)} {c : α} {ss : List α} :
    Later fin sp (c :: ss) ↔ Matches fin sp ss ∨ Later fin sp ss := by
  constructor
  · intro ⟨d, rest, r, hcons, hr, hm⟩
    obtain ⟨-, rfl⟩ := List.cons.inj hcons
    cases ss with
    | nil =>
        rw [List.suffix_nil.mp hr] at hm
        exact Or.inl hm
    | cons e ss =>
        cases List.suffix_cons_iff.mp hr with
        | inl heq => exact Or.inl (heq ▸ hm)
        | inr hsuffix => exact Or.inr ⟨e, ss, r, rfl, hsuffix, hm⟩
  · intro h
    cases h with
    | inl hm => exact ⟨c, ss, ss, rfl, List.suffix_refl ss, hm⟩
    | inr hlater =>
        obtain ⟨d, rest, r, rfl, hr, hm⟩ := hlater
        exact ⟨c, d :: rest, r, rfl, hr.trans (List.suffix_cons d rest), hm⟩

theorem not_later_empty {sp : List (Pat α)} : ¬Later fin sp ([] : List α) := by
  intro ⟨_, _, _, hcons, _⟩
  cases hcons

end Improv.Lib.Wildcard
