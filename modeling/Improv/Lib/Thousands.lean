import Mathlib.Data.List.Basic
import Mathlib.Data.List.Count
import Mathlib.Data.List.TakeWhile
/-!
# Separators between thousands

A list whose digits are told by a predicate, with a separator before each digit
but the first that full groups of three end at.  Counting more elements as
digits moves the separators, except in a few short lists.
-/

namespace Improv.Lib.Thousands

variable {α β : Type*}

/-- A separator is due before an element: a digit came before it, and it and the
digits after it are full groups. -/
def Due (p : α → Bool) (seen : Bool) (a : α) (as : List α) : Prop :=
  p a = true ∧ seen = true ∧ (as.countP p + 1) % 3 = 0

instance (p : α → Bool) (seen : Bool) (a : α) (as : List α) : Decidable (Due p seen a as) :=
  inferInstanceAs (Decidable (_ ∧ _ ∧ _))

/-- A list with its separators, after some digit or none. -/
def withSeparators (sep : β) (f : α → β) (p : α → Bool) : Bool → List α → List β
  | _, [] => []
  | seen, a :: as =>
    if Due p seen a as then sep :: f a :: withSeparators sep f p (seen || p a) as
    else f a :: withSeparators sep f p (seen || p a) as

/-- Two ways of counting have their separators due at the same elements. -/
def Agree (p q : α → Bool) : Bool → Bool → List α → Prop
  | _, _, [] => True
  | s, t, a :: as => (Due p s a as ↔ Due q t a as) ∧ Agree p q (s || p a) (t || q a) as

/-- An element that only the first way counts. -/
def extra (p q : α → Bool) (a : α) : Bool := p a && !q a

/-- The digits after the last extra one. -/
def tail (p q : α → Bool) (l : List α) : Nat :=
  (l.reverse.takeWhile fun a => !extra p q a).countP q

/-- There is no extra digit; or all digits are within the group of three that the
last extra one begins, and it does not begin a group of its own before the
others. -/
def Regular (p q : α → Bool) (l : List α) : Prop :=
  l.countP (extra p q) = 0 ∨
    l.countP p ≤ 3 * (tail p q l / 3 + 1) ∧
      ¬(l.countP q = tail p q l ∧ 0 < tail p q l ∧ tail p q l % 3 = 0)

instance (p q : α → Bool) (l : List α) : Decidable (Regular p q l) :=
  inferInstanceAs (Decidable (_ ∨ _ ∧ ¬_))

variable {p q : α → Bool}

/-! ## Separators that agree -/

theorem withSeparators_eq_iff {sep : β} {f : α → β} (hqp : ∀ a, q a = true → p a = true)
    (hsep : ∀ a, p a = true → f a ≠ sep) {l : List α} {s t : Bool} :
    withSeparators sep f p s l = withSeparators sep f q t l ↔ Agree p q s t l := by
  induction l generalizing s t with
  | nil => exact ⟨fun _ => trivial, fun _ => rfl⟩
  | cons a as ih =>
      unfold withSeparators Agree
      by_cases hp : Due p s a as
      · rw [if_pos hp]
        by_cases hq : Due q t a as
        · rw [if_pos hq, List.cons.injEq, List.cons.injEq, ih]
          exact ⟨fun h => ⟨⟨fun _ => hq, fun _ => hp⟩, h.2.2⟩, fun h => ⟨rfl, rfl, h.2⟩⟩
        · rw [if_neg hq, List.cons.injEq]
          exact ⟨fun h => absurd h.1.symm (hsep a hp.1), fun h => absurd (h.1.mp hp) hq⟩
      · rw [if_neg hp]
        by_cases hq : Due q t a as
        · rw [if_pos hq, List.cons.injEq]
          exact ⟨fun h => absurd h.1 (hsep a (hqp a hq.1)), fun h => absurd (h.1.mpr hq) hp⟩
        · rw [if_neg hq, List.cons.injEq, ih]
          exact ⟨fun h => ⟨⟨fun h => absurd h hp, fun h => absurd h hq⟩, h.2⟩,
            fun h => ⟨rfl, h.2⟩⟩

/-! ## Counting -/

theorem countP_eq_add (hqp : ∀ a, q a = true → p a = true) (l : List α) :
    l.countP p = l.countP q + l.countP (extra p q) := by
  induction l with
  | nil => rfl
  | cons a as ih =>
      rw [List.countP_cons, List.countP_cons, List.countP_cons, ih]
      have ha := hqp a
      unfold extra
      cases hp : p a <;> cases hq : q a <;> simp_all <;> omega

theorem tail_of_extra {a : α} {as : List α} (h : 0 < as.countP (extra p q)) :
    tail p q (a :: as) = tail p q as := by
  obtain ⟨b, hb, hextra⟩ := List.countP_pos_iff.mp h
  unfold tail
  rw [List.reverse_cons, List.takeWhile_append, if_neg]
  intro hall
  have htake := List.takeWhile_eq_self_iff.mp
    ((List.takeWhile_prefix _).eq_of_length hall) b (List.mem_reverse.mpr hb)
  rw [hextra] at htake
  cases htake

theorem tail_cons {a : α} {as : List α} (h : as.countP (extra p q) = 0)
    (ha : extra p q a = true) : tail p q (a :: as) = as.countP q := by
  unfold tail
  have hall : as.reverse.takeWhile (fun b => !extra p q b) = as.reverse := by
    rw [List.takeWhile_eq_self_iff]
    intro b hb
    rw [List.countP_eq_zero] at h
    simpa using h b (List.mem_reverse.mp hb)
  rw [List.reverse_cons, List.takeWhile_append, if_pos (by rw [hall]),
    List.takeWhile_cons_of_neg (by simpa using ha), List.append_nil, List.countP_reverse]

theorem tail_le (l : List α) : tail p q l ≤ l.countP q := by
  unfold tail
  rw [← List.countP_reverse (l := l)]
  exact (List.takeWhile_sublist _).countP_le

/-! ## When separators agree -/

/-- As `Regular`, after some digits or none. -/
def RegularAfter (p q : α → Bool) (s t : Bool) (l : List α) : Prop :=
  if l.countP (extra p q) = 0 then s = t ∨ l.countP q % 3 ≠ 0 ∨ l.countP q = 0
  else
    (l.countP p < 3 * (tail p q l / 3 + 1) ∨
      l.countP p = 3 * (tail p q l / 3 + 1) ∧ s = false) ∧
    ¬(l.countP q = tail p q l ∧ 0 < tail p q l ∧ tail p q l % 3 = 0 ∧ t = false)

theorem regularAfter_of_not {a : α} {as : List α} {s t : Bool} (hp : p a = false)
    (hq : q a = false) : RegularAfter p q s t (a :: as) ↔ RegularAfter p q s t as := by
  have hextra : extra p q a = false := by rw [extra, hp, Bool.false_and]
  unfold RegularAfter
  rw [List.countP_cons_of_neg (by simp [hextra]),
    List.countP_cons_of_neg (by rw [hq]; exact Bool.false_ne_true),
    List.countP_cons_of_neg (by rw [hp]; exact Bool.false_ne_true)]
  by_cases hrest : as.countP (extra p q) = 0
  · rw [if_pos hrest, if_pos hrest]
  · rw [if_neg hrest, if_neg hrest, tail_of_extra (Nat.pos_of_ne_zero hrest)]

/-- An extra digit in front. -/
theorem regularAfter_of_extra {a : α} {as : List α} {s t : Bool}
    (hqp : ∀ a, q a = true → p a = true) (hp : p a = true) (hq : q a = false) :
    RegularAfter p q s t (a :: as) ↔
      ¬(s = true ∧ (as.countP p + 1) % 3 = 0) ∧ RegularAfter p q true t as := by
  have hextra : extra p q a = true := by rw [extra, hp, hq]; rfl
  have hcount := countP_eq_add hqp as
  have htail := @tail_le _ p q as
  unfold RegularAfter
  rw [List.countP_cons_of_pos hextra, List.countP_cons_of_pos hp,
    List.countP_cons_of_neg (by simp [hq]), if_neg (Nat.succ_ne_zero _)]
  by_cases hrest : as.countP (extra p q) = 0
  · rw [if_pos hrest, tail_cons hrest hextra]
    generalize as.countP q = Q at *
    generalize as.countP p = P at *
    cases s <;> cases t <;> simp only [Bool.false_eq_true, Bool.true_eq_false, eq_self, true_and,
      and_true, false_and, and_false, or_false, false_or, true_or, iff_true,
      not_false_eq_true] <;> omega
  · rw [if_neg hrest, tail_of_extra (Nat.pos_of_ne_zero hrest)]
    generalize tail p q as = T at *
    cases s <;> cases t <;> simp only [Bool.false_eq_true, Bool.true_eq_false, eq_self, true_and,
      and_true, false_and, and_false, or_false, not_false_eq_true] <;> omega

/-- A digit of both ways in front. -/
theorem regularAfter_of_digit {a : α} {as : List α} {s t : Bool}
    (hqp : ∀ a, q a = true → p a = true) (hst : t = true → s = true) (hq : q a = true) :
    RegularAfter p q s t (a :: as) ↔
      (s = true ∧ (as.countP p + 1) % 3 = 0 ↔ t = true ∧ (as.countP q + 1) % 3 = 0) ∧
        RegularAfter p q true true as := by
  have hextra : ¬extra p q a = true := by simp [extra, hq]
  have hcount := countP_eq_add hqp as
  have htail := @tail_le _ p q as
  unfold RegularAfter
  rw [List.countP_cons_of_neg hextra, List.countP_cons_of_pos (hqp a hq),
    List.countP_cons_of_pos hq]
  by_cases hrest : as.countP (extra p q) = 0
  · rw [if_pos hrest, if_pos hrest]
    cases s <;> cases t <;> simp at hst ⊢ <;> omega
  · rw [if_neg hrest, if_neg hrest, tail_of_extra (Nat.pos_of_ne_zero hrest)]
    generalize tail p q as = T at *
    cases s <;> cases t <;> simp at hst ⊢ <;> omega

theorem agree_iff (hqp : ∀ a, q a = true → p a = true) {l : List α} {s t : Bool}
    (hst : t = true → s = true) : Agree p q s t l ↔ RegularAfter p q s t l := by
  induction l generalizing s t with
  | nil => simp [Agree, RegularAfter]
  | cons a as ih =>
      have hnext : (t || q a) = true → (s || p a) = true := by
        intro h
        rcases Bool.or_eq_true_iff.mp h with h | h
        · rw [hst h, Bool.true_or]
        · rw [hqp a h, Bool.or_true]
      unfold Agree Due
      rw [ih hnext]
      cases hp : p a with
      | false =>
          have hq : q a = false := by
            by_contra h
            rw [hqp a (by simpa using h)] at hp
            cases hp
          rw [regularAfter_of_not hp hq, hq, Bool.or_false, Bool.or_false]
          simp
      | true =>
          rw [Bool.or_true]
          cases hq : q a with
          | false =>
              rw [regularAfter_of_extra hqp hp hq, Bool.or_false]
              simp
          | true =>
              rw [regularAfter_of_digit hqp hst hq, Bool.or_true]
              simp

/-- Two ways of counting have the same separators just in the regular lists. -/
theorem withSeparators_eq_iff_regular {sep : β} {f : α → β} (hqp : ∀ a, q a = true → p a = true)
    (hsep : ∀ a, p a = true → f a ≠ sep) (l : List α) :
    withSeparators sep f p false l = withSeparators sep f q false l ↔ Regular p q l := by
  rw [withSeparators_eq_iff hqp hsep, agree_iff hqp id]
  unfold RegularAfter Regular
  by_cases h : l.countP (extra p q) = 0
  · simp [h]
  · rw [if_neg h]
    simp only [h, false_or, and_true]
    omega

end Improv.Lib.Thousands
