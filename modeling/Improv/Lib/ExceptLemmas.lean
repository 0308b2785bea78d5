import Mathlib.Data.List.Forall2
import Mathlib.Tactic.Common
/-!
# Inverting fallible computations

What a successful or a failed `Except` computation says about its parts.
-/

namespace Improv.Lib

universe u v

variable {ε ε' : Type u} {α β : Type v}

theorem bind_eq_ok_iff {x : Except ε α} {f : α → Except ε β} {b : β} :
    (x >>= f) = .ok b ↔ ∃ a, x = .ok a ∧ f a = .ok b := by
  cases x with
  | ok a => simp [bind, Except.bind]
  | error e => simp [bind, Except.bind]

theorem bind_eq_error_iff {x : Except ε α} {f : α → Except ε β} {e : ε} :
    (x >>= f) = .error e ↔ x = .error e ∨ ∃ a, x = .ok a ∧ f a = .error e := by
  cases x with
  | ok a => simp [bind, Except.bind]
  | error e => simp [bind, Except.bind]

/-- Computations that go on alike from what succeeds are alike. -/
theorem bind_congr_ok {x : Except ε α} {f g : α → Except ε β}
    (h : ∀ a, x = .ok a → f a = g a) : (x >>= f) = (x >>= g) := by
  cases x with
  | error e => rfl
  | ok a => exact h a rfl

/-- A guarded computation that succeeds met its guard. -/
theorem ite_error_eq_ok_iff {p : Prop} [Decidable p] {e : ε} {x : Except ε α} {a : α} :
    (if p then .error e else x) = .ok a ↔ ¬p ∧ x = .ok a := by
  by_cases h : p <;> simp [h]

theorem mapError_eq_ok_iff {x : Except ε α} {f : ε → ε'} {a : α} :
    x.mapError f = .ok a ↔ x = .ok a := by
  cases x <;> simp [Except.mapError]

theorem mapError_eq_error_iff {x : Except ε α} {f : ε → ε'} {e : ε'} :
    x.mapError f = .error e ↔ ∃ e₀, x = .error e₀ ∧ f e₀ = e := by
  cases x <;> simp [Except.mapError]

/-- A list of computations succeeds when each does. -/
theorem mapM_eq_ok_iff {as : List α} {f : α → Except ε β} :
    ∀ {bs : List β}, as.mapM f = .ok bs ↔ List.Forall₂ (fun a b => f a = .ok b) as bs := by
  induction as with
  | nil =>
      intro bs
      rw [List.mapM_nil, List.forall₂_nil_left_iff]
      constructor
      · intro h
        exact (Except.ok.inj h).symm
      · intro h
        rw [h]
        rfl
  | cons a as ih =>
      intro bs
      rw [List.mapM_cons, bind_eq_ok_iff]
      simp only [bind_eq_ok_iff, ih, List.forall₂_cons_left_iff]
      constructor
      · rintro ⟨b, hb, cs, hcs, hrest⟩
        exact ⟨b, cs, hb, hcs, (Except.ok.inj hrest).symm⟩
      · rintro ⟨b, cs, hb, hcs, rfl⟩
        exact ⟨b, hb, cs, hcs, rfl⟩

theorem mapM_eq_error {as : List α} {f : α → Except ε β} {e : ε} (h : as.mapM f = .error e) :
    ∃ a ∈ as, f a = .error e := by
  induction as with
  | nil => cases h
  | cons a as ih =>
      rw [List.mapM_cons, bind_eq_error_iff] at h
      rcases h with h | ⟨_, _, h⟩
      · exact ⟨a, List.mem_cons_self, h⟩
      · rw [bind_eq_error_iff] at h
        rcases h with h | ⟨_, _, h⟩
        · obtain ⟨x, hx, hfx⟩ := ih h
          exact ⟨x, List.mem_cons_of_mem a hx, hfx⟩
        · cases h

/-- Computations alike to `g`, carried on alike. -/
theorem map_bind_congr {γ δ : Type v} {g : α → γ} {g' : β → δ} {x y : Except ε α}
    {f f' : α → Except ε β} (h : x.map g = y.map g)
    (hf : ∀ a b, g a = g b → (f a).map g' = (f' b).map g') :
    (x >>= f).map g' = (y >>= f').map g' := by
  cases x with
  | error e =>
      cases y with
      | error e' =>
          rw [Except.error.inj h]
          rfl
      | ok b => cases h
  | ok a =>
      cases y with
      | error e => cases h
      | ok b => exact hf a b (Except.ok.inj h)

/-! ## Folds that can fail -/

section Folds

variable {σ : Type v} {f : σ → α → Except ε σ} {P : σ → Prop}

/-- What each step of a fold keeps, the fold keeps. -/
theorem foldlM_invariant_mem {as : List α}
    (hstep : ∀ s a s', a ∈ as → P s → f s a = .ok s' → P s') {s s' : σ}
    (hs : P s) (h : as.foldlM f s = .ok s') : P s' := by
  induction as generalizing s with
  | nil =>
      cases h
      exact hs
  | cons a as ih =>
      rw [List.foldlM_cons, bind_eq_ok_iff] at h
      obtain ⟨b, hb, h⟩ := h
      exact ih (fun t c t' hc => hstep t c t' (List.mem_cons_of_mem a hc))
        (hstep s a b List.mem_cons_self hs hb) h

/-- What every step of a fold keeps, the fold keeps. -/
theorem foldlM_invariant (hstep : ∀ s a s', P s → f s a = .ok s' → P s') {as : List α} {s s' : σ}
    (hs : P s) (h : as.foldlM f s = .ok s') : P s' :=
  foldlM_invariant_mem (fun t a t' _ => hstep t a t') hs h

/-- A fold that succeeds took each of its steps, from a state the steps keep. -/
theorem foldlM_exists_step {as : List α} (hstep : ∀ s a s', a ∈ as → P s → f s a = .ok s' → P s')
    {s s' : σ} (hs : P s) (h : as.foldlM f s = .ok s') {a : α} (ha : a ∈ as) :
    ∃ t t', P t ∧ f t a = .ok t' := by
  induction as generalizing s with
  | nil => cases ha
  | cons b as ih =>
      rw [List.foldlM_cons, bind_eq_ok_iff] at h
      obtain ⟨t, ht, h⟩ := h
      rcases List.mem_cons.mp ha with rfl | ha
      · exact ⟨s, t, hs, ht⟩
      · exact ih (fun u c u' hc => hstep u c u' (List.mem_cons_of_mem b hc))
          (hstep s b t List.mem_cons_self hs ht) h ha

/-- A fold may leave out what changes nothing. -/
theorem foldlM_filter (hstep : ∀ s a s', P s → f s a = .ok s' → P s') {keep : α → Bool}
    (hskip : ∀ s a, P s → keep a = false → f s a = .ok s) {as : List α} {s : σ} (hs : P s) :
    (as.filter keep).foldlM f s = as.foldlM f s := by
  induction as generalizing s with
  | nil => rfl
  | cons a as ih =>
      cases hkeep : keep a with
      | false =>
          rw [List.filter_cons_of_neg (by simp [hkeep]), List.foldlM_cons, hskip s a hs hkeep]
          exact ih hs
      | true =>
          rw [List.filter_cons_of_pos hkeep, List.foldlM_cons, List.foldlM_cons]
          cases hb : f s a with
          | error e => rfl
          | ok b => exact ih (hstep s a b hs hb)

/-- A fold whose steps cannot tell two states apart ends in states it cannot
tell apart. -/
theorem foldlM_map_congr {τ : Type v} {g : σ → τ}
    (hf : ∀ s t a, g s = g t → (f s a).map g = (f t a).map g) {as : List α} {s t : σ}
    (h : g s = g t) : (as.foldlM f s).map g = (as.foldlM f t).map g := by
  induction as generalizing s t with
  | nil => exact congrArg Except.ok h
  | cons a as ih =>
      rw [List.foldlM_cons, List.foldlM_cons]
      exact map_bind_congr (hf s t a h) fun _ _ h => ih h

end Folds

/-! ## Outcomes -/

section Outcomes

variable {P : α → Prop} {Q : β → Prop} {E : ε → Prop}

/-- What a computation gives is as said, and so is why it fails. -/
def Outcome (P : α → Prop) (E : ε → Prop) : Except ε α → Prop
  | .ok a => P a
  | .error e => E e

theorem Outcome.of {x : Except ε α} (hok : ∀ a, x = .ok a → P a)
    (herror : ∀ e, x = .error e → E e) : Outcome P E x := by
  cases x with
  | ok a => exact hok a rfl
  | error e => exact herror e rfl

theorem Outcome.mono {P' : α → Prop} {x : Except ε α} (h : Outcome P E x)
    (hP : ∀ a, P a → P' a) : Outcome P' E x := by
  cases x with
  | ok a => exact hP a h
  | error e => exact h

theorem Outcome.bind {x : Except ε α} {f : α → Except ε β} (h : Outcome P E x)
    (hf : ∀ a, P a → Outcome Q E (f a)) : Outcome Q E (x >>= f) := by
  cases x with
  | ok a => exact hf a h
  | error e => exact h

end Outcomes

end Improv.Lib
