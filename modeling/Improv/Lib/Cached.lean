import Mathlib.Tactic.Common
/-!
# Answers from a cache

Computations that may fail and keep a cache, also where they fail.  Where the
cache holds only right answers, what such a computation yields does not depend
on the questions asked before it.
-/

namespace Improv.Lib

/-- A computation over a cache `σ` that may fail with an `ε`. -/
abbrev Cached (ε σ : Type) := ExceptT ε (StateM σ)

namespace Cached

variable {ε σ α β : Type}

/-- What a computation answers, and the cache it leaves. -/
def ask (x : Cached ε σ α) (s : σ) : Except ε α × σ := x.run.run s

/-- Over every right cache the computation answers `r`, and leaves a right
one. -/
def Yields (Right : σ → Prop) (x : Cached ε σ α) (r : Except ε α) : Prop :=
  ∀ s, Right s → (x.ask s).1 = r ∧ Right (x.ask s).2

variable {Right : σ → Prop} {x : Cached ε σ α} {f : α → Cached ε σ β}

theorem ask_bind_of_ok {s : σ} {a : α} (h : (x.ask s).1 = .ok a) :
    (x >>= f).ask s = (f a).ask (x.ask s).2 := by
  have hpair : x.run.run s = (.ok a, (x.ask s).2) := Prod.ext h rfl
  show StateT.run (ExceptT.run (x >>= f)) s = _
  rw [ExceptT.run_bind, StateT.run_bind, hpair]
  rfl

theorem ask_bind_of_error {s : σ} {e : ε} (h : (x.ask s).1 = .error e) :
    (x >>= f).ask s = (.error e, (x.ask s).2) := by
  have hpair : x.run.run s = (.error e, (x.ask s).2) := Prod.ext h rfl
  show StateT.run (ExceptT.run (x >>= f)) s = _
  rw [ExceptT.run_bind, StateT.run_bind, hpair]
  rfl

theorem Yields.pure (a : α) : Yields Right (Pure.pure a : Cached ε σ α) (.ok a) :=
  fun _ hs => ⟨rfl, hs⟩

theorem Yields.throw (e : ε) : Yields Right (MonadExcept.throw e : Cached ε σ α) (.error e) :=
  fun _ hs => ⟨rfl, hs⟩

theorem Yields.bind {a : α} {r : Except ε β} (hx : Yields Right x (.ok a))
    (hf : Yields Right (f a) r) : Yields Right (x >>= f) r := by
  intro s hs
  have ⟨ha, hs'⟩ := hx s hs
  rw [ask_bind_of_ok ha]
  exact hf _ hs'

theorem Yields.bind_error {e : ε} (hx : Yields Right x (.error e)) :
    Yields Right (x >>= f) (.error e) := by
  intro s hs
  have ⟨he, hs'⟩ := hx s hs
  rw [ask_bind_of_error he]
  exact ⟨rfl, hs'⟩

theorem Yields.map {a : α} (hx : Yields Right x (.ok a)) (g : α → β) :
    Yields Right (g <$> x) (.ok (g a)) := by
  rw [← bind_pure_comp]
  exact hx.bind (Yields.pure (g a))

theorem Yields.get_bind {g : σ → Cached ε σ α} {r : Except ε α}
    (h : ∀ s, Right s → Yields Right (g s) r) : Yields Right (MonadState.get >>= g) r :=
  fun s hs => h s hs s hs

theorem Yields.modify {g : σ → σ} (h : ∀ s, Right s → Right (g s)) :
    Yields Right (MonadState.modifyGet fun s => (PUnit.unit, g s) : Cached ε σ PUnit)
      (.ok PUnit.unit) :=
  fun s hs => ⟨rfl, h s hs⟩

/-- What a right cache answers, every right cache answers. -/
theorem Yields.of_ask {r : Except ε α} (h : Yields Right x r) {s : σ} (hs : Right s) :
    (x.ask s).1 = r := (h s hs).1

/-! ## Lists -/

theorem Yields.allM {p : α → Cached ε σ Bool} {P : α → Bool} {as : List α}
    (h : ∀ a ∈ as, Yields Right (p a) (.ok (P a))) :
    Yields Right (as.allM p) (.ok (as.all P)) := by
  induction as with
  | nil => exact Yields.pure true
  | cons a as ih =>
      have ⟨ha, has⟩ := List.forall_mem_cons.mp h
      refine ha.bind ?_
      rw [List.all_cons]
      cases P a with
      | false => exact Yields.pure false
      | true => exact ih has

theorem Yields.anyM {p : α → Cached ε σ Bool} {P : α → Bool} {as : List α}
    (h : ∀ a ∈ as, Yields Right (p a) (.ok (P a))) :
    Yields Right (as.anyM p) (.ok (as.any P)) := by
  induction as with
  | nil => exact Yields.pure false
  | cons a as ih =>
      have ⟨ha, has⟩ := List.forall_mem_cons.mp h
      refine ha.bind ?_
      rw [List.any_cons]
      cases P a with
      | true => exact Yields.pure true
      | false => exact ih has

theorem Yields.mapM {f : α → Cached ε σ β} {g : α → β} {as : List α}
    (h : ∀ a ∈ as, Yields Right (f a) (.ok (g a))) :
    Yields Right (as.mapM f) (.ok (as.map g)) := by
  induction as with
  | nil => exact Yields.pure []
  | cons a as ih =>
      have ⟨ha, has⟩ := List.forall_mem_cons.mp h
      rw [List.mapM_cons, List.map_cons]
      exact ha.bind ((ih has).bind (Yields.pure _))

end Cached

end Improv.Lib
