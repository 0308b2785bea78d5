import Improv.Lib.ListLemmas
import Improv.CoreModel.LambdaReading
/-!
# Expanding named lambdas

The expansion of a formula's named-lambda calls calls no lambda and has the
formula's own meaning under every interpretation.
-/

namespace Improv.CoreModel

open Improv.Lib Functions

universe u

variable {lambdas : Lambdas}

/-! ## One level of the expansion -/

section ExpandHere

variable {next : Expr → Except String Expr}

theorem expandArgs_eq_ok_iff {args args' : List Expr} :
    expandHere.expandArgs lambdas next args = .ok args' ↔
      List.Forall₂ (fun a a' => expandHere lambdas next a = .ok a') args args' := by
  induction args generalizing args' with
  | nil => simp [expandHere.expandArgs, eq_comm]
  | cons a as ih =>
      simp only [expandHere.expandArgs, bind_eq_ok_iff, ih, List.forall₂_cons_left_iff,
        Except.ok.injEq]
      constructor
      · rintro ⟨a', ha, as', has, rfl⟩
        exact ⟨a', as', ha, has, rfl⟩
      · rintro ⟨a', as', ha, has, rfl⟩
        exact ⟨a', ha, as', has, rfl⟩

theorem expandArgs_error {args : List Expr} {msg : String}
    (h : expandHere.expandArgs lambdas next args = .error msg) :
    ∃ a ∈ args, ∃ msg, expandHere lambdas next a = .error msg := by
  induction args with
  | nil => simp [expandHere.expandArgs] at h
  | cons a as ih =>
      simp only [expandHere.expandArgs, bind_eq_error_iff] at h
      rcases h with ha | ⟨a', -, has | ⟨as', -, hres⟩⟩
      · exact ⟨a, by simp, msg, ha⟩
      · obtain ⟨b, hb, msg', hmsg⟩ := ih has
        exact ⟨b, by simp [hb], msg', hmsg⟩
      · simp at hres

/-- What a call of the lambda `id` with expanded arguments becomes. -/
structure Enters (lambdas : Lambdas) (id : Nat) (args : List Expr) (body : Expr) : Prop where
  intro ::
  lambda : ∃ l, lambdas.get? id = some l ∧ l.params.length = args.length ∧
    substituteParams args l.body = .ok body

theorem expandHere_call_eq_ok {f : FuncId} {args : List Expr} {e : Expr}
    (h : expandHere lambdas next (.call f args) = .ok e) :
    ∃ args', List.Forall₂ (fun a a' => expandHere lambdas next a = .ok a') args args' ∧
      ((namedLambdaOf f = none ∧ e = .call f args') ∨
        ∃ id body, namedLambdaOf f = some id ∧ Enters lambdas id args' body ∧
          body.checkDepth Expr.maxStoredFormulaDepth = .ok () ∧ next body = .ok e) := by
  simp only [expandHere, bind_eq_ok_iff] at h
  obtain ⟨args', hargs, h⟩ := h
  refine ⟨args', expandArgs_eq_ok_iff.mp hargs, ?_⟩
  split at h
  · next hf => exact .inl ⟨hf, by simpa using h.symm⟩
  · next id hf =>
      split at h
      · simp at h
      · next l hl =>
          split at h
          · simp at h
          · next hlen =>
              simp only [bind_eq_ok_iff, mapError_eq_ok_iff] at h
              obtain ⟨body, hbody, _, hdepth, hnext⟩ := h
              exact .inr ⟨id, body, hf, ⟨l, hl, not_ne_iff.mp hlen, hbody⟩, hdepth, hnext⟩

/-- Why a call fails once its arguments are expanded. -/
theorem expandHere_call_eq_error {f : FuncId} {args : List Expr} {msg : String}
    (h : expandHere lambdas next (.call f args) = .error msg) :
    (∃ a ∈ args, ∃ msg, expandHere lambdas next a = .error msg) ∨
      ∃ args' id, namedLambdaOf f = some id ∧
        List.Forall₂ (fun a a' => expandHere lambdas next a = .ok a') args args' ∧
        (lambdas.get? id = none ∨
          ∃ l, lambdas.get? id = some l ∧
            (l.params.length ≠ args'.length ∨
              l.params.length = args'.length ∧
                ((∃ msg, substituteParams args' l.body = .error msg) ∨
                  ∃ body, substituteParams args' l.body = .ok body ∧
                    ((∃ msg, body.checkDepth Expr.maxStoredFormulaDepth = .error msg) ∨
                      ∃ msg, next body = .error msg)))) := by
  simp only [expandHere, bind_eq_error_iff] at h
  rcases h with hargs | ⟨args', hargs, h⟩
  · exact .inl (expandArgs_error hargs)
  · have hall := expandArgs_eq_ok_iff.mp hargs
    split at h
    · simp at h
    · next id hf =>
        refine .inr ⟨args', id, hf, hall, ?_⟩
        split at h
        · next hnone => exact .inl hnone
        · next l hl =>
            refine .inr ⟨l, hl, ?_⟩
            split at h
            · next hlen => exact .inl hlen
            · next hlen =>
                refine .inr ⟨not_ne_iff.mp hlen, ?_⟩
                simp only [bind_eq_error_iff, mapError_eq_error_iff, mapError_eq_ok_iff] at h
                rcases h with ⟨m, hm, -⟩ | ⟨body, hbody, ⟨m, hm, -⟩ | ⟨-, -, hnext⟩⟩
                · exact .inl ⟨m, hm⟩
                · exact .inr ⟨body, hbody, .inl ⟨m, hm⟩⟩
                · exact .inr ⟨body, hbody, .inr ⟨msg, hnext⟩⟩

end ExpandHere

/-! ## The expansion has the formula's meaning -/

section Meaning

variable {D : Type u} (I : Interpretation D)

open Interpretation

theorem readAll_of_forall₂ {enter : Nat → List (Reading D) → Option (Reading D)}
    {ρ : Bindings D} {args args' : List Expr}
    (h : List.Forall₂ (fun a a' => I.readWith enter ρ a = some (I.eval a')) args args') :
    readWith.readAll I enter ρ args = some (args'.map I.eval) := by
  induction h with
  | nil => rfl
  | cons ha _ ih => simp [readWith.readAll, ha, ih]

theorem read_of_substituteParams {args : List Expr} (hargs : ∀ a ∈ args, a.LambdaFree)
    {body e : Expr} (h : substituteParams args body = .ok e) (k : Nat) :
    I.read lambdas k (I.bindingsOf args) body = I.read lambdas k none e := by
  cases k with
  | zero => rfl
  | succ k => exact I.readWith_of_substituteParams _ hargs h

/-- What one level of the expansion returns is free of calls and reads as the
expression it came from, provided that holds one level deeper. -/
theorem expandHere_sound {next : Expr → Except String Expr} {k : Nat}
    (hnext : ∀ e e', next e = .ok e' →
      e'.LambdaFree ∧ I.read lambdas k none e = some (I.eval e'))
    {e e' : Expr} (h : expandHere lambdas next e = .ok e') :
    e'.LambdaFree ∧ I.read lambdas (k + 1) none e = some (I.eval e') := by
  induction e generalizing e' with
  | literal v =>
      cases h
      exact ⟨rfl, rfl⟩
  | ref m spec =>
      cases h
      exact ⟨rfl, I.readRef_none m spec⟩
  | unaryOp op a iha =>
      simp only [expandHere, bind_eq_ok_iff] at h
      obtain ⟨a', ha, hres⟩ := h
      cases hres
      obtain ⟨hfree, hread⟩ := iha ha
      rw [Interpretation.read] at hread
      refine ⟨Expr.lambdaFree_unaryOp.mpr hfree, ?_⟩
      rw [Interpretation.read, readWith, hread]
      rfl
  | binaryOp op a b iha ihb =>
      simp only [expandHere, bind_eq_ok_iff] at h
      obtain ⟨a', ha, b', hb, hres⟩ := h
      cases hres
      obtain ⟨hfreea, hreada⟩ := iha ha
      obtain ⟨hfreeb, hreadb⟩ := ihb hb
      rw [Interpretation.read] at hreada hreadb
      refine ⟨Expr.lambdaFree_binaryOp.mpr ⟨hfreea, hfreeb⟩, ?_⟩
      rw [Interpretation.read, readWith, hreada, hreadb]
      rfl
  | call f args ih =>
      obtain ⟨args', hargs, hcall⟩ := expandHere_call_eq_ok h
      have hsound : List.Forall₂ (fun a a' => a'.LambdaFree ∧
          I.read lambdas (k + 1) none a = some (I.eval a')) args args' :=
        ((List.forall₂_and_left _ _).mpr ⟨fun a ha e' => @ih a ha e', hargs⟩).imp
          fun _ _ h => h.1 _ h.2
      have hfree : ∀ a ∈ args', a.LambdaFree :=
        forall₂_right (hsound.imp fun _ _ h => h.1)
      have hread := readAll_of_forall₂ I (hsound.imp fun _ _ h => h.2)
      rcases hcall with ⟨hf, rfl⟩ | ⟨id, body, hf, ⟨l, hl, hlen, hbody⟩, -, hres⟩
      · refine ⟨Expr.lambdaFree_call.mpr ⟨hf, hfree⟩, ?_⟩
        rw [Interpretation.read, readWith, hread, hf]
        simp [eval, Function.comp_def]
      · obtain ⟨hfree', hread'⟩ := hnext _ _ hres
        refine ⟨hfree', ?_⟩
        rw [Interpretation.read, readWith, hread, hf]
        simp [hl, hlen, read_of_substituteParams I hfree hbody, hread']
  | category c =>
      cases h
      exact ⟨rfl, rfl⟩

theorem expandAt_sound {left k : Nat} (hk : left ≤ k) {e e' : Expr}
    (h : expandAt lambdas left e = .ok e') :
    e'.LambdaFree ∧ I.read lambdas k none e = some (I.eval e') := by
  induction left generalizing k e e' with
  | zero => simp [expandAt] at h
  | succ left ih =>
      obtain ⟨k, rfl⟩ := Nat.exists_eq_add_of_lt hk
      exact expandHere_sound I (fun _ _ => ih (by omega)) h

/-- The expansion has the value of the formula it expands. -/
theorem means_of_expandAt {left : Nat} {e e' : Expr}
    (h : expandAt lambdas left e = .ok e') : I.Means lambdas e (I.eval e').value :=
  ⟨left, fun k hk => by rw [(expandAt_sound I hk h).2]; rfl⟩

end Meaning

end Improv.CoreModel
