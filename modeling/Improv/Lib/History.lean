import Mathlib.Tactic.Common
/-!
# Histories with undo and redo

The states before the present one and those undone since, and a machine that
keeps steps in place of states: each step leads from one state to the one next
to it.  A machine whose steps are recorded so follows the history, however its
changes, undos and redos alternate.
-/

namespace Improv.Lib

/-- The states before the present one, the latest first, and those undone since,
the last undone first. -/
structure History (α : Type*) where
  past : List α
  present : α
  future : List α

namespace History

variable {α σ : Type*}

def start (a : α) : History α := ⟨[], a, []⟩

/-- A new present state; `depth` earlier ones are kept. -/
def change (depth : Nat) (h : History α) (a : α) : History α :=
  ⟨(h.present :: h.past).take depth, a, []⟩

/-- One state back; none where no earlier one is kept. -/
def undo (h : History α) : Option (History α) :=
  match h.past with
  | [] => none
  | a :: past => some ⟨past, a, h.present :: h.future⟩

/-- One state on; none where none is undone. -/
def redo (h : History α) : Option (History α) :=
  match h.future with
  | [] => none
  | a :: future => some ⟨h.present :: h.past, a, future⟩

/-- So many states back. -/
def undoMany (h : History α) : Nat → Option (History α)
  | 0 => some h
  | n + 1 => h.undo.bind fun h => h.undoMany n

/-- Undoing `n` changes brings back the state that was present `n` changes ago. -/
theorem present_undoMany {h h' : History α} {n : Nat} (hundo : h.undoMany n = some h') :
    (h.present :: h.past)[n]? = some h'.present := by
  induction n generalizing h with
  | zero =>
      simp only [undoMany, Option.some.injEq] at hundo
      rw [← hundo]
      rfl
  | succ n ih =>
      obtain ⟨past, present, future⟩ := h
      cases past with
      | nil => simp [undoMany, undo] at hundo
      | cons a past => exact ih hundo

/-! ## Steps in place of states -/

/-- Steps that lead from a state along others; steps past the last state are
free. -/
inductive Chain (leads : σ → α → α → Prop) : α → List α → List σ → Prop
  | nil (a : α) (steps : List σ) : Chain leads a [] steps
  | cons {a b : α} {bs : List α} {step : σ} {steps : List σ}
      (head : leads step a b) (tail : Chain leads b bs steps) :
      Chain leads a (b :: bs) (step :: steps)

theorem Chain.take {leads : σ → α → α → Prop} {a : α} {bs : List α} {steps : List σ}
    (h : Chain leads a bs steps) (n : Nat) : Chain leads a (bs.take n) (steps.take n) := by
  induction h generalizing n with
  | nil a steps =>
      rw [List.take_nil]
      exact .nil _ _
  | cons head tail ih =>
      cases n with
      | zero => exact .nil _ _
      | succ n => exact .cons head (ih n)

theorem Chain.length_le {leads : σ → α → α → Prop} {a : α} {bs : List α} {steps : List σ}
    (h : Chain leads a bs steps) : bs.length ≤ steps.length := by
  induction h with
  | nil a steps => exact Nat.zero_le _
  | cons head tail ih => simpa using ih

/-- The steps a machine keeps to go back and on along a history. -/
structure Recorded (back on : σ → α → α → Prop) (h : History α) (undos redos : List σ) :
    Prop where
  past : Chain back h.present h.past undos
  future : Chain on h.present h.future redos

namespace Recorded

variable {back on : σ → α → α → Prop} {h h' : History α} {undos redos : List σ} {step : σ}

theorem start (a : α) (undos redos : List σ) : Recorded back on (.start a) undos redos :=
  ⟨.nil _ _, .nil _ _⟩

/-- A change is recorded by a step that leads back from it. -/
theorem change (hr : Recorded back on h undos redos) {a : α} (hstep : back step a h.present)
    (depth : Nat) : Recorded back on (h.change depth a) ((step :: undos).take depth) [] :=
  ⟨(Chain.cons hstep hr.past).take depth, .nil _ _⟩

/-- The step an undo takes leads to the state before, and a step that leads on
again records it. -/
theorem undo (hr : Recorded back on h (step :: undos) redos) (hundo : h.undo = some h') :
    back step h.present h'.present ∧
      ∀ inverse, on inverse h'.present h.present →
        Recorded back on h' undos (inverse :: redos) := by
  obtain ⟨past, present, future⟩ := h
  cases past with
  | nil => simp [History.undo] at hundo
  | cons a past =>
      simp only [History.undo, Option.some.injEq] at hundo
      rw [← hundo]
      cases hr.past with
      | cons head tail => exact ⟨head, fun inverse hinv => ⟨tail, .cons hinv hr.future⟩⟩

theorem redo (hr : Recorded back on h undos (step :: redos)) (hredo : h.redo = some h') :
    on step h.present h'.present ∧
      ∀ inverse, back inverse h'.present h.present →
        Recorded back on h' (inverse :: undos) redos := by
  obtain ⟨past, present, future⟩ := h
  cases future with
  | nil => simp [History.redo] at hredo
  | cons a future =>
      simp only [History.redo, Option.some.injEq] at hredo
      rw [← hredo]
      cases hr.future with
      | cons head tail => exact ⟨head, fun inverse hinv => ⟨.cons hinv hr.past, tail⟩⟩

end Recorded

end History

end Improv.Lib
