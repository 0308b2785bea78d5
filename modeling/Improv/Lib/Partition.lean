import Mathlib.Tactic.Common
/-!
# Partitions

A union-find seen through its roots: each element's class is named by one of
its members.  The links between members, and their shortening, are not kept;
they change no root.
-/

namespace Improv.Lib

/-- A partition, each class under its root. -/
structure Partition (κ : Type*) where
  find : κ → κ
  find_find : ∀ a, find (find a) = find a

namespace Partition

variable {κ α : Type*}

/-- Every element in a class of its own. -/
def discrete : Partition κ := ⟨id, fun _ => rfl⟩

/-- The class of `a` joined to that of `b`, under `b`'s root. -/
def union [DecidableEq κ] (p : Partition κ) (a b : κ) : Partition κ where
  find c := if p.find c = p.find a then p.find b else p.find c
  find_find c := by
    by_cases hc : p.find c = p.find a
    · simp [hc, p.find_find]
    · simp [hc, p.find_find]

/-- Every class of `p` lies within one of `q`. -/
def Finer (p q : Partition κ) : Prop := ∀ a b, p.find a = p.find b → q.find a = q.find b

theorem Finer.refl (p : Partition κ) : p.Finer p := fun _ _ h => h

theorem Finer.trans {p q r : Partition κ} (hpq : p.Finer q) (hqr : q.Finer r) : p.Finer r :=
  fun a b h => hqr a b (hpq a b h)

theorem finer_union [DecidableEq κ] (p : Partition κ) (a b : κ) : p.Finer (p.union a b) := by
  intro c d h
  simp [union, h]

theorem find_union [DecidableEq κ] (p : Partition κ) (a b : κ) :
    (p.union a b).find a = (p.union a b).find b := by
  simp [union]

/-- Steps that split no class split none in a run. -/
theorem finer_foldl {f : Partition κ → α → Partition κ}
    (hf : ∀ (p : Partition κ) x, p.Finer (f p x)) (l : List α) (p : Partition κ) :
    p.Finer (l.foldl f p) := by
  induction l generalizing p with
  | nil => exact Finer.refl p
  | cons x l ih => exact (hf p x).trans (ih (f p x))

/-- What one step of a run joins stays joined. -/
theorem find_foldl_of_mem {f : Partition κ → α → Partition κ}
    (hf : ∀ (p : Partition κ) x, p.Finer (f p x)) {a b : κ} {x : α}
    (hjoin : ∀ p, (f p x).find a = (f p x).find b) {l : List α} (hx : x ∈ l)
    (p : Partition κ) : (l.foldl f p).find a = (l.foldl f p).find b := by
  induction l generalizing p with
  | nil => simp at hx
  | cons y l ih =>
      rcases List.mem_cons.mp hx with rfl | hmem
      · exact finer_foldl hf l (f p x) a b (hjoin p)
      · exact ih hmem (f p y)

/-- The class of `a` joined to those of a list. -/
def unionAll [DecidableEq κ] (p : Partition κ) (a : κ) (bs : List κ) : Partition κ :=
  bs.foldl (fun p b => p.union a b) p

theorem finer_unionAll [DecidableEq κ] (p : Partition κ) (a : κ) (bs : List κ) :
    p.Finer (p.unionAll a bs) :=
  finer_foldl (fun p b => p.finer_union a b) bs p

theorem find_unionAll [DecidableEq κ] (p : Partition κ) {a b : κ} {bs : List κ} (hb : b ∈ bs) :
    (p.unionAll a bs).find a = (p.unionAll a bs).find b :=
  find_foldl_of_mem (fun p b => p.finer_union a b) (fun p => p.find_union a b) hb p

end Partition

end Improv.Lib
