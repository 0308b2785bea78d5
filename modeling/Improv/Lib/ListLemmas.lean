import Mathlib.Data.List.Chain
import Mathlib.Data.List.Forall2
import Mathlib.Data.List.Nodup
import Mathlib.Data.List.Perm.Subperm
import Mathlib.Logic.Relation
import Mathlib.Tactic.Common
/-!
# Lists related entry by entry, and chains

Small additions to the library of lists: what a relation between two lists
says about the members of one of them, the length of a chain that never
comes back to where it was, and where a run with a property ends.
-/

namespace Improv.Lib

variable {α β : Type*}

/-- The longest run with a property ends where the property does. -/
theorem span_append {p : α → Bool} {as bs : List α} (has : ∀ a ∈ as, p a = true)
    (hbs : ∀ b ∈ bs.head?, p b = false) :
    (as ++ bs).takeWhile p = as ∧ (as ++ bs).dropWhile p = bs := by
  rw [List.takeWhile_append_of_pos has, List.dropWhile_append_of_pos has]
  cases bs with
  | nil => simp
  | cons b bs =>
      have hb : ¬p b = true := by
        rw [hbs b rfl]
        exact Bool.false_ne_true
      rw [List.takeWhile_cons_of_neg hb, List.dropWhile_cons_of_neg hb, List.append_nil]
      exact ⟨rfl, rfl⟩

theorem forall₂_right {p : β → Prop} {as : List α} {bs : List β}
    (h : List.Forall₂ (fun _ b => p b) as bs) : ∀ b ∈ bs, p b := by
  induction h with
  | nil => simp
  | cons hb _ ih => simpa using ⟨hb, ih⟩

/-- A member on the left has a related member on the right. -/
theorem exists_of_mem_left {r : α → β → Prop} {as : List α} {bs : List β}
    (h : List.Forall₂ r as bs) {a : α} (ha : a ∈ as) : ∃ b ∈ bs, r a b := by
  induction h with
  | nil => simp at ha
  | @cons x y xs ys hxy _ ih =>
      rcases List.mem_cons.mp ha with rfl | hmem
      · exact ⟨y, by simp, hxy⟩
      · obtain ⟨b, hb, hr⟩ := ih hmem
        exact ⟨b, by simp [hb], hr⟩

/-- A chain inside a finite list that is longer than the list runs in a cycle
somewhere. -/
theorem exists_transGen_of_length_lt {r : α → α → Prop} {l keys : List α}
    (hchain : l.IsChain r) (hkeys : l ⊆ keys) (hlen : keys.length < l.length) :
    ∃ a ∈ l, Relation.TransGen r a a := by
  by_contra hnone
  push Not at hnone
  have hpair : l.Pairwise (Relation.TransGen r) :=
    (hchain.imp fun _ _ => Relation.TransGen.single).pairwise
  have hnodup : l.Nodup := hpair.imp_of_mem fun {a b} ha _ hab heq => by
    subst heq
    exact hnone a ha hab
  have hle := (List.subperm_of_subset hnodup hkeys).length_le
  omega

end Improv.Lib

/-!
## Characters

The characters that are whitespace, and texts compared and changed in the ASCII
letters only.
-/

namespace Improv.Lib

/-- The characters of the `White_Space` property. -/
def isWhitespace (c : Char) : Bool :=
  let n := c.toNat
  (9 ≤ n && n ≤ 13) || n == 0x20 || n == 0x85 || n == 0xA0 || n == 0x1680 ||
    (0x2000 ≤ n && n ≤ 0x200A) || n == 0x2028 || n == 0x2029 || n == 0x202F || n == 0x205F ||
    n == 0x3000

/-- A text without the whitespace around it. -/
def trimmed (s : List Char) : List Char :=
  ((s.dropWhile isWhitespace).reverse.dropWhile isWhitespace).reverse

def toAsciiUppercase (s : String) : String := .ofList (s.toList.map Char.toUpper)

def toAsciiLowercase (s : String) : String := .ofList (s.toList.map Char.toLower)

/-- Equal up to the case of ASCII letters. -/
def eqIgnoreAsciiCase (s t : String) : Bool :=
  s.toList.map Char.toLower = t.toList.map Char.toLower

end Improv.Lib
