import Mathlib.Data.List.Range
import Mathlib.Order.Bounds.Basic
import Improv.Lib.Wildcard
/-!
# The wildcard matchers

`SEARCH` looks for a place where some start of the text matches a pattern;
`COUNTIF` and its family, `MATCH` and `XLOOKUP` match a whole text.  Both loops
go back to the last `*` only.  A cursor into a text or a pattern is the rest of
it from there.
-/

namespace Improv.Engine.WildcardMatchers

open Improv.Lib.Wildcard

/-! ## Case folding -/

/-- The library's lower-case mapping: a character may have more than one, ASCII
maps within ASCII, and nothing else maps to ASCII but to a letter. -/
structure LowerCase where
  toLowercase : Char → List Char
  ne_nil : ∀ c, toLowercase c ≠ []
  ascii : ∀ c, c.toNat < 128 → toLowercase c = [c.toLower]
  letter : ∀ c d, 128 ≤ c.toNat → d ∈ toLowercase c → d.toNat < 128 → d.isLower = true

/-- ASCII alone. -/
def LowerCase.asciiOnly : LowerCase where
  toLowercase := fun c => [c.toLower]
  ne_nil := fun _ => List.cons_ne_nil _ _
  ascii := fun _ _ => rfl
  letter := fun c d hc hd hlow => by
    rw [List.mem_singleton.mp hd] at hlow ⊢
    unfold Char.toLower at hlow ⊢
    split at hlow
    · next hupper =>
        have hle : c.val.toNat ≤ 90 := UInt32.le_iff_toNat_le.mp hupper.2
        have heq : c.toNat = c.val.toNat := rfl
        omega
    · omega

variable (L : LowerCase)

def foldChar (c : Char) : Char := (L.toLowercase c).headD c

/-! ## `SEARCH` -/

def findChars (hay needle : List Char) (start : Nat) : Option Nat :=
  if needle = [] then some start
  else if hay.length < needle.length then none
  else (List.range' start (hay.length - needle.length + 1 - start)).find? fun i =>
    (hay.drop i).take needle.length = needle

/-- The pattern of a `SEARCH`: `~` escapes the next character. -/
def searchPattern : List Char → List (Pat Char)
  | '~' :: n :: p => .lit (foldChar L n) :: searchPattern p
  | ['~'] => [.lit '~']
  | '?' :: p => .one :: searchPattern p
  | '*' :: p => .many :: searchPattern p
  | c :: p => .lit (foldChar L c) :: searchPattern p
  | [] => []

/-- The pattern after the last `*`, and the text it was last tried at. -/
abbrev Star := Option (List (Pat Char) × List Char)

/-- What of a star the loops can still take back. -/
def Star.patterns (star : Star) : Nat := star.elim 0 fun x => x.1.length

def Star.texts (star : Star) : Nat := star.elim 0 fun x => x.2.length

/-- The loop of `matchesAt` from two cursors. -/
def matchesFrom : List (Pat Char) → List Char → Star → Bool
  | [], _, _ => true
  | .many :: p, s, _ => matchesFrom p s (some (p, s))
  | x :: p, s, star =>
    match x.consume s with
    | some r => matchesFrom p r star
    | none =>
      match star with
      | some (sp, _ :: ss) => matchesFrom sp ss (some (sp, ss))
      | _ => false
termination_by p _ star => (max p.length star.patterns, star.texts, p.length)
decreasing_by
  all_goals simp only [Star.patterns, Star.texts, Option.elim, List.length_cons, Prod.lex_def,
    true_and]
  all_goals omega

/-- Whether a pattern matches a start of a text. -/
def matchesAt (s : List Char) (p : List (Pat Char)) : Bool := matchesFrom p s none

/-- `SEARCH`: the place of the first match at or after `start`. -/
def searchChars (hay pattern : List Char) (start : Nat) : Option Nat :=
  let lower := hay.flatMap L.toLowercase
  -- A case mapping that changes the length: exact positions.
  if lower.length ≠ hay.length then findChars hay pattern start
  else
    let p := searchPattern L pattern
    (List.range' start (lower.length + 1 - start)).find? fun i => matchesAt (lower.drop i) p

/-! ## Whole texts -/

/-- A case-folded wildcard pattern. -/
def pattern : List Char → List (Pat Char)
  | '~' :: n :: p => .lit n :: pattern p
  | ['~'] => [.lit '~']
  | '*' :: p => .many :: pattern p
  | '?' :: p => .one :: pattern p
  | c :: p => .lit c :: pattern p
  | [] => []

/-- The cursors past a part that is no run. -/
def advance : List (Pat Char) → List Char → Option (List (Pat Char) × List Char)
  | x :: p, t => (x.consume t).map (p, ·)
  | [], _ => none

theorem length_of_advance {p p' : List (Pat Char)} {t t' : List Char}
    (h : advance p t = some (p', t')) : p.length = p'.length + 1 := by
  cases p with
  | nil => cases h
  | cons x p =>
      obtain ⟨r, -, hr⟩ := Option.map_eq_some_iff.mp h
      rw [List.length_cons, (Prod.mk.inj hr).1]

/-- The loop of `glob` from two cursors; past the text only runs may be left. -/
def globFrom : List (Pat Char) → List Char → Star → Bool
  | p, [], _ => p.all (· = .many)
  | .many :: p, c :: t, _ => globFrom p (c :: t) (some (p, c :: t))
  | p, c :: t, star =>
    match _h : advance p (c :: t) with
    | some (p', t') => globFrom p' t' star
    | none =>
      match star with
      | some (sp, _ :: st) => globFrom sp st (some (sp, st))
      -- The text's cursor would be past its end, which ends the loop.
      | some (sp, []) => sp.all (· = .many)
      | none => false
termination_by p _ star => (max p.length star.patterns, star.texts, p.length)
decreasing_by
  all_goals try have hlen := length_of_advance _h
  all_goals simp only [Star.patterns, Star.texts, Option.elim, List.length_cons, Prod.lex_def,
    true_and]
  all_goals omega

/-- Whether the whole of a text matches. -/
def glob (p : List (Pat Char)) (t : List Char) : Bool := globFrom p t none

def like (patternText text : List Char) : Bool :=
  glob (pattern (patternText.map (foldChar L))) (text.map (foldChar L))

/-! ## The loops -/

section Loops

variable {p : List (Pat Char)} {s t : List Char} {star : Star}

/-- A star leads to two cursors. -/
def Star.Before (star : Star) (p : List (Pat Char)) (s : List Char) : Prop :=
  ∀ x ∈ star, Since x.1 x.2 p s

/-- The last run of a star takes more than it has. -/
def Star.Takes (star : Star) (fin : List Char → Prop) : Prop :=
  ∃ x ∈ star, Later fin x.1 x.2

theorem Star.Before.pass {x : Pat Char} {r : List Char} (h : star.Before (x :: p) s)
    (hx : x ≠ .many) (hr : x.consume s = some r) : star.Before p r := by
  obtain ⟨d, rfl⟩ := consume_eq_some hr
  exact fun y hy => (h y hy).pass hx

theorem Star.before_none : Star.Before none p s := fun _ hx => nomatch hx

theorem Star.before_some : Star.Before (some (p, s)) p s := by
  intro x hx
  rw [← Option.some.inj hx]
  exact since_self p s

theorem Star.not_takes_none {fin : List Char → Prop} : ¬Star.Takes none fin := by
  intro ⟨x, hx, _⟩
  cases hx

theorem Star.takes_some {fin : List Char → Prop} {sp : List (Pat Char)} {ss : List Char} :
    Star.Takes (some (sp, ss)) fin ↔ Later fin sp ss := by
  constructor
  · intro ⟨x, hx, hlater⟩
    rw [← Option.some.inj hx] at hlater
    exact hlater
  · intro hlater
    exact ⟨_, rfl, hlater⟩

/-- A run takes any number of elements, the first time or later. -/
theorem matches_many_iff {fin : List Char → Prop} :
    Matches fin (.many :: p) s ↔ Matches fin p s ∨ Later fin p s := by
  cases s with
  | nil =>
      constructor
      · intro ⟨r, hr, hm⟩
        rw [List.suffix_nil.mp hr] at hm
        exact Or.inl hm
      · intro h
        cases h with
        | inl hm => exact ⟨[], List.suffix_refl [], hm⟩
        | inr hlater => exact absurd hlater not_later_empty
  | cons c s =>
      constructor
      · intro ⟨r, hr, hm⟩
        cases List.suffix_cons_iff.mp hr with
        | inl heq => exact Or.inl (heq ▸ hm)
        | inr hsuffix => exact Or.inr ⟨c, s, r, rfl, hsuffix, hm⟩
      · intro h
        cases h with
        | inl hm => exact ⟨c :: s, List.suffix_refl _, hm⟩
        | inr hlater =>
            obtain ⟨d, rest, r, hcons, hr, hm⟩ := hlater
            exact ⟨r, hcons ▸ hr.trans (List.suffix_cons d rest), hm⟩

/-- At a run the star before it can be forgotten. -/
theorem Star.Before.many_iff {fin : List Char → Prop} (h : star.Before (.many :: p) s) :
    Matches fin p s ∨ Star.Takes (some (p, s)) fin ↔
      Matches fin (.many :: p) s ∨ star.Takes fin := by
  rw [Star.takes_some, ← matches_many_iff]
  constructor
  · exact Or.inl
  · intro hor
    cases hor with
    | inl hm => exact hm
    | inr htakes =>
        obtain ⟨x, hx, hlater⟩ := htakes
        exact (h x hx).later_many hlater

theorem matchesFrom_iff (hstar : star.Before p s) :
    matchesFrom p s star = true ↔ Matches (fun _ => True) p s ∨ star.Takes fun _ => True := by
  fun_induction matchesFrom p s star with
  | case1 s star => simp [Matches]
  | case2 s star p ih => rw [ih Star.before_some, hstar.many_iff]
  | case3 x p s star hx r hr ih =>
      rw [ih (hstar.pass hx hr), matches_cons_iff hx]
      simp [hr]
  | case4 x p s hx hr sp c ss ih =>
      rw [ih Star.before_some, matches_cons_iff hx, hr, Star.takes_some, Star.takes_some,
        later_cons]
      simp
  | case5 x p s star hx hr hnone =>
      have htakes : ¬star.Takes fun _ => True := by
        rintro ⟨y, hy, hlater⟩
        obtain ⟨c, ss, r, hcons, -⟩ := hlater
        exact hnone y.1 c ss (by rw [← hcons]; exact hy)
      rw [matches_cons_iff hx, hr]
      simp [htakes]

/-- Past the text only runs may be left. -/
theorem whole_nil_iff : Matches (· = []) p [] ↔ p.all (· = .many) = true := by
  induction p with
  | nil => simp [Matches]
  | cons x p ih =>
      cases x with
      | many =>
          rw [matches_many_iff, or_iff_left not_later_empty, ih]
          simp
      | lit c => simp [Matches]
      | one => simp [Matches]

/-- Where no run is next, the cursors move on or nothing is matched. -/
theorem whole_iff_advance {c : Char} (hp : ∀ q, p ≠ .many :: q) :
    Matches (· = []) p (c :: t) ↔
      ∃ p' t', advance p (c :: t) = some (p', t') ∧ Matches (· = []) p' t' := by
  cases p with
  | nil => simp [Matches, advance]
  | cons x p =>
      have hx : x ≠ .many := fun heq => hp p (by rw [heq])
      rw [matches_cons_iff hx]
      simp [advance]

theorem Star.Before.advance {p' : List (Pat Char)} {t' : List Char} (h : star.Before p t)
    (hp : ∀ q, p ≠ .many :: q) (hadv : advance p t = some (p', t')) : star.Before p' t' := by
  cases p with
  | nil => cases hadv
  | cons x p =>
      obtain ⟨r, hr, heq⟩ := Option.map_eq_some_iff.mp hadv
      obtain ⟨rfl, rfl⟩ := Prod.mk.inj heq
      exact h.pass (fun heq => hp p (by rw [heq])) hr

theorem globFrom_iff (hstar : star.Before p t) :
    globFrom p t star = true ↔ Matches (· = []) p t ∨ star.Takes (· = []) := by
  fun_induction globFrom p t star with
  | case1 p star =>
      have htakes : ¬star.Takes (· = []) := by
        intro ⟨y, hy, hlater⟩
        exact (hstar y hy).not_later_nil hlater
      rw [whole_nil_iff, or_iff_left htakes]
  | case2 p c t star ih => rw [ih Star.before_some, hstar.many_iff]
  | case3 p c t star hp p' t' hadv ih =>
      rw [ih (hstar.advance hp hadv), whole_iff_advance hp]
      simp [hadv]
  | case4 p c t hp hadv sp d st ih =>
      rw [ih Star.before_some, whole_iff_advance hp, hadv, Star.takes_some, Star.takes_some,
        later_cons]
      simp
  | case5 p c t hp hadv sp =>
      obtain ⟨q, u, -, -, hnil, -⟩ := (hstar _ rfl).passed
      exact absurd hnil.symm (by simp)
  | case6 p c t hp hadv =>
      rw [whole_iff_advance hp, hadv]
      simp [Star.not_takes_none]

theorem matchesAt_iff : matchesAt s p = true ↔ ∃ u, u <+: s ∧ Whole p u := by
  unfold matchesAt
  rw [matchesFrom_iff Star.before_none, or_iff_left Star.not_takes_none]
  exact start_iff

theorem glob_iff : glob p t = true ↔ Whole p t := by
  unfold glob
  rw [globFrom_iff Star.before_none, or_iff_left Star.not_takes_none]

end Loops

/-! ## Patterns as text -/

/-- A text matches a pattern: `?` is any one character, `*` any run, `~c` the
character `c`, and any other itself, whatever the case. -/
def WildMatches : List Char → List Char → Prop
  | '~' :: c :: p, t => ∃ d r, t = d :: r ∧ foldChar L c = foldChar L d ∧ WildMatches p r
  | '?' :: p, t => ∃ d r, t = d :: r ∧ WildMatches p r
  | '*' :: p, t => ∃ r, r <:+ t ∧ WildMatches p r
  | c :: p, t => ∃ d r, t = d :: r ∧ foldChar L c = foldChar L d ∧ WildMatches p r
  | [], t => t = []

variable {L}

theorem foldChar_ascii {c : Char} (h : c.toNat < 128) : foldChar L c = c.toLower := by
  unfold foldChar
  rw [L.ascii c h]
  rfl

/-- Lower case changes nothing to or from what is no letter. -/
theorem toLower_eq_iff {c w : Char} (hw : w.toNat < 65 ∨ 122 < w.toNat) :
    c.toLower = w ↔ c = w := by
  by_cases hupper : c.val ≥ 'A'.val ∧ c.val ≤ 'Z'.val
  · have hlow : 65 ≤ c.toNat := UInt32.le_iff_toNat_le.mp hupper.1
    have hhigh : c.toNat ≤ 90 := UInt32.le_iff_toNat_le.mp hupper.2
    have hne : c ≠ w := fun heq => by
      rw [heq] at hlow hhigh
      omega
    have hval : c.toLower.toNat = c.toNat + 32 := by
      unfold Char.toLower
      rw [dif_pos hupper]
      have hlt : c.val.toNat + 32 < 2 ^ 32 := by
        have heq : c.toNat = c.val.toNat := rfl
        omega
      exact (UInt32.toNat_add c.val 32).trans (Nat.mod_eq_of_lt hlt)
    constructor
    · intro heq
      rw [heq] at hval
      omega
    · intro heq
      exact absurd heq hne
  · unfold Char.toLower
    rw [dif_neg hupper]

/-- A folded character is a wildcard only where it was one. -/
theorem foldChar_eq_iff {c w : Char} (hw : w.toNat < 65 ∨ 122 < w.toNat) (hascii : w.toNat < 128) :
    foldChar L c = w ↔ c = w := by
  by_cases hc : c.toNat < 128
  · rw [foldChar_ascii hc]
    exact toLower_eq_iff hw
  · have hmem : foldChar L c ∈ L.toLowercase c := by
      unfold foldChar
      rw [List.headD_eq_head?_getD, List.head?_eq_some_head (L.ne_nil c)]
      exact List.head_mem (L.ne_nil c)
    constructor
    · intro heq
      rw [heq] at hmem
      have hlower := L.letter c w (Nat.le_of_not_lt hc) hmem hascii
      unfold Char.isLower at hlower
      rw [Bool.and_eq_true, decide_eq_true_eq, decide_eq_true_eq] at hlower
      have hlow : 97 ≤ w.toNat := UInt32.le_iff_toNat_le.mp hlower.1
      have hhigh : w.toNat ≤ 122 := UInt32.le_iff_toNat_le.mp hlower.2
      omega
    · intro heq
      rw [heq] at hc
      exact absurd hascii hc

@[simp] theorem foldChar_tilde {c : Char} : foldChar L c = '~' ↔ c = '~' :=
  foldChar_eq_iff (by decide) (by decide)

@[simp] theorem foldChar_star {c : Char} : foldChar L c = '*' ↔ c = '*' :=
  foldChar_eq_iff (by decide) (by decide)

@[simp] theorem foldChar_question {c : Char} : foldChar L c = '?' ↔ c = '?' :=
  foldChar_eq_iff (by decide) (by decide)

theorem pattern_cons {c : Char} (htilde : c ≠ '~') (hstar : c ≠ '*') (hquestion : c ≠ '?')
    (p : List Char) : pattern (c :: p) = .lit c :: pattern p := by
  rw [pattern]
  · exact fun _ _ heq => absurd heq htilde
  · exact fun heq => absurd heq htilde
  · exact hstar
  · exact hquestion

theorem wildMatches_cons {c : Char} (htilde : c ≠ '~') (hstar : c ≠ '*') (hquestion : c ≠ '?')
    (p t : List Char) : WildMatches L (c :: p) t ↔
      ∃ d r, t = d :: r ∧ foldChar L c = foldChar L d ∧ WildMatches L p r := by
  rw [WildMatches]
  · exact fun _ _ heq => absurd heq htilde
  · exact hquestion
  · exact hstar

theorem wildMatches_tilde (t : List Char) : WildMatches L ['~'] t ↔
    ∃ d r, t = d :: r ∧ foldChar L '~' = foldChar L d ∧ WildMatches L [] r := by
  rw [WildMatches]
  · exact fun _ _ _ hnil => nomatch hnil
  · exact fun heq => absurd heq (by decide)
  · exact fun heq => absurd heq (by decide)

/-- What the last case of a pattern excludes. -/
theorem ne_tilde {c : Char} {p : List Char} (hescape : ∀ n q, c = '~' → p = n :: q → False)
    (hend : c = '~' → p = [] → False) : c ≠ '~' := by
  intro heq
  cases p with
  | nil => exact hend heq rfl
  | cons n q => exact hescape n q heq rfl

/-- Folding before the pattern is read, or its literals after. -/
theorem pattern_map_foldChar (p : List Char) :
    pattern (p.map (foldChar L)) = searchPattern L p := by
  fun_induction searchPattern L p with
  | case1 n p ih =>
      rw [List.map_cons, List.map_cons, foldChar_tilde.mpr rfl, pattern, ih]
  | case2 => rw [List.map_cons, List.map_nil, foldChar_tilde.mpr rfl, pattern]
  | case3 p ih => rw [List.map_cons, foldChar_question.mpr rfl, pattern, ih]
  | case4 p ih => rw [List.map_cons, foldChar_star.mpr rfl, pattern, ih]
  | case5 c p hescape hend hquestion hstar ih =>
      have htilde := ne_tilde hescape hend
      rw [List.map_cons, pattern_cons (mt foldChar_tilde.mp htilde) (mt foldChar_star.mp hstar)
        (mt foldChar_question.mp hquestion), ih]
  | case6 => rfl

/-- A literal against a folded text. -/
theorem whole_lit_iff {c : Char} {q : List (Pat Char)} {P : List Char → Prop} (t : List Char)
    (h : ∀ r, Matches (· = []) q (r.map (foldChar L)) ↔ P r) :
    Matches (· = []) (.lit (foldChar L c) :: q) (t.map (foldChar L)) ↔
      ∃ d r, t = d :: r ∧ foldChar L c = foldChar L d ∧ P r := by
  cases t with
  | nil => simp [Matches]
  | cons d t => simp [Matches, ← h, eq_comm]

theorem whole_nil_map (t : List Char) :
    Matches (· = []) [] (t.map (foldChar L)) ↔ WildMatches L [] t := by
  rw [WildMatches]
  exact List.map_eq_nil_iff

/-- A text matches the parts of a pattern as the pattern says. -/
theorem whole_searchPattern (p t : List Char) :
    Whole (searchPattern L p) (t.map (foldChar L)) ↔ WildMatches L p t := by
  fun_induction searchPattern L p generalizing t with
  | case1 n p ih =>
      rw [WildMatches]
      exact whole_lit_iff t ih
  | case2 =>
      have htilde : foldChar L '~' = '~' := foldChar_tilde.mpr rfl
      have hlit := whole_lit_iff (L := L) (c := '~') t whole_nil_map
      rw [htilde] at hlit
      rw [wildMatches_tilde, htilde]
      exact hlit
  | case3 p ih =>
      rw [WildMatches]
      cases t with
      | nil => simp [Matches]
      | cons d t => simp [Matches, ← ih]
  | case4 p ih =>
      rw [WildMatches]
      constructor
      · rintro ⟨r, hr, hm⟩
        obtain ⟨v, hv, rfl⟩ := List.suffix_map_iff.mp hr
        exact ⟨v, hv, (ih v).mp hm⟩
      · rintro ⟨v, hv, hm⟩
        exact ⟨v.map (foldChar L), hv.map _, (ih v).mpr hm⟩
  | case5 c p hescape hend hquestion hstar ih =>
      rw [wildMatches_cons (ne_tilde hescape hend) hstar hquestion]
      exact whole_lit_iff t ih
  | case6 => exact whole_nil_map t

/-! ## Both matchers -/

/-- A text that folds to as many characters folds one by one. -/
theorem flatMap_toLowercase {hay : List Char}
    (h : (hay.flatMap L.toLowercase).length = hay.length) :
    hay.flatMap L.toLowercase = hay.map (foldChar L) := by
  have hpos : ∀ c, 0 < (L.toLowercase c).length := fun c => List.length_pos_iff.mpr (L.ne_nil c)
  have hle : ∀ s : List Char, s.length ≤ (s.flatMap L.toLowercase).length := by
    intro s
    induction s with
    | nil => exact Nat.zero_le _
    | cons c s ih =>
        have hc := hpos c
        rw [List.flatMap_cons, List.length_append, List.length_cons]
        omega
  induction hay with
  | nil => rfl
  | cons c s ih =>
      have hc := hpos c
      have hs := hle s
      rw [List.flatMap_cons, List.length_append, List.length_cons] at h
      obtain ⟨d, hd⟩ := List.length_eq_one_iff.mp (show (L.toLowercase c).length = 1 by omega)
      have hfold : foldChar L c = d := by
        unfold foldChar
        rw [hd, List.headD_cons]
      rw [List.flatMap_cons, hd, ih (by omega), List.map_cons, hfold, List.singleton_append]

/-- Where a start of the text matches a pattern. -/
def MatchesAt (L : LowerCase) (hay pattern : List Char) (i : Nat) : Prop :=
  i ≤ hay.length ∧ ∃ u, u <+: hay.drop i ∧ WildMatches L pattern u

theorem matchesAt_searchPattern (hay pattern : List Char) (i : Nat) :
    matchesAt ((hay.map (foldChar L)).drop i) (searchPattern L pattern) = true ↔
      ∃ u, u <+: hay.drop i ∧ WildMatches L pattern u := by
  rw [matchesAt_iff, ← List.map_drop]
  constructor
  · intro ⟨u, hu, hm⟩
    obtain ⟨v, hv, rfl⟩ := List.prefix_map_iff.mp hu
    exact ⟨v, hv, (whole_searchPattern pattern v).mp hm⟩
  · intro ⟨v, hv, hm⟩
    exact ⟨v.map (foldChar L), hv.map _, (whole_searchPattern pattern v).mpr hm⟩

/-- The first number of a range that passes is the least. -/
theorem find?_range'_eq_some_iff {f : Nat → Bool} {P : Nat → Prop} {start stop i : Nat}
    (hf : ∀ j, P j ↔ j < stop ∧ f j = true) :
    (List.range' start (stop - start)).find? f = some i ↔ IsLeast {j | start ≤ j ∧ P j} i := by
  rw [List.find?_range'_eq_some, List.mem_range'_1]
  constructor
  · intro ⟨hi, ⟨hge, hlt⟩, hnot⟩
    refine ⟨⟨hge, (hf i).mpr ⟨by omega, hi⟩⟩, fun j ⟨hj, hP⟩ => ?_⟩
    by_contra hlow
    have hfalse := hnot j hj (Nat.lt_of_not_le hlow)
    rw [((hf j).mp hP).2] at hfalse
    cases hfalse
  · intro ⟨⟨hge, hP⟩, hleast⟩
    obtain ⟨hlt, hi⟩ := (hf i).mp hP
    refine ⟨hi, ⟨hge, by omega⟩, fun j hj hlow => ?_⟩
    rw [Bool.not_eq_true']
    by_contra htrue
    have hle := hleast ⟨hj, (hf j).mpr ⟨by omega, by simpa using htrue⟩⟩
    omega

theorem find?_range'_eq_none_iff {f : Nat → Bool} {P : Nat → Prop} {start stop : Nat}
    (hf : ∀ j, P j ↔ j < stop ∧ f j = true) :
    (List.range' start (stop - start)).find? f = none ↔ ∀ j, start ≤ j → ¬P j := by
  rw [List.find?_range'_eq_none]
  constructor
  · intro h j hj hP
    obtain ⟨hlt, hi⟩ := (hf j).mp hP
    have hfalse := h j hj (by omega)
    rw [hi] at hfalse
    cases hfalse
  · intro h j hj hlt
    rw [Bool.not_eq_true']
    by_contra htrue
    exact h j hj ((hf j).mpr ⟨by omega, by simpa using htrue⟩)

/-- `SEARCH` where folding keeps the length. -/
theorem searchChars_eq {hay : List Char}
    (h : (hay.flatMap L.toLowercase).length = hay.length) (pattern : List Char) (start : Nat) :
    searchChars L hay pattern start =
      (List.range' start (hay.length + 1 - start)).find? fun i =>
        matchesAt ((hay.map (foldChar L)).drop i) (searchPattern L pattern) := by
  unfold searchChars
  dsimp only
  rw [if_neg (not_not.mpr h), flatMap_toLowercase h, List.length_map]

theorem matchesAt_iff_lt (hay pattern : List Char) (i : Nat) :
    MatchesAt L hay pattern i ↔ i < hay.length + 1 ∧
      matchesAt ((hay.map (foldChar L)).drop i) (searchPattern L pattern) = true := by
  rw [matchesAt_searchPattern, Nat.lt_succ_iff]
  rfl

theorem like_iff (patternText text : List Char) :
    like L patternText text = true ↔ WildMatches L patternText text := by
  unfold like
  rw [glob_iff, pattern_map_foldChar, whole_searchPattern]

/-! ## A pattern between two runs -/

/-- Whether a pattern ends in a `~` with nothing to escape. -/
def unfinished : List Char → Bool
  | '~' :: _ :: p => unfinished p
  | ['~'] => true
  | _ :: p => unfinished p
  | [] => false

theorem searchPattern_cons {c : Char} (htilde : c ≠ '~') :
    ∃ x, ∀ q, searchPattern L (c :: q) = x :: searchPattern L q := by
  by_cases hquestion : c = '?'
  · exact ⟨.one, fun q => by rw [hquestion, searchPattern]⟩
  · by_cases hstar : c = '*'
    · exact ⟨.many, fun q => by rw [hstar, searchPattern]⟩
    · refine ⟨.lit (foldChar L c), fun q => ?_⟩
      rw [searchPattern]
      · exact fun _ _ heq => absurd heq htilde
      · exact fun heq => absurd heq htilde
      · exact hquestion
      · exact hstar

theorem searchPattern_append {p : List Char} (h : unfinished p = false) :
    searchPattern L (p ++ ['*']) = searchPattern L p ++ [.many] := by
  fun_induction unfinished p with
  | case1 n p ih =>
      rw [List.cons_append, List.cons_append, searchPattern, searchPattern, ih h,
        List.cons_append]
  | case2 => cases h
  | case3 c p hescape hend ih =>
      obtain ⟨x, hx⟩ := searchPattern_cons (L := L) (ne_tilde hescape hend)
      rw [List.cons_append, hx, hx, ih h, List.cons_append]
  | case4 => rfl

/-- Between two runs a pattern matches where it does anywhere. -/
theorem like_between_iff {p : List Char} (h : unfinished p = false) (text : List Char) :
    like L ('*' :: (p ++ ['*'])) text = true ↔ ∃ i, MatchesAt L text p i := by
  rw [like_iff, ← whole_searchPattern, searchPattern, searchPattern_append h]
  constructor
  · intro ⟨r, hr, hm⟩
    obtain ⟨u, hu, hp⟩ := whole_append_many.mp hm
    obtain ⟨v, hv, rfl⟩ := List.suffix_map_iff.mp hr
    obtain ⟨w, hw, rfl⟩ := List.prefix_map_iff.mp hu
    refine ⟨text.length - v.length, Nat.sub_le _ _, w, ?_, (whole_searchPattern p w).mp hp⟩
    rw [← List.suffix_iff_eq_drop.mp hv]
    exact hw
  · intro ⟨i, _, w, hw, hp⟩
    refine ⟨(text.drop i).map (foldChar L), (List.drop_suffix i text).map _, ?_⟩
    exact whole_append_many.mpr
      ⟨w.map (foldChar L), hw.map _, (whole_searchPattern p w).mpr hp⟩

/-! ## What both compute -/

/-- `SEARCH` gives the least place where the pattern matches a start of the
text, and `glob` accepts the texts it matches whole; on ASCII text the first
finds a place where the second accepts the pattern between two runs. -/
theorem matchers_agree (L : LowerCase) :
    (∀ hay : List Char, (hay.flatMap L.toLowercase).length = hay.length →
      ∀ (pattern : List Char) (start : Nat),
        (∀ i, searchChars L hay pattern start = some i ↔
          IsLeast {j | start ≤ j ∧ MatchesAt L hay pattern j} i) ∧
        (searchChars L hay pattern start = none ↔
          ∀ j, start ≤ j → ¬MatchesAt L hay pattern j)) ∧
    (∀ patternText text : List Char,
      glob (pattern (patternText.map (foldChar L))) (text.map (foldChar L)) = true ↔
        WildMatches L patternText text) ∧
    (∀ pattern text : List Char, (∀ c ∈ pattern ++ text, c.toNat < 128) →
      unfinished pattern = false →
        ((searchChars L text pattern 0).isSome = true ↔
          like L ('*' :: (pattern ++ ['*'])) text = true)) := by
  refine ⟨fun hay hlen pattern start => ⟨fun i => ?_, ?_⟩, like_iff, ?_⟩
  · rw [searchChars_eq hlen]
    exact find?_range'_eq_some_iff (matchesAt_iff_lt hay pattern)
  · rw [searchChars_eq hlen]
    exact find?_range'_eq_none_iff (matchesAt_iff_lt hay pattern)
  · intro pattern text hascii hfinished
    have hlen : (text.flatMap L.toLowercase).length = text.length := by
      have hmap : text.flatMap L.toLowercase = text.map Char.toLower := by
        rw [← List.flatMap_pure_eq_map]
        apply List.flatMap_congr
        intro c hc
        exact L.ascii c (hascii c (List.mem_append_right pattern hc))
      rw [hmap, List.length_map]
    rw [like_between_iff hfinished, Option.isSome_iff_ne_none, ne_eq, searchChars_eq hlen,
      find?_range'_eq_none_iff (matchesAt_iff_lt text pattern)]
    simp only [Nat.zero_le, true_implies, not_forall, not_not]

/-- `N?` is first found in `ana` at 1, and `*N?*` matches the whole of it. -/
theorem matchers_agree_ana :
    searchChars .asciiOnly ['a', 'n', 'a'] ['N', '?'] 0 = some 1 ∧
      like .asciiOnly ['*', 'N', '?', '*'] ['a', 'n', 'a'] = true := by
  have hagree := matchers_agree .asciiOnly
  have hfound : searchChars .asciiOnly ['a', 'n', 'a'] ['N', '?'] 0 = some 1 := by
    refine ((hagree.1 ['a', 'n', 'a'] rfl ['N', '?'] 0).1 1).mpr ⟨⟨Nat.zero_le 1, ?_⟩, ?_⟩
    · refine ⟨by decide, ['n', 'a'], List.prefix_rfl, ?_⟩
      simp [WildMatches, foldChar, LowerCase.asciiOnly]
    · intro j ⟨_, hj, u, hu, hm⟩
      by_contra hlow
      obtain rfl : j = 0 := by omega
      rw [wildMatches_cons (by decide) (by decide) (by decide)] at hm
      obtain ⟨d, r, rfl, hd, -⟩ := hm
      obtain ⟨rfl, -⟩ := List.cons_prefix_cons.mp hu
      exact absurd hd (by decide)
  refine ⟨hfound, ?_⟩
  have hall : (['N', '?'] ++ ['a', 'n', 'a']).all (fun c => c.toNat < 128) = true := rfl
  have hascii : ∀ c ∈ ['N', '?'] ++ ['a', 'n', 'a'], c.toNat < 128 := fun c hc =>
    of_decide_eq_true (List.all_eq_true.mp hall c hc)
  have hiff := hagree.2.2 ['N', '?'] ['a', 'n', 'a'] hascii rfl
  rw [hfound] at hiff
  exact hiff.mp rfl

end Improv.Engine.WildcardMatchers
