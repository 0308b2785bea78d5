import Improv.CoreModel.Tokenizer
import Improv.Lib.ExceptLemmas
/-!
# Lexemes

What the tokenizer reads, told of characters instead of bytes: a text begins with a
lexeme, and what follows it is read in turn.  Every slice of the byte loop is between
characters, and every loop ends, so the two agree.
-/

namespace Improv.CoreModel

/-- An error some bytes on. -/
def ParseError.shift (k : Nat) (e : ParseError) : ParseError :=
  ⟨e.message, e.position.map (· + k)⟩

namespace Parser

open Improv.Lib Improv.Lib.Decimal
open ByteOffsets (bytes sliceFrom slice bytes_append bytes_cons bytes_nil)
open Utf8 (encode byte Agrees)

/-! ## One lexeme -/

/-- What stands between quotes, a doubled one meaning one, and what follows the
closing quote. -/
def quoted (q : Char) : List Char → Option (List Char × List Char)
  | [] => none
  | c :: s =>
    if c = q then
      match s with
      | d :: t =>
        if d = q then (quoted q t).map fun p => (q :: p.1, p.2) else some ([], d :: t)
      | [] => some ([], [])
    else (quoted q s).map fun p => (c :: p.1, p.2)

/-- A number's digits and points, a digit after each point, and what follows. -/
def digitRun : List Char → List Char × List Char
  | [] => ([], [])
  | c :: s =>
    if isDigit c || (c = '.' && s.head?.any isDigit) then (c :: (digitRun s).1, (digitRun s).2)
    else ([], c :: s)

/-- The sign of an exponent, and what follows. -/
def signRun : List Char → List Char × List Char
  | [] => ([], [])
  | c :: s => if c = '+' ∨ c = '-' then ([c], s) else ([], c :: s)

/-- The exponent after a number's digits, what follows it, and whether it has digits
where it is there. -/
def exponentRun : List Char → List Char × List Char × Bool
  | [] => ([], [], true)
  | c :: s =>
    if c = 'e' ∨ c = 'E' then
      (c :: ((signRun s).1 ++ (signRun s).2.takeWhile isDigit),
        (signRun s).2.dropWhile isDigit, (signRun s).2.takeWhile isDigit ≠ [])
    else ([], c :: s, true)

/-- The number literal a text begins with, and what follows. -/
def numberLexeme (pos : Nat) (s : List Char) : Except ParseError (Tok × List Char) :=
  let (run, rest) := digitRun s
  let (exp, rest, hasDigits) := exponentRun rest
  let raw := String.ofList (run ++ exp)
  if hasDigits = false then .error ⟨s!"exponent without digits: {raw}", some pos⟩
  else
    match parseF64 raw with
    | none => .error ⟨s!"invalid number: {raw}", some pos⟩
    | some (.inf _) =>
      .error ⟨s!"number out of range: {raw} (the largest is about 1.8e308)", some pos⟩
    | some n => .ok (.number n, rest)

variable (lib : Library) (fns : Registry)

/-- The longest run of `.part`s after a word that makes it the name of a function
before a parenthesis, and what follows. -/
def dottedName : (parts : Nat) → (word rest : List Char) → Option (List Char × List Char)
  | 0, _, _ => none
  | parts + 1, word, rest =>
    match rest with
    | '.' :: c :: s =>
      if lib.isWord c then
        let word := word ++ '.' :: (c :: s).takeWhile lib.isWord
        let rest := (c :: s).dropWhile lib.isWord
        (dottedName parts word rest).or
          (if (rest.dropWhile isWhitespace).head? = some '(' ∧ fns.byName (.ofList word) ≠ [] then
            some (word, rest) else none)
      else none
    | _ => none

/-- The word a text begins with, and what follows. -/
def wordLexeme (c : Char) (s : List Char) : List Char × List Char :=
  let word := c :: s.takeWhile lib.isWord
  let rest := s.dropWhile lib.isWord
  (dottedName lib fns 3 word rest).getD (word, rest)

/-- The punctuation a text begins with, and what follows. -/
def opLexeme (c : Char) (s : List Char) : Option (String × List Char) :=
  match s with
  | d :: t =>
    if String.ofList [c, d] ∈ twoCharOps then some (.ofList [c, d], t)
    else if c ∈ singleOps then some (.ofList [c], d :: t) else none
  | [] => if c ∈ singleOps then some (.ofList [c], []) else none

/-- Whether a name begins with this character before this text. -/
def Library.startsName (c : Char) (s : List Char) : Bool :=
  lib.isAlphabetic c || c = '_' || (c = '@' && s.head?.any lib.isAlphabetic)

/-- What a text begins with, a token unless it is whitespace, and what follows. -/
def lexeme (pos : Nat) (c : Char) (s : List Char) :
    Except ParseError (Option Tok × List Char) :=
  if isWhitespace c then .ok (none, s)
  else if c = '"' then
    match quoted '"' s with
    | none => .error ⟨"unterminated string literal", some pos⟩
    | some (body, rest) => .ok (some (.str (.ofList body)), rest)
  else if c = '#' then
    match s.dropWhile (· ≠ '#') with
    | [] => .error ⟨"unterminated date literal", some pos⟩
    | _ :: rest =>
      let raw := s.takeWhile (· ≠ '#')
      match lib.parseDateLiteral raw with
      | none => .error ⟨s!"invalid date: {lib.debug (.ofList raw)}", some pos⟩
      | some t => .ok (some (.date t), rest)
  else if isDigit c then (numberLexeme pos (c :: s)).map fun p => (some p.1, p.2)
  else if c = '\'' then
    match quoted '\'' s with
    | none => .error ⟨"unterminated quoted name", some pos⟩
    | some (name, rest) =>
      if name = [] then .error ⟨"empty quoted name: '' names nothing", some pos⟩
      else .ok (some (.qIdent (.ofList name)), rest)
  else if lib.startsName c s then
    .ok (some (.ident (.ofList (wordLexeme lib fns c s).1)), (wordLexeme lib fns c s).2)
  else
    match opLexeme c s with
    | some (o, rest) => .ok (some (.op o), rest)
    | none => .error ⟨s!"unexpected character: {lib.debugChar c}", some pos⟩

/-- The tokens of a text; `fuel` bounds its characters. -/
def tokens : (fuel pos : Nat) → List Char → Except ParseError (List Spanned)
  | _, _, [] => .ok []
  | 0, _, _ :: _ => .ok []
  | fuel + 1, pos, c :: s => do
    let (tok, rest) ← lexeme lib fns pos c s
    let toks ← tokens fuel (pos + (bytes (c :: s) - bytes rest)) rest
    .ok ((tok.map fun t => ⟨t, pos⟩).toList ++ toks)

/-! ## Quotes -/

/-- A text with its quotes doubled. -/
def doubled (q : Char) (s : List Char) : List Char :=
  s.flatMap fun c => if c = q then [q, q] else [c]

theorem quoted_cons_of_ne {q c : Char} (h : c ≠ q) (s : List Char) :
    quoted q (c :: s) = (quoted q s).map fun p => (c :: p.1, p.2) := by
  rw [quoted.eq_def]
  exact if_neg h

theorem quoted_quote (q : Char) (s : List Char) :
    quoted q (q :: s) =
      if s.head? = some q then (quoted q s.tail).map fun p => (q :: p.1, p.2)
      else some ([], s) := by
  rw [quoted.eq_def]
  cases s with
  | nil => simp
  | cons d t =>
      by_cases hd : d = q
      · simp [hd]
      · simp [hd]

theorem quoted_eq (q : Char) (s : List Char) :
    quoted q s =
      match s.dropWhile (· ≠ q) with
      | [] => none
      | _ :: t =>
        if t.head? = some q then
          (quoted q t.tail).map fun p => (s.takeWhile (· ≠ q) ++ q :: p.1, p.2)
        else some (s.takeWhile (· ≠ q), t) := by
  induction s with
  | nil => rfl
  | cons c s ih =>
      by_cases hc : c = q
      · have hneg : ¬decide (c ≠ q) = true := by simpa using hc
        rw [List.dropWhile_cons, List.takeWhile_cons, if_neg hneg, if_neg hneg, hc, quoted_quote]
        rfl
      · have hpos : decide (c ≠ q) = true := decide_eq_true hc
        rw [List.dropWhile_cons, List.takeWhile_cons, if_pos hpos, if_pos hpos,
          quoted_cons_of_ne hc, ih]
        cases s.dropWhile (· ≠ q) with
        | nil => rfl
        | cons d t =>
            simp only
            split
            · rw [Option.map_map]
              rfl
            · rfl

theorem dropWhile_head {q : Char} {s t : List Char} {c : Char}
    (h : s.dropWhile (· ≠ q) = c :: t) : c = q := by
  have hhead := List.head?_dropWhile_not (p := (· ≠ q)) s
  rw [h] at hhead
  simpa using hhead

/-- Quotes are read as they are printed: the content doubled, and no third quote after
the closing one. -/
theorem quoted_eq_some_iff (q : Char) (s body rest : List Char) :
    quoted q s = some (body, rest) ↔ s = doubled q body ++ q :: rest ∧ rest.head? ≠ some q := by
  constructor
  · intro h
    induction hn : s.length using Nat.strong_induction_on generalizing s body with
    | _ n ih =>
        cases s with
        | nil => cases h
        | cons c s =>
            by_cases hc : c = q
            · subst hc
              rw [quoted_quote] at h
              by_cases hdouble : s.head? = some c
              · obtain ⟨t, rfl⟩ : ∃ t, s = c :: t := by
                  cases s with
                  | nil => cases hdouble
                  | cons d t => exact ⟨t, by rw [Option.some.inj hdouble]⟩
                rw [if_pos hdouble, List.tail_cons, Option.map_eq_some_iff] at h
                obtain ⟨⟨body', rest'⟩, hrec, heq⟩ := h
                cases heq
                obtain ⟨htext, hrest⟩ := ih t.length (by simp at hn; omega) t body' hrec rfl
                refine ⟨?_, hrest⟩
                rw [htext]
                unfold doubled
                rw [List.flatMap_cons, if_pos rfl]
                rfl
              · rw [if_neg hdouble] at h
                cases h
                exact ⟨rfl, hdouble⟩
            · rw [quoted_cons_of_ne hc, Option.map_eq_some_iff] at h
              obtain ⟨⟨body', rest'⟩, hrec, heq⟩ := h
              cases heq
              obtain ⟨htext, hrest⟩ := ih s.length (by simp at hn; omega) s body' hrec rfl
              refine ⟨?_, hrest⟩
              rw [htext]
              unfold doubled
              rw [List.flatMap_cons, if_neg hc]
              rfl
  · rintro ⟨rfl, hrest⟩
    induction body with
    | nil => exact (quoted_quote q rest).trans (if_neg hrest)
    | cons c body ih =>
        unfold doubled at ih ⊢
        rw [List.flatMap_cons]
        by_cases hc : c = q
        · subst hc
          have hhead : (c :: (body.flatMap (fun d => if d = c then [c, c] else [d]) ++
              c :: rest)).head? = some c := rfl
          rw [if_pos rfl, List.cons_append, List.singleton_append, List.cons_append,
            List.cons_append, quoted_quote, if_pos hhead, List.tail_cons, ih]
          rfl
        · rw [if_neg hc, List.cons_append, List.nil_append, List.cons_append,
            quoted_cons_of_ne hc, ih]
          rfl

/-! ## Runs -/

theorem digitRun_append (s : List Char) : (digitRun s).1 ++ (digitRun s).2 = s := by
  induction s with
  | nil => rfl
  | cons c s ih =>
      rw [digitRun]
      split
      · rw [List.cons_append, ih]
      · rfl

theorem signRun_append (s : List Char) : (signRun s).1 ++ (signRun s).2 = s := by
  cases s with
  | nil => rfl
  | cons c s =>
      rw [signRun]
      split <;> rfl

theorem exponentRun_append (s : List Char) :
    (exponentRun s).1 ++ (exponentRun s).2.1 = s := by
  cases s with
  | nil => rfl
  | cons c s =>
      rw [exponentRun]
      split
      · rw [List.cons_append, List.append_assoc, List.takeWhile_append_dropWhile, signRun_append]
      · rfl

section Names

variable (lib : Library) (fns : Registry)

theorem dottedName_dot (parts : Nat) (word : List Char) (c : Char) (s : List Char) :
    dottedName lib fns (parts + 1) word ('.' :: c :: s) =
      if lib.isWord c then
        (dottedName lib fns parts (word ++ '.' :: (c :: s).takeWhile lib.isWord)
          ((c :: s).dropWhile lib.isWord)).or
          (if (((c :: s).dropWhile lib.isWord).dropWhile isWhitespace).head? = some '(' ∧
              fns.byName (.ofList (word ++ '.' :: (c :: s).takeWhile lib.isWord)) ≠ [] then
            some (word ++ '.' :: (c :: s).takeWhile lib.isWord, (c :: s).dropWhile lib.isWord)
          else none)
      else none := rfl

theorem dottedName_of_ne {c : Char} (hc : c ≠ '.') (parts : Nat) (word s : List Char) :
    dottedName lib fns (parts + 1) word (c :: s) = none := by
  unfold dottedName
  split
  · next heq => exact absurd (List.cons.inj heq).1 hc
  · rfl

/-- A dotted name is the word with more of the text. -/
theorem dottedName_extends {parts : Nat} {word rest w r : List Char}
    (h : dottedName lib fns parts word rest = some (w, r)) :
    ∃ more, w = word ++ more ∧ rest = more ++ r := by
  induction parts generalizing word rest with
  | zero => cases h
  | succ parts ih =>
      cases rest with
      | nil => cases h
      | cons c s =>
          by_cases hc : c = '.'
          · subst hc
            cases s with
            | nil => cases h
            | cons d s =>
                have hsplit := List.takeWhile_append_dropWhile (p := lib.isWord) (l := d :: s)
                rw [dottedName_dot] at h
                by_cases hd : lib.isWord d = true
                · rw [if_pos hd] at h
                  generalize (d :: s).takeWhile lib.isWord = part at h hsplit
                  generalize (d :: s).dropWhile lib.isWord = tail at h hsplit
                  cases hrec : dottedName lib fns parts (word ++ '.' :: part) tail with
                  | some p =>
                      rw [hrec, Option.some_or] at h
                      obtain ⟨more, hw, hr⟩ := ih (hrec.trans h)
                      refine ⟨'.' :: part ++ more, ?_, ?_⟩
                      · rw [hw, List.append_assoc]
                      · rw [List.append_assoc, ← hr, List.cons_append, hsplit]
                  | none =>
                      rw [hrec, Option.none_or] at h
                      split at h
                      · cases h
                        exact ⟨'.' :: part, rfl, by rw [List.cons_append, hsplit]⟩
                      · cases h
                · rw [if_neg hd] at h
                  cases h
          · rw [dottedName_of_ne lib fns hc] at h
            cases h

/-- The word that a text begins with begins with its first character. -/
theorem wordLexeme_extends (c : Char) (s : List Char) :
    ∃ more, (wordLexeme lib fns c s).1 = c :: more ∧ s = more ++ (wordLexeme lib fns c s).2 := by
  have hsplit := List.takeWhile_append_dropWhile (p := lib.isWord) (l := s)
  unfold wordLexeme
  cases hdotted : dottedName lib fns 3 (c :: s.takeWhile lib.isWord) (s.dropWhile lib.isWord) with
  | none =>
      simp only [hdotted, Option.getD_none]
      exact ⟨_, rfl, hsplit.symm⟩
  | some p =>
      obtain ⟨more, hw, hr⟩ := dottedName_extends lib fns hdotted
      simp only [hdotted, Option.getD_some]
      refine ⟨s.takeWhile lib.isWord ++ more, hw, ?_⟩
      rw [List.append_assoc, ← hr, hsplit]

theorem wordLexeme_append (c : Char) (s : List Char) :
    (wordLexeme lib fns c s).1 ++ (wordLexeme lib fns c s).2 = c :: s := by
  obtain ⟨more, hw, hs⟩ := wordLexeme_extends lib fns c s
  rw [hw, List.cons_append, ← hs]

end Names

/-! ## Spellings -/

/-- A text that spells a token. -/
def Spells (lib : Library) : Tok → List Char → Prop
  | .ident w, lex => lex = w.toList
  | .qIdent w, lex => w ≠ "" ∧ lex = '\'' :: (doubled '\'' w.toList ++ ['\''])
  | .number n, lex => parseF64 (.ofList lex) = some n
  | .str s, lex => lex = '"' :: (doubled '"' s.toList ++ ['"'])
  | .date t, lex =>
    ∃ raw, lex = '#' :: (raw ++ ['#']) ∧ '#' ∉ raw ∧ lib.parseDateLiteral raw = some t
  | .op o, lex => lex = o.toList

section Spellings

variable (lib : Library) (fns : Registry)

theorem numberLexeme_spells {pos : Nat} {s rest : List Char} {tok : Tok}
    (h : numberLexeme pos s = .ok (tok, rest)) :
    ∃ n lex, tok = .number n ∧ s = lex ++ rest ∧ parseF64 (.ofList lex) = some n := by
  have hrun := digitRun_append s
  have hexp := exponentRun_append (digitRun s).2
  unfold numberLexeme at h
  simp only at h
  split at h
  · cases h
  · split at h
    · cases h
    · cases h
    · next n hfinite hread =>
        cases h
        refine ⟨n, (digitRun s).1 ++ (exponentRun (digitRun s).2).1, rfl, ?_, hread⟩
        rw [List.append_assoc, hexp, hrun]

theorem opLexeme_spells {c : Char} {s rest : List Char} {o : String}
    (h : opLexeme c s = some (o, rest)) : c :: s = o.toList ++ rest ∧ o.toList ≠ [] := by
  unfold opLexeme at h
  split at h
  · split at h
    · cases h
      rw [String.toList_ofList]
      exact ⟨rfl, List.cons_ne_nil _ _⟩
    · split at h
      · cases h
        rw [String.toList_ofList]
        exact ⟨rfl, List.cons_ne_nil _ _⟩
      · cases h
  · split at h
    · cases h
      rw [String.toList_ofList]
      exact ⟨rfl, List.cons_ne_nil _ _⟩
    · cases h

/-- A text begins with whitespace, or with the spelling of its first token. -/
theorem lexeme_spells {pos : Nat} {c : Char} {s rest : List Char} {tok : Option Tok}
    (h : lexeme lib fns pos c s = .ok (tok, rest)) :
    (tok = none ∧ isWhitespace c = true ∧ rest = s) ∨
      ∃ t lex, tok = some t ∧ c :: s = lex ++ rest ∧ lex ≠ [] ∧ Spells lib t lex := by
  unfold lexeme at h
  by_cases hspace : isWhitespace c = true
  · rw [if_pos hspace] at h
    cases h
    exact .inl ⟨rfl, hspace, rfl⟩
  rw [if_neg hspace] at h
  right
  by_cases hstring : c = '"'
  · rw [if_pos hstring] at h
    split at h
    · cases h
    · next body rest' hquoted =>
        cases h
        obtain ⟨htext, -⟩ := (quoted_eq_some_iff _ _ _ _).mp hquoted
        refine ⟨_, '"' :: (doubled '"' body ++ ['"']), rfl, ?_, List.cons_ne_nil _ _, ?_⟩
        · rw [hstring, htext, List.cons_append, List.append_assoc]
          rfl
        · show _ = '"' :: (doubled '"' (String.ofList body).toList ++ ['"'])
          rw [String.toList_ofList]
  rw [if_neg hstring] at h
  by_cases hdate : c = '#'
  · have hsplit := List.takeWhile_append_dropWhile (p := (· ≠ '#')) (l := s)
    have hclean : '#' ∉ s.takeWhile (· ≠ '#') := fun hmem => by
      simpa using List.mem_takeWhile_imp hmem
    rw [if_pos hdate] at h
    split at h
    · cases h
    · next d rest' hdrop =>
        simp only at h
        split at h
        · cases h
        · next t hparse =>
            cases h
            rw [hdrop, dropWhile_head hdrop] at hsplit
            refine ⟨_, '#' :: (s.takeWhile (· ≠ '#') ++ ['#']), rfl, ?_, List.cons_ne_nil _ _,
              s.takeWhile (· ≠ '#'), rfl, hclean, hparse⟩
            rw [hdate, List.cons_append, List.append_assoc]
            exact congrArg _ hsplit.symm
  rw [if_neg hdate] at h
  by_cases hdigit : isDigit c = true
  · rw [if_pos hdigit] at h
    cases hnumber : numberLexeme pos (c :: s) with
    | error e =>
        rw [hnumber] at h
        cases h
    | ok p =>
        rw [hnumber] at h
        cases h
        obtain ⟨n, lex, htok, htext, hread⟩ := numberLexeme_spells hnumber
        refine ⟨p.1, lex, rfl, htext, ?_, htok ▸ hread⟩
        rintro rfl
        cases hread
  rw [if_neg hdigit] at h
  by_cases hname : c = '\''
  · rw [if_pos hname] at h
    split at h
    · cases h
    · next name rest' hquoted =>
        by_cases hempty : name = []
        · rw [if_pos hempty] at h
          cases h
        · rw [if_neg hempty] at h
          cases h
          obtain ⟨htext, -⟩ := (quoted_eq_some_iff _ _ _ _).mp hquoted
          refine ⟨_, '\'' :: (doubled '\'' name ++ ['\'']), rfl, ?_, List.cons_ne_nil _ _, ?_, ?_⟩
          · rw [hname, htext, List.cons_append, List.append_assoc]
            rfl
          · intro h
            apply hempty
            rw [← String.toList_ofList (l := name), h]
            rfl
          · rw [String.toList_ofList]
  rw [if_neg hname] at h
  by_cases hword : lib.startsName c s = true
  · rw [if_pos hword] at h
    cases h
    have happend := wordLexeme_append lib fns c s
    obtain ⟨more, hw, -⟩ := wordLexeme_extends lib fns c s
    refine ⟨_, (wordLexeme lib fns c s).1, rfl, happend.symm, ?_, ?_⟩
    · rw [hw]
      exact List.cons_ne_nil _ _
    · exact (String.toList_ofList ..).symm
  rw [if_neg hword] at h
  split at h
  · next o rest' hop =>
      cases h
      obtain ⟨htext, hne⟩ := opLexeme_spells hop
      exact ⟨_, o.toList, rfl, htext, hne, rfl⟩
  · cases h

theorem lexeme_append {pos : Nat} {c : Char} {s rest : List Char} {tok : Option Tok}
    (h : lexeme lib fns pos c s = .ok (tok, rest)) : ∃ lex, c :: s = lex ++ rest ∧ lex ≠ [] := by
  rcases lexeme_spells lib fns h with ⟨-, -, rfl⟩ | ⟨t, lex, -, htext, hne, -⟩
  · exact ⟨[c], rfl, List.cons_ne_nil _ _⟩
  · exact ⟨lex, htext, hne⟩

theorem length_lexeme_lt {pos : Nat} {c : Char} {s rest : List Char} {tok : Option Tok}
    (h : lexeme lib fns pos c s = .ok (tok, rest)) : rest.length < (c :: s).length := by
  obtain ⟨lex, htext, hne⟩ := lexeme_append lib fns h
  have hpos := List.length_pos_iff.mpr hne
  rw [htext, List.length_append]
  omega

/-- A text cut into whitespace and the spellings of its tokens, each at its byte. -/
inductive Pieces : Nat → List Char → List Spanned → Prop
  | nil {pos : Nat} : Pieces pos [] []
  | blank {pos : Nat} {c : Char} {s : List Char} {toks : List Spanned}
    (hspace : isWhitespace c = true) (hrest : Pieces (pos + c.utf8Size) s toks) :
    Pieces pos (c :: s) toks
  | token {pos : Nat} {lex s : List Char} {tok : Tok} {toks : List Spanned} (hne : lex ≠ [])
    (hspells : Spells lib tok lex) (hrest : Pieces (pos + bytes lex) s toks) :
    Pieces pos (lex ++ s) (⟨tok, pos⟩ :: toks)

theorem tokens_pieces {fuel pos : Nat} {s : List Char} {toks : List Spanned}
    (hfuel : s.length ≤ fuel) (h : tokens lib fns fuel pos s = .ok toks) :
    Pieces lib pos s toks := by
  induction fuel generalizing pos s toks with
  | zero =>
      obtain rfl : s = [] := List.length_eq_zero_iff.mp (Nat.le_zero.mp hfuel)
      cases h
      exact .nil
  | succ fuel ih =>
      cases s with
      | nil =>
          cases h
          exact .nil
      | cons c s =>
          rw [tokens, bind_eq_ok_iff] at h
          obtain ⟨⟨tok, rest⟩, hlex, h⟩ := h
          have hlt := length_lexeme_lt lib fns hlex
          simp only at h
          rw [bind_eq_ok_iff] at h
          obtain ⟨toks', hrec, hout⟩ := h
          cases hout
          have hpieces := ih (by omega) hrec
          rcases lexeme_spells lib fns hlex with ⟨rfl, hspace, rfl⟩ |
            ⟨t, lex, rfl, htext, hne, hspells⟩
          · rw [bytes_cons, Nat.add_sub_cancel] at hpieces
            exact .blank hspace hpieces
          · rw [htext, bytes_append, Nat.add_sub_cancel] at hpieces
            rw [htext]
            exact .token hne hspells hpieces

/-- Where a token's text begins. -/
theorem Pieces.starts {pos : Nat} {s : List Char} {toks : List Spanned}
    (h : Pieces lib pos s toks) {t : Spanned} (ht : t ∈ toks) :
    ∃ before lex rest, s = before ++ (lex ++ rest) ∧ t.pos = pos + bytes before ∧
      lex ≠ [] ∧ Spells lib t.tok lex := by
  induction h with
  | nil => cases ht
  | @blank pos c s toks hspace hrest ih =>
      obtain ⟨before, lex, rest, htext, hpos, hlex⟩ := ih ht
      refine ⟨c :: before, lex, rest, by rw [htext, List.cons_append], ?_, hlex⟩
      rw [hpos, bytes_cons, Nat.add_assoc]
  | @token pos lex s tok toks hne hspells hrest ih =>
      rcases List.mem_cons.mp ht with rfl | ht
      · exact ⟨[], lex, s, rfl, rfl, hne, hspells⟩
      · obtain ⟨before, lex', rest, htext, hpos, hlex⟩ := ih ht
        refine ⟨lex ++ before, lex', rest, by rw [htext, List.append_assoc], ?_, hlex⟩
        rw [hpos, bytes_append, Nat.add_assoc]

theorem bytes_pos {s : List Char} (h : s ≠ []) : 0 < bytes s := by
  have hle := ByteOffsets.length_le_bytes s
  have hlen := List.length_pos_iff.mpr h
  omega

theorem Pieces.increasing {pos : Nat} {s : List Char} {toks : List Spanned}
    (h : Pieces lib pos s toks) : toks.Pairwise fun a b => a.pos < b.pos := by
  induction h with
  | nil => exact .nil
  | blank hspace hrest ih => exact ih
  | @token pos lex s tok toks hne hspells hrest ih =>
      refine List.pairwise_cons.mpr ⟨fun t ht => ?_, ih⟩
      obtain ⟨before, lex', rest, -, hpos, -⟩ := hrest.starts lib ht
      have hlex := bytes_pos hne
      show pos < t.pos
      omega

/-! ## Elsewhere in a text -/

/-- A token some bytes on. -/
def Spanned.shift (k : Nat) (t : Spanned) : Spanned := ⟨t.tok, t.pos + k⟩

end Spellings

section Shifts

variable (lib : Library) (fns : Registry)

theorem numberLexeme_shift (k pos : Nat) (s : List Char) :
    numberLexeme (pos + k) s = (numberLexeme pos s).mapError (·.shift k) := by
  unfold numberLexeme
  simp only
  split
  · rfl
  · split <;> rfl

theorem lexeme_shift (k pos : Nat) (c : Char) (s : List Char) :
    lexeme lib fns (pos + k) c s = (lexeme lib fns pos c s).mapError (·.shift k) := by
  unfold lexeme
  split
  · rfl
  split
  · split <;> rfl
  split
  · split
    · rfl
    · simp only
      split <;> rfl
  split
  · rw [numberLexeme_shift]
    cases numberLexeme pos (c :: s) <;> rfl
  split
  · split
    · rfl
    · split <;> rfl
  split
  · rfl
  split <;> rfl

/-- More fuel and a later place read the same tokens, that much later. -/
theorem tokens_shift (k : Nat) {fuel fuel' : Nat} (pos : Nat) (s : List Char)
    (hfuel : s.length ≤ fuel) (hfuel' : s.length ≤ fuel') :
    tokens lib fns fuel' (pos + k) s =
      ((tokens lib fns fuel pos s).map (·.map (Spanned.shift k))).mapError (·.shift k) := by
  induction fuel generalizing fuel' pos s with
  | zero =>
      obtain rfl : s = [] := List.length_eq_zero_iff.mp (Nat.le_zero.mp hfuel)
      cases fuel' <;> rfl
  | succ fuel ih =>
      cases s with
      | nil => cases fuel' <;> rfl
      | cons c s =>
          obtain ⟨fuel', rfl⟩ : ∃ f, fuel' = f + 1 := ⟨fuel' - 1, by simp at hfuel'; omega⟩
          rw [tokens, tokens, lexeme_shift]
          cases hlex : lexeme lib fns pos c s with
          | error e => rfl
          | ok p =>
              have hlt := length_lexeme_lt lib fns hlex
              have hrec := @ih fuel' (pos + (bytes (c :: s) - bytes p.2)) p.2 (by omega) (by omega)
              rw [Nat.add_right_comm] at hrec
              show (tokens lib fns fuel' (pos + k + (bytes (c :: s) - bytes p.2)) p.2 >>= _) =
                Except.mapError _ (Except.map _
                  (tokens lib fns fuel (pos + (bytes (c :: s) - bytes p.2)) p.2 >>= _))
              rw [hrec]
              cases tokens lib fns fuel (pos + (bytes (c :: s) - bytes p.2)) p.2 with
              | error e => rfl
              | ok toks =>
                  cases p.1 <;> rfl

end Shifts

end Parser

end Improv.CoreModel
