import Improv.CoreModel.ByteLoop
/-!
# Names and literals as a formula prints them

A name is printed bare where it is one word and no keyword, else in quotes; a text in
quotes; a number by its shortest digits.  The tokenizer reads each as one token,
whatever follows it, unless that goes on with it: a point and a digit after a number
without an exponent, or the rest of a function's dotted name after a bare word.
-/

namespace Improv.Client

open Improv.Lib Improv.Lib.Decimal Improv.CoreModel Improv.CoreModel.Parser
open ByteOffsets (bytes bytes_append bytes_cons bytes_nil)
open Shortest (Written exponentText)

/-! ## Printing -/

def keywords : List String :=
  ["NOT", "AND", "OR", "OVER", "TRUE", "FALSE", "WHERE", "INTO", "EXCEPT", "ALL"]

/-- A text between quotes, those in it doubled. -/
def inQuotes (q : Char) (s : String) : String := .ofList (q :: (doubled q s.toList ++ [q]))

/-- A name that is read as one word. -/
def isBare (lib : Library) (name : String) : Bool :=
  match name.toList with
  | [] => false
  | c :: cs => (lib.isAlphabetic c || c = '_') && cs.all lib.isWord

/-- A name as it is printed; none where it is empty. -/
def ident (lib : Library) (name : String) : Option String :=
  if isBare lib name && !keywords.any (eqIgnoreAsciiCase name) then some name
  else if name ≠ "" then some (inQuotes '\'' name)
  else none

def isControl (c : Char) : Bool :=
  let n := c.toNat
  n < 0x20 || (0x7f ≤ n && n ≤ 0x9f)

def literal (lib : Library) : Value → Option String
  | .number n => numberLiteral n
  | .boolean b => some (if b then "TRUE" else "FALSE")
  | .text t =>
    if !t.toList.contains '\\' && !t.toList.any isControl then some (inQuotes '"' t) else none
  | .dateTime d => some ("#" ++ lib.toRfc3339 d ++ "#")
  | .enum _ => none
  | .error _ => none

/-! ## What follows -/

/-- A text that is empty or begins with a space or punctuation. -/
def Follows (rest : List Char) : Prop :=
  ∀ c s, rest = c :: s → isWhitespace c = true ∨ (opLexeme c s).isSome = true

def opStarts : List Char := "+-*/^=<>()[],.&%!".toList

theorem mem_opStarts {c : Char} {s : List Char} (h : (opLexeme c s).isSome = true) :
    c ∈ opStarts := by
  have hsingle : c ∈ singleOps → c ∈ opStarts := by
    intro hmem
    have hsub : singleOps ++ ['!'] = opStarts := by decide
    rw [← hsub]
    exact List.mem_append_left _ hmem
  have htwo : ∀ d, String.ofList [c, d] ∈ twoCharOps → c ∈ opStarts := by
    intro d hmem
    have hhead : ∀ o ∈ twoCharOps, ∀ e ∈ o.toList.head?, e ∈ opStarts := by
      intro o ho
      simp only [twoCharOps, List.mem_cons, List.not_mem_nil, or_false] at ho
      rcases ho with rfl | rfl | rfl | rfl | rfl | rfl
      all_goals
        intro e he
        cases he
        decide
    apply hhead _ hmem
    rw [String.toList_ofList]
    rfl
  unfold opLexeme at h
  split at h
  · split at h
    · next hop => exact htwo _ hop
    · split at h
      · next hop => exact hsingle hop
      · cases h
  · split at h
    · next hop => exact hsingle hop
    · cases h

variable {lib : Library} {fns : Registry}

/-- A character that goes on with no lexeme before it. -/
structure Separates (lib : Library) (c : Char) : Prop where
  word : lib.isWord c = false
  digit : isDigit c = false
  exponent : ¬(c = 'e' ∨ c = 'E')
  quote : c ≠ '"' ∧ c ≠ '\''

theorem separates_of_ascii {c : Char} (hascii : c.toNat < 128) (halpha : c.isAlpha = false)
    (hdigit : c.isDigit = false) (hunderscore : c ≠ '_') (hquote : c ≠ '"' ∧ c ≠ '\'') :
    Separates lib c where
  word := by
    unfold Library.isWord
    rw [lib.alphabetic_ascii c hascii, lib.numeric_ascii c hascii, halpha, hdigit,
      decide_eq_false hunderscore]
    rfl
  digit := hdigit
  exponent := by
    rintro (rfl | rfl)
    · exact absurd halpha (by decide)
    · exact absurd halpha (by decide)
  quote := hquote

theorem separates_of_whitespace {c : Char} (h : isWhitespace c = true) : Separates lib c := by
  have hne : ∀ d : Char, isWhitespace d = false → c ≠ d := fun d hd heq => by
    rw [heq, hd] at h
    cases h
  obtain ⟨halpha, hnumeric⟩ := lib.not_whitespace c h
  refine ⟨?_, ?_, ?_, hne _ (by decide), hne _ (by decide)⟩
  · unfold Library.isWord
    rw [halpha, hnumeric, decide_eq_false (hne '_' (by decide))]
    rfl
  · by_cases hascii : c.toNat < 128
    · exact (lib.numeric_ascii c hascii).symm.trans hnumeric
    · exact agrees_digit.charWide c (by omega)
  · rintro (rfl | rfl)
    · cases h
    · cases h

theorem Follows.separates {rest : List Char} (h : Follows rest) :
    ∀ c ∈ rest.head?, Separates lib c := by
  intro c hc
  cases rest with
  | nil => cases hc
  | cons d s =>
      cases hc
      rcases h c s rfl with hspace | hop
      · exact separates_of_whitespace hspace
      · have hall : ∀ e ∈ opStarts, Separates lib e := by
          intro e he
          have hcheck := List.all_eq_true.mp (show opStarts.all (fun e : Char =>
            e.toNat < 128 && !e.isAlpha && !e.isDigit && e ≠ '_' && e ≠ '"' && e ≠ '\'') = true by
              decide) e he
          simp only [Bool.and_eq_true, decide_eq_true_eq, Bool.not_eq_true'] at hcheck
          obtain ⟨⟨⟨⟨⟨hascii, halpha⟩, hdigit⟩, hunderscore⟩, hdouble⟩, hsingle⟩ := hcheck
          exact separates_of_ascii hascii halpha hdigit hunderscore ⟨hdouble, hsingle⟩
        exact hall c (mem_opStarts hop)

/-! ## Reading back -/

/-- The tokens of a text after a first token that takes `n` bytes. -/
def afterFirst (tok : Tok) (n : Nat) : Run (List Spanned) → Run (List Spanned)
  | .ok toks => .ok (⟨tok, 0⟩ :: toks.map (Spanned.shift n))
  | .error (.refused e) => .error (.refused (e.shift n))
  | .error stop => .error stop

/-- A text before another is read as one token. -/
structure ReadsAs (lib : Library) (fns : Registry) (t : String) (tok : Tok) (rest : List Char) :
    Prop where
  /-- The loop takes the text, and nothing of the other, for that token. -/
  step : ∀ before, stepAt lib fns (before ++ (t.toList ++ rest)) (bytes before) =
    .ok (some tok, bytes before + bytes t.toList)
  /-- The other is read as it is alone. -/
  whole : tokenize lib fns (t ++ .ofList rest) =
    afterFirst tok (bytes t.toList) (tokenize lib fns (.ofList rest))

theorem step_of_lexeme {t : String} {tok : Tok} {rest : List Char} {c : Char} {s : List Char}
    (htext : t.toList ++ rest = c :: s) (hlex : lexeme lib fns 0 c s = .ok (some tok, rest))
    (before : List Char) :
    stepAt lib fns (before ++ (t.toList ++ rest)) (bytes before) =
      .ok (some tok, bytes before + bytes t.toList) := by
  have hshift := lexeme_shift lib fns (bytes before) 0 c s
  have hplace : bytes (before ++ c :: s) - bytes rest = bytes before + bytes t.toList := by
    rw [← htext, bytes_append, bytes_append]
    omega
  rw [Nat.zero_add, hlex] at hshift
  rw [htext, stepAt_eq, hshift]
  show Except.ok (some tok, bytes (before ++ c :: s) - bytes rest) = _
  rw [hplace]

theorem readsAs_of_lexeme {t : String} {tok : Tok} {rest : List Char} {c : Char} {s : List Char}
    (htext : t.toList ++ rest = c :: s) (hlex : lexeme lib fns 0 c s = .ok (some tok, rest)) :
    ReadsAs lib fns t tok rest := by
  have hlen := ByteOffsets.length_le_bytes (c :: s)
  have hlt := length_lexeme_lt lib fns hlex
  have hbytes : bytes (c :: s) = bytes t.toList + bytes rest := by
    rw [← htext, bytes_append]
  have hplace : 0 + (bytes (c :: s) - bytes rest) = 0 + bytes t.toList := by omega
  obtain ⟨fuel, hfuel⟩ : ∃ fuel, bytes (c :: s) = fuel + 1 := by
    rw [List.length_cons] at hlen
    exact ⟨bytes (c :: s) - 1, by omega⟩
  have hshift := tokens_shift lib fns (bytes t.toList) 0 rest (ByteOffsets.length_le_bytes rest)
    (show rest.length ≤ fuel by omega)
  refine ⟨step_of_lexeme htext hlex, ?_⟩
  rw [tokenize_eq, tokenize_eq, String.toList_append, String.toList_ofList, htext, hfuel, tokens,
    hlex]
  show lift (tokens lib fns fuel (0 + (bytes (c :: s) - bytes rest)) rest >>= _) = _
  rw [hplace, hshift]
  cases tokens lib fns (bytes rest) 0 rest with
  | error e => rfl
  | ok toks => rfl

theorem toList_inQuotes (q : Char) (s : String) (rest : List Char) :
    (inQuotes q s).toList ++ rest = q :: (doubled q s.toList ++ q :: rest) := by
  unfold inQuotes
  rw [String.toList_ofList, List.cons_append, List.append_assoc]
  rfl

theorem quoted_doubled {q : Char} {rest : List Char} (h : rest.head? ≠ some q) (s : List Char) :
    quoted q (doubled q s ++ q :: rest) = some (s, rest) :=
  (quoted_eq_some_iff _ _ _ _).mpr ⟨rfl, h⟩

theorem text_readsAs {rest : List Char} (h : Follows rest) (s : String) :
    ReadsAs lib fns (inQuotes '"' s) (.str s) rest := by
  have hrest : rest.head? ≠ some '"' := fun heq =>
    (@Follows.separates lib rest h '"' heq).quote.1 rfl
  apply readsAs_of_lexeme (toList_inQuotes '"' s rest)
  unfold lexeme
  rw [if_neg (by decide), if_pos rfl, quoted_doubled hrest]
  simp only [String.ofList_toList]

theorem name_readsAs {rest : List Char} (h : Follows rest) {name : String} (hname : name ≠ "") :
    ReadsAs lib fns (inQuotes '\'' name) (.qIdent name) rest := by
  have hrest : rest.head? ≠ some '\'' := fun heq =>
    (@Follows.separates lib rest h '\'' heq).quote.2 rfl
  have hne : name.toList ≠ [] := fun hnil => hname (String.toList_eq_nil_iff.mp hnil)
  apply readsAs_of_lexeme (toList_inQuotes '\'' name rest)
  unfold lexeme
  rw [if_neg (by decide), if_neg (by decide), if_neg (by decide), if_neg (by decide), if_pos rfl,
    quoted_doubled hrest]
  simp only [hne, if_false, String.ofList_toList]

/-! ## Numbers -/

theorem digitRun_digits {ds : List Char} (h : ∀ c ∈ ds, isDigit c = true) (s : List Char) :
    digitRun (ds ++ s) = (ds ++ (digitRun s).1, (digitRun s).2) := by
  induction ds with
  | nil => rfl
  | cons c ds ih =>
      rw [List.forall_mem_cons] at h
      have hstep : (isDigit c || decide (c = '.') && (ds ++ s).head?.any isDigit) = true := by
        rw [h.1, Bool.true_or]
      rw [List.cons_append, digitRun, if_pos hstep, ih h.2]
      rfl

theorem digitRun_point {d : Char} (h : isDigit d = true) (s : List Char) :
    digitRun ('.' :: d :: s) = ('.' :: (digitRun (d :: s)).1, (digitRun (d :: s)).2) := by
  have hstep : (isDigit '.' || decide ('.' = '.') && (d :: s).head?.any isDigit) = true := by
    rw [List.head?_cons, Option.any_some, h]
    rfl
  rw [digitRun, if_pos hstep]

/-- A text goes on with a number that has no exponent. -/
def GoesOn (s : List Char) : Prop := ∃ d t, s = '.' :: d :: t ∧ isDigit d = true

theorem digitRun_stop {s : List Char} (hdigit : ∀ c ∈ s.head?, isDigit c = false)
    (hpoint : ¬GoesOn s) : digitRun s = ([], s) := by
  cases s with
  | nil => rfl
  | cons c s =>
      have hstop : ¬(isDigit c || decide (c = '.') && s.head?.any isDigit) = true := by
        rw [hdigit c rfl, Bool.false_or, Bool.and_eq_true, decide_eq_true_eq]
        rintro ⟨rfl, hany⟩
        cases s with
        | nil => cases hany
        | cons d t => exact hpoint ⟨d, t, rfl, hany⟩
      rw [digitRun, if_neg hstop]

/-- The digits of a printed number are read, and then what follows them. -/
theorem digitRun_written {int frac : List Char} (hint : ∀ c ∈ int, isDigit c = true)
    (hfrac : ∀ c ∈ frac, isDigit c = true) (s : List Char) :
    digitRun (int ++ ((if frac = [] then [] else '.' :: frac) ++ s)) =
      (int ++ ((if frac = [] then [] else '.' :: frac) ++ (digitRun s).1), (digitRun s).2) := by
  rw [digitRun_digits hint]
  by_cases hnone : frac = []
  · rw [if_pos hnone, List.nil_append, List.nil_append]
  · obtain ⟨d, ds, rfl⟩ := List.exists_cons_of_ne_nil hnone
    rw [if_neg hnone, List.cons_append, List.cons_append,
      digitRun_point (hfrac d List.mem_cons_self), ← List.cons_append, digitRun_digits hfrac]
    rfl

theorem exponentRun_exponentText (e : Int) {s : List Char}
    (hs : ∀ c ∈ s.head?, isDigit c = false) :
    exponentRun (exponentText e ++ s) = (exponentText e, s, true) := by
  obtain ⟨d, ds, hds⟩ := List.exists_cons_of_ne_nil (@Nat.toDigits_ne_nil e.natAbs 10)
  have hdigits : ∀ c ∈ d :: ds, isDigit c = true := by
    rw [← hds]
    exact fun c hc => isDigit_of_mem_toDigits hc
  have hsign : signRun ((if decide (e < 0) then ['-'] else []) ++ (d :: ds ++ s)) =
      ((if decide (e < 0) then ['-'] else []), d :: ds ++ s) := by
    by_cases hneg : e < 0
    · rw [decide_eq_true hneg]
      rfl
    · have hd : ¬(d = '+' ∨ d = '-') := by
        rintro (rfl | rfl)
        · exact absurd (hdigits '+' List.mem_cons_self) (by decide)
        · exact absurd (hdigits '-' List.mem_cons_self) (by decide)
      rw [decide_eq_false hneg]
      exact if_neg hd
  obtain ⟨htake, hdrop⟩ := span_append hdigits hs
  have hmark : ∀ t : List Char, exponentRun ('e' :: t) =
      ('e' :: ((signRun t).1 ++ (signRun t).2.takeWhile isDigit),
        (signRun t).2.dropWhile isDigit, decide ((signRun t).2.takeWhile isDigit ≠ [])) := by
    intro t
    rw [exponentRun, if_pos (Or.inl rfl)]
  have hsome : decide (d :: ds ≠ []) = true := decide_eq_true (List.cons_ne_nil d ds)
  unfold exponentText
  rw [hds, List.cons_append, List.append_assoc, hmark, hsign]
  simp only [htake, hdrop, hsome]

theorem exponentRun_none {s : List Char} (hs : ∀ c ∈ s.head?, ¬(c = 'e' ∨ c = 'E')) :
    exponentRun s = ([], s, true) := by
  cases s with
  | nil => rfl
  | cons c s => exact if_neg (hs c rfl)

/-- A printed number is read as that number. -/
theorem numberLexeme_written (lib : Library) {t int frac rest : List Char} {exp : Option Int}
    {n : F64} (ht : Written t int frac exp) (hread : parseF64 (.ofList t) = some n)
    (hfinite : n.isFinite = true) (hrest : Follows rest) (hpoint : exp = none → ¬GoesOn rest)
    (pos : Nat) : numberLexeme pos (t ++ rest) = .ok (.number n, rest) := by
  have hseparates := @Follows.separates lib rest hrest
  obtain ⟨tail, htail⟩ : ∃ tail, tail = (exp.map exponentText).getD [] := ⟨_, rfl⟩
  have hstop : digitRun (tail ++ rest) = ([], tail ++ rest) := by
    cases exp with
    | none =>
        rw [htail]
        exact digitRun_stop (fun c hc => (hseparates c hc).digit) (hpoint rfl)
    | some e =>
        rw [htail]
        apply digitRun_stop
        · intro c hc
          cases hc
          decide
        · rintro ⟨d, t, heq, -⟩
          cases heq
  have hexp : exponentRun (tail ++ rest) = (tail, rest, true) := by
    cases exp with
    | none =>
        rw [htail]
        exact exponentRun_none fun c hc => (hseparates c hc).exponent
    | some e =>
        rw [htail]
        exact exponentRun_exponentText e fun c hc => (hseparates c hc).digit
  have hrun := digitRun_written ht.int_digits ht.frac_digits (tail ++ rest)
  have hwhole : t ++ rest =
      int ++ ((if frac = [] then [] else '.' :: frac) ++ (tail ++ rest)) := by
    rw [ht.text, ← htail]
    simp
  have hraw : int ++ (if frac = [] then [] else '.' :: frac) ++ tail = t := by
    rw [ht.text, ← htail, List.append_assoc]
  rw [hstop, List.append_nil] at hrun
  unfold numberLexeme
  rw [hwhole, hrun]
  simp only [hexp, hraw, hread, Bool.true_eq_false, if_false]
  cases n with
  | finite s u h => rfl
  | _ => cases hfinite

/-- A text that goes on with a number without an exponent is read into it. -/
theorem numberLexeme_goesOn {t int frac rest r : List Char} {tok : Tok} {pos : Nat}
    (ht : Written t int frac none) (hrest : GoesOn rest)
    (h : numberLexeme pos (t ++ rest) = .ok (tok, r)) : bytes r < bytes rest := by
  obtain ⟨d, s, rfl, hd⟩ := hrest
  have hwhole : t ++ '.' :: d :: s =
      int ++ ((if frac = [] then [] else '.' :: frac) ++ '.' :: d :: s) := by
    rw [ht.text]
    simp
  have hrun := congrArg Prod.snd (digitRun_written ht.int_digits ht.frac_digits ('.' :: d :: s))
  rw [← hwhole, digitRun_point hd] at hrun
  have hdigits := congrArg bytes (digitRun_append (d :: s))
  have hexp := congrArg bytes (exponentRun_append (digitRun (d :: s)).2)
  rw [bytes_append] at hdigits hexp
  have hr : r = (exponentRun (digitRun (d :: s)).2).2.1 := by
    unfold numberLexeme at h
    simp only [hrun] at h
    split at h
    · cases h
    · split at h
      · cases h
      · cases h
      · cases h
        rfl
  have hpoint := bytes_cons '.' (d :: s)
  have hpos := Char.utf8Size_pos '.'
  rw [hr]
  omega

/-- Whether a number is printed with an exponent. -/
def hasExponent (n : F64) : Bool := (numberLiteral n).any fun t => t.toList.contains 'e'

theorem contains_exponent {t int frac : List Char} {exp : Option Int}
    (ht : Written t int frac exp) : t.contains 'e' = exp.isSome := by
  have hdigits : ∀ {ds : List Char}, (∀ c ∈ ds, isDigit c = true) → 'e' ∉ ds := by
    intro ds hds hmem
    exact absurd (hds 'e' hmem) (by decide)
  have hint := hdigits ht.int_digits
  have hfrac := hdigits ht.frac_digits
  have hpoint : 'e' ∉ (if frac = [] then [] else '.' :: frac) := by
    split
    · exact List.not_mem_nil
    · intro hmem
      rcases List.mem_cons.mp hmem with hmem | hmem
      · cases hmem
      · exact hfrac hmem
  rw [ht.text]
  cases exp with
  | none =>
      rw [Option.isSome_none, ← Bool.not_eq_true, List.contains_iff_mem]
      simp [hint, hpoint]
  | some e =>
      rw [Option.isSome_some, List.contains_iff_mem]
      simp [exponentText]

/-- The text of a number without a sign, digit by digit. -/
theorem numberLiteral_written {n : F64} (hfinite : n.isFinite = true)
    (hsign : Number.isSignNegative n = false) :
    ∃ t int frac exp, numberLiteral n = some (.ofList t) ∧ Written t int frac exp ∧
      parseF64 (.ofList t) = some n := by
  cases n with
  | nan => cases hfinite
  | inf s => cases hfinite
  | finite s units hrep =>
      obtain rfl : s = false := hsign
      unfold numberLiteral
      rw [if_neg (by rintro (h | h) <;> cases h)]
      split
      · next hfar =>
          have hunits : 0 < units := by
            apply Nat.pos_of_ne_zero
            rintro rfl
            cases hfar.1
          obtain ⟨int, frac, e, hwritten, hread⟩ := Shortest.lowerExp_written hunits hrep
          exact ⟨_, int, frac, some e, rfl, hwritten, hread⟩
      · obtain ⟨int, frac, hwritten, hread⟩ := Shortest.display_written hrep
        exact ⟨_, int, frac, none, rfl, hwritten, hread⟩

theorem lexeme_digit (lib : Library) (fns : Registry) {c : Char} (hc : isDigit c = true)
    (pos : Nat) (s : List Char) :
    lexeme lib fns pos c s = (numberLexeme pos (c :: s)).map fun p => (some p.1, p.2) := by
  have hspace : ¬isWhitespace c = true := by
    intro h
    exact absurd ((@separates_of_whitespace lib c h).digit) (by rw [hc]; exact Bool.noConfusion)
  have hne : ∀ d : Char, isDigit d = false → c ≠ d := by
    intro d hd heq
    rw [heq, hd] at hc
    cases hc
  unfold lexeme
  rw [if_neg hspace, if_neg (hne '"' (by decide)), if_neg (hne '#' (by decide)), if_pos hc]

/-- A number without a sign is printed, and read as itself exactly where the text does
not go on with it. -/
theorem number_readsAs {rest : List Char} (h : Follows rest) {n : F64}
    (hfinite : n.isFinite = true) (hsign : Number.isSignNegative n = false) :
    ∃ t, numberLiteral n = some t ∧
      (ReadsAs lib fns t (.number n) rest ↔ (hasExponent n = false → ¬GoesOn rest)) := by
  obtain ⟨t, int, frac, exp, hliteral, hwritten, hread⟩ := numberLiteral_written hfinite hsign
  have hexp : hasExponent n = exp.isSome := by
    unfold hasExponent
    rw [hliteral, Option.any_some, String.toList_ofList, contains_exponent hwritten]
  obtain ⟨d, ds, hint⟩ := List.exists_cons_of_ne_nil hwritten.int_ne
  have hd : isDigit d = true := hwritten.int_digits d (by rw [hint]; exact List.mem_cons_self)
  obtain ⟨s, hs⟩ : ∃ s, t ++ rest = d :: s := by
    rw [hwritten.text, hint]
    exact ⟨_, rfl⟩
  have hlexeme := lexeme_digit lib fns hd 0 s
  rw [← hs] at hlexeme
  refine ⟨_, hliteral, fun hreads hnone hgoes => ?_, fun hpoint => ?_⟩
  · have hstep := hreads.step []
    rw [String.toList_ofList, hs, stepAt_eq] at hstep
    rw [bytes_nil, hlexeme] at hstep
    cases hnumber : numberLexeme 0 (t ++ rest) with
    | error e =>
        rw [hnumber] at hstep
        cases hstep
    | ok p =>
        rw [hnumber] at hstep
        have hend : bytes (d :: s) - bytes p.2 = 0 + bytes t :=
          congrArg Prod.snd (Except.ok.inj hstep)
        have hexact : exp = none := by
          rw [hexp] at hnone
          exact Option.isNone_iff_eq_none.mp (Option.isSome_eq_false_iff.mp hnone)
        have hless := numberLexeme_goesOn (hexact ▸ hwritten) hgoes hnumber
        have hbytes := congrArg bytes hs
        rw [bytes_append] at hbytes
        omega
  · have hnumber := numberLexeme_written lib hwritten hread hfinite h
      (fun hnone => hpoint (by rw [hexp, hnone]; rfl)) 0
    rw [hnumber] at hlexeme
    exact readsAs_of_lexeme (by rw [String.toList_ofList, hs]) hlexeme

/-! ## Bare names -/

theorem word_span {name rest : List Char} (hname : name.all lib.isWord = true)
    (h : Follows rest) :
    (name ++ rest).takeWhile lib.isWord = name ∧ (name ++ rest).dropWhile lib.isWord = rest := by
  have hstop : ∀ c ∈ rest.head?, lib.isWord c = false :=
    fun c hc => (@Follows.separates lib _ h c hc).word
  exact span_append (List.all_eq_true.mp hname) hstop

theorem isAlpha_of_isDigit {c : Char} (h : isDigit c = true) : c.isAlpha = false := by
  unfold isDigit at h
  rw [Bool.and_eq_true, decide_eq_true_eq, decide_eq_true_eq] at h
  have hle : c.val.toNat ≤ 57 := UInt32.le_iff_toNat_le.mp h.2
  have hbelow : ∀ d : UInt32, 57 < d.toNat → ¬c.val ≥ d := by
    intro d hd hge
    have hnat := UInt32.le_iff_toNat_le.mp hge
    omega
  have hupper : ¬(c.val ≥ 'A'.val ∧ c.val ≤ 'Z'.val) := fun hu => hbelow _ (by decide) hu.1
  have hlower : ¬c.val ≥ 'a'.val := hbelow _ (by decide)
  unfold Char.isAlpha Char.isUpper Char.isLower
  rw [decide_eq_false hupper, decide_eq_false hlower]
  rfl

/-- A character that begins a name begins no other lexeme. -/
theorem plain_of_starts {c : Char} (h : (lib.isAlphabetic c || decide (c = '_')) = true) :
    isWhitespace c = false ∧ c ≠ '"' ∧ c ≠ '#' ∧ isDigit c = false ∧ c ≠ '\'' := by
  have hne : ∀ d : Char, d.toNat < 128 → d.isAlpha = false → d ≠ '_' → c ≠ d := by
    intro d hascii halpha hunderscore heq
    rw [heq, lib.alphabetic_ascii d hascii, halpha, decide_eq_false hunderscore] at h
    cases h
  refine ⟨?_, hne _ (by decide) (by decide) (by decide), hne _ (by decide) (by decide) (by decide),
    ?_, hne _ (by decide) (by decide) (by decide)⟩
  · rw [← Bool.not_eq_true]
    intro hspace
    have hunderscore : c ≠ '_' := by
      rintro rfl
      cases hspace
    rw [(lib.not_whitespace c hspace).1, decide_eq_false hunderscore] at h
    cases h
  · rw [← Bool.not_eq_true]
    intro hdigit
    have hunderscore : c ≠ '_' := by
      rintro rfl
      cases hdigit
    exact hne c (toNat_of_isDigit hdigit) (isAlpha_of_isDigit hdigit) hunderscore rfl

/-- A bare name is one word, unless the look-ahead finds a function's dotted name. -/
theorem bare_readsAs {rest : List Char} (h : Follows rest) {name : String}
    (hbare : isBare lib name = true) (hdotted : dottedName lib fns 3 name.toList rest = none) :
    ReadsAs lib fns name (.ident name) rest := by
  unfold isBare at hbare
  split at hbare
  · cases hbare
  · next c cs hname =>
      rw [Bool.and_eq_true] at hbare
      obtain ⟨hstart, hword⟩ := hbare
      obtain ⟨hspace, hstring, hdate, hdigit, hquote⟩ := plain_of_starts hstart
      obtain ⟨htake, hdrop⟩ := word_span hword h
      have hstarts : lib.startsName c (cs ++ rest) = true := by
        unfold Library.startsName
        rw [hstart, Bool.true_or]
      have hlexeme : wordLexeme lib fns c (cs ++ rest) = (c :: cs, rest) := by
        unfold wordLexeme
        simp only [htake, hdrop]
        rw [← hname, hdotted, Option.getD_none]
      apply readsAs_of_lexeme (c := c) (s := cs ++ rest) (by rw [hname, List.cons_append])
      unfold lexeme
      rw [if_neg (by rw [hspace]; exact Bool.false_ne_true), if_neg hstring, if_neg hdate,
        if_neg (by rw [hdigit]; exact Bool.false_ne_true), if_neg hquote, if_pos hstarts, hlexeme]
      simp only [← hname, String.ofList_toList]

/-! ## What the printer writes -/

/-- A printed name is read as that name. -/
theorem ident_readsAs {rest : List Char} (h : Follows rest) {name t : String}
    (hprint : ident lib name = some t) (hdotted : dottedName lib fns 3 name.toList rest = none) :
    ReadsAs lib fns t (.ident name) rest ∨ ReadsAs lib fns t (.qIdent name) rest := by
  unfold ident at hprint
  split at hprint
  · next hbare =>
      cases hprint
      exact .inl (bare_readsAs h (Bool.and_eq_true_iff.mp hbare).1 hdotted)
  · split at hprint
    · next hname =>
        cases hprint
        exact .inr (name_readsAs h hname)
    · cases hprint

/-- A printed text is read as that text. -/
theorem literal_text_readsAs {rest : List Char} (h : Follows rest) {s t : String}
    (hprint : literal lib (.text s) = some t) : ReadsAs lib fns t (.str s) rest := by
  unfold literal at hprint
  simp only at hprint
  split at hprint
  · cases hprint
    exact text_readsAs h s
  · cases hprint

/-- Only a finite number without a sign is printed. -/
theorem numberLiteral_isSome (n : F64) :
    (numberLiteral n).isSome = true ↔ n.isFinite = true ∧ Number.isSignNegative n = false := by
  unfold numberLiteral
  split
  · next hrefused =>
      refine ⟨fun h => absurd h Bool.false_ne_true, fun h => ?_⟩
      rcases hrefused with hfinite | hsign
      · rw [h.1] at hfinite
        cases hfinite
      · rw [h.2] at hsign
        cases hsign
  · next haccepted =>
      rw [not_or, Bool.not_eq_false, Bool.not_eq_true] at haccepted
      exact ⟨fun _ => haccepted, fun _ => rfl⟩

/-- A printed number is read as that number exactly where the text does not go on with
it. -/
theorem literal_number_readsAs {rest : List Char} (h : Follows rest) {n : F64} {t : String}
    (hprint : literal lib (.number n) = some t) :
    ReadsAs lib fns t (.number n) rest ↔ (hasExponent n = false → ¬GoesOn rest) := by
  have hprint : numberLiteral n = some t := hprint
  have hsome : (numberLiteral n).isSome = true := by
    rw [hprint]
    rfl
  obtain ⟨hfinite, hsign⟩ := (numberLiteral_isSome n).mp hsome
  obtain ⟨t', hliteral, hreads⟩ := @number_readsAs lib fns rest h n hfinite hsign
  rw [hprint] at hliteral
  cases hliteral
  exact hreads

/-! ## The tokenizer -/

/-- The tokens of a text: each is spelled where it says, they are in order, and between
them is whitespace. -/
structure Tokenized (lib : Library) (text : List Char) (toks : List Spanned) : Prop where
  pieces : Pieces lib 0 text toks
  increasing : toks.Pairwise fun a b => a.pos < b.pos
  starts : ∀ t ∈ toks, ∃ before lex rest, text = before ++ (lex ++ rest) ∧
    t.pos = bytes before ∧ lex ≠ [] ∧ Spells lib t.tok lex

theorem tokenize_total (text : String) :
    (∃ e, tokenize lib fns text = .error (.refused e)) ∨
      ∃ toks, tokenize lib fns text = .ok toks ∧ Tokenized lib text.toList toks := by
  rw [tokenize_eq]
  cases h : tokens lib fns (bytes text.toList) 0 text.toList with
  | error e => exact .inl ⟨e, rfl⟩
  | ok toks =>
      have hpieces := tokens_pieces lib fns (ByteOffsets.length_le_bytes _) h
      refine .inr ⟨toks, rfl, hpieces, hpieces.increasing lib, fun t ht => ?_⟩
      obtain ⟨before, lex, rest, htext, hpos, hlex⟩ := hpieces.starts lib ht
      rw [Nat.zero_add] at hpos
      exact ⟨before, lex, rest, htext, hpos, hlex⟩

/-- Every text is read, to tokens or an error; and a printed name, text or number is
read as one token whatever follows it, a number unless the text goes on with it. -/
theorem tokenizer_lossless (lib : Library) (fns : Registry) :
    (∀ text, (∃ e, tokenize lib fns text = .error (.refused e)) ∨
      ∃ toks, tokenize lib fns text = .ok toks ∧ Tokenized lib text.toList toks) ∧
    ∀ rest, Follows rest →
      (∀ name, name ≠ "" → ReadsAs lib fns (inQuotes '\'' name) (.qIdent name) rest) ∧
      (∀ s, ReadsAs lib fns (inQuotes '"' s) (.str s) rest) ∧
      ∀ n : F64, n.isFinite = true → Number.isSignNegative n = false →
        ∃ t, numberLiteral n = some t ∧
          (ReadsAs lib fns t (.number n) rest ↔ (hasExponent n = false → ¬GoesOn rest)) := by
  refine ⟨tokenize_total, fun rest h => ⟨?_, ?_, ?_⟩⟩
  · exact fun name hname => name_readsAs h hname
  · exact text_readsAs h
  · exact fun n hfinite hsign => number_readsAs h hfinite hsign

/-! ## A number that goes on -/

theorem toNat_of_isAlpha {c : Char} (h : c.isAlpha = true) : 65 ≤ c.toNat ∧ c.toNat ≤ 122 := by
  have hle : ∀ {a b : UInt32}, a ≤ b → a.toNat ≤ b.toNat := UInt32.le_iff_toNat_le.mp
  unfold Char.isAlpha Char.isUpper Char.isLower at h
  simp only [Bool.or_eq_true, Bool.and_eq_true, decide_eq_true_eq] at h
  rcases h with ⟨hlow, hhigh⟩ | ⟨hlow, hhigh⟩
  · exact ⟨hle hlow, (hle hhigh).trans (by decide)⟩
  · exact ⟨le_trans (by decide) (hle hlow), hle hhigh⟩

/-- A library that knows ASCII alone, and no dates. -/
def asciiLibrary : Library where
  isAlphabetic := Char.isAlpha
  isNumeric := Char.isDigit
  parseFromRfc3339 := fun _ => none
  parseYmd := fun _ => none
  toRfc3339 := fun _ => ""
  debug := fun s => inQuotes '"' s
  debugChar := fun c => inQuotes '\'' (.ofList [c])
  alphabetic_ascii := fun _ _ => rfl
  numeric_ascii := fun _ _ => rfl
  not_whitespace := by
    intro c hspace
    simp only [isWhitespace, Bool.or_eq_true, Bool.and_eq_true, decide_eq_true_eq,
      beq_iff_eq] at hspace
    constructor
    · rw [← Bool.not_eq_true]
      intro halpha
      have hrange := toNat_of_isAlpha halpha
      omega
    · rw [← Bool.not_eq_true]
      intro hdigit
      have hrange := Char.isDigit_iff_toNat.mp hdigit
      rw [show '0'.toNat = 48 by rfl, show '9'.toNat = 57 by rfl] at hrange
      omega

/-- The number `1` before the punctuation `.` and a digit is read as another number. -/
theorem one_goes_on : numberLiteral (.ofNat 1) = some "1" ∧
    Follows ".5".toList ∧
    tokenize asciiLibrary ⟨[]⟩ ("1" ++ ".5") = .ok [⟨.number (.ofRatio false 3 2), 0⟩] ∧
    ¬ReadsAs asciiLibrary ⟨[]⟩ "1" (.number (.ofNat 1)) ".5".toList := by
  refine ⟨by decide +kernel, ?_, by decide +kernel, ?_⟩
  · intro c s h
    cases h
    exact .inr (by decide)
  · intro h
    exact absurd (h.step []) (by decide +kernel)

end Improv.Client
