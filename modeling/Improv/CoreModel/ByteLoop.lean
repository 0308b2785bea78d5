import Improv.CoreModel.Lexemes
/-!
# The byte loop reads lexemes

With the text read so far before it, each part of the tokenizer does to the bytes
what its lexeme does to the characters: its slices are between characters, its loops
end, and it stops where the rest begins.
-/

namespace Improv.CoreModel.Parser

open Improv.Lib Improv.Lib.Decimal
open ByteOffsets (bytes sliceFrom slice bytes_append bytes_cons bytes_nil)
open Utf8 (encode byte Agrees)

theorem ok_bind {α β : Type} (a : α) (f : α → Run β) : (Except.ok a >>= f) = f a := rfl

/-! ## Slices between characters -/

@[simp] theorem len_eq (text : List Char) : len text = bytes text := Utf8.length_encode text

@[simp] theorem restAt_bytes (before s : List Char) :
    restAt (before ++ s) (bytes before) = .ok s := by
  unfold restAt
  rw [ByteOffsets.sliceFrom_bytes]
  rfl

theorem between_bytes (before mid s : List Char) :
    between (before ++ (mid ++ s)) (bytes before) (bytes before + bytes mid) = .ok mid := by
  unfold between
  rw [ByteOffsets.slice_bytes]
  rfl

@[simp] theorem charAt_bytes (before : List Char) (c : Char) (s : List Char) :
    charAt (before ++ c :: s) (bytes before) = .ok c := by
  unfold charAt
  rw [restAt_bytes]
  rfl

theorem byteAt_bytes (before s : List Char) :
    byteAt (before ++ s) (bytes before) = (encode s).head? := by
  unfold byteAt
  rw [← Utf8.drop_encode before s, List.head?_drop]

theorem byteAt_eq_iff {c : Char} (hc : c.toNat < 128) (before s : List Char) :
    byteAt (before ++ s) (bytes before) = some (byte c) ↔ s.head? = some c := by
  have hhead := (Utf8.agrees_eq hc).head s
  rw [byteAt_bytes]
  cases henc : (encode s).head? with
  | none =>
      rw [henc] at hhead
      cases s with
      | nil => simp
      | cons d s =>
          have hne : ¬d = c := by simpa using hhead.symm
          simp [hne]
  | some b =>
      rw [henc] at hhead
      cases s with
      | nil => cases henc
      | cons d s =>
          have hiff : b = byte c ↔ d = c := decide_eq_decide.mp hhead
          simpa using hiff

theorem skipWhile_bytes {p : UInt8 → Bool} {q : Char → Bool} {wide : Bool} (h : Agrees p q wide)
    (before s : List Char) :
    skipWhile (before ++ s) p (bytes before) = bytes before + bytes (s.takeWhile q) := by
  unfold skipWhile
  rw [Utf8.drop_encode, h.takeWhile, Utf8.length_encode]

theorem utf8Size_ascii {c : Char} (h : c.toNat < 128) : c.utf8Size = 1 := by
  rw [← String.length_utf8EncodeChar, Utf8.encodeChar_ascii h]
  rfl

theorem agrees_digit : Agrees isAsciiDigit isDigit false where
  ascii c hc := by
    have hbyte := Utf8.byte_toNat hc
    unfold isAsciiDigit isDigit
    congr 1
    · apply decide_eq_decide.mpr
      rw [UInt8.le_iff_toNat_le, hbyte]
      exact (@UInt32.le_iff_toNat_le ('0' : Char).val c.val).symm
    · apply decide_eq_decide.mpr
      rw [UInt8.le_iff_toNat_le, hbyte]
      exact (@UInt32.le_iff_toNat_le c.val ('9' : Char).val).symm
  byteWide b hb := by
    have hnine : (byte '9').toNat = 57 := rfl
    unfold isAsciiDigit
    rw [Bool.and_eq_false_iff]
    right
    rw [decide_eq_false_iff_not, UInt8.le_iff_toNat_le, hnine]
    omega
  charWide c hc := by
    unfold isDigit
    rw [Bool.and_eq_false_iff]
    right
    rw [decide_eq_false_iff_not]
    intro hle
    have hval : c.toNat ≤ 57 := UInt32.le_iff_toNat_le.mp hle
    omega

theorem toNat_of_isDigit {c : Char} (h : isDigit c = true) : c.toNat < 128 := by
  by_contra hwide
  rw [agrees_digit.charWide c (by omega)] at h
  cases h

/-! ## Quotes -/

theorem readString_eq (start fuel : Nat) (before s acc : List Char) (hfuel : s.length < fuel) :
    readString (before ++ s) start fuel (bytes before) acc =
      match quoted '"' s with
      | none => refuse "unterminated string literal" start
      | some (body, rest) => .ok (acc ++ body, bytes (before ++ s) - bytes rest) := by
  induction fuel generalizing before s acc with
  | zero => omega
  | succ fuel ih =>
      have hsplit := List.takeWhile_append_dropWhile (p := (· ≠ '"')) (l := s)
      rw [quoted_eq, readString, skipWhile_bytes (Utf8.agrees_ne (by decide)), len_eq]
      cases hdrop : s.dropWhile (· ≠ '"') with
      | nil =>
          rw [hdrop, List.append_nil] at hsplit
          rw [hsplit, bytes_append, if_pos (Nat.le_refl _)]
      | cons c t =>
          obtain rfl : c = '"' := dropWhile_head hdrop
          rw [hdrop] at hsplit
          generalize s.takeWhile (· ≠ '"') = plain at hsplit ⊢
          subst hsplit
          have hquote : ('"' : Char).utf8Size = 1 := rfl
          have hlen : bytes (before ++ (plain ++ '"' :: t)) =
              bytes before + bytes plain + 1 + bytes t := by
            rw [bytes_append, bytes_append, bytes_cons, hquote]
            omega
          have hnext : bytes before + bytes plain + 1 = bytes (before ++ plain ++ ['"']) := by
            rw [bytes_append, bytes_append, bytes_cons, bytes_nil, hquote]
          have htext : before ++ (plain ++ '"' :: t) = before ++ plain ++ ['"'] ++ t := by simp
          have hbyte := @byteAt_eq_iff '"' (by decide) (before ++ plain ++ ['"']) t
          rw [← htext, ← hnext] at hbyte
          rw [hlen, if_neg (by omega), between_bytes]
          simp only [ok_bind, ne_eq, hbyte]
          by_cases hdouble : t.head? = some '"'
          · rw [if_neg (not_not.mpr hdouble), if_pos hdouble]
            obtain ⟨t', rfl⟩ : ∃ t', t = '"' :: t' := by
              cases t with
              | nil => cases hdouble
              | cons d t' => exact ⟨t', by rw [Option.some.inj hdouble]⟩
            have htext' : before ++ (plain ++ '"' :: '"' :: t') =
                (before ++ plain ++ ['"', '"']) ++ t' := by simp
            have hnext' : bytes before + bytes plain + 1 + 1 =
                bytes (before ++ plain ++ ['"', '"']) := by
              rw [bytes_append, bytes_append, bytes_cons, bytes_cons, bytes_nil, hquote]
            rw [htext', hnext', ih _ t' _ (by simp at hfuel; omega), ← htext', hlen,
              List.tail_cons]
            cases quoted '"' t' with
            | none => rfl
            | some p => simp
          · rw [if_pos hdouble, if_neg hdouble]
            simp

theorem readQuotedName_eq (start fuel : Nat) (before s acc : List Char) (hfuel : s.length < fuel) :
    readQuotedName (before ++ s) start fuel (bytes before) acc =
      match quoted '\'' s with
      | none => refuse "unterminated quoted name" start
      | some (body, rest) => .ok (acc ++ body, bytes (before ++ s) - bytes rest) := by
  induction fuel generalizing before s acc with
  | zero => omega
  | succ fuel ih =>
      cases s with
      | nil =>
          rw [readQuotedName, len_eq, List.append_nil, if_neg (Nat.lt_irrefl _)]
          rfl
      | cons c t =>
          have hpos := c.utf8Size_pos
          have hlen : bytes (before ++ c :: t) = bytes before + c.utf8Size + bytes t := by
            rw [bytes_append, bytes_cons]
            omega
          have htext : before ++ c :: t = before ++ [c] ++ t := by simp
          have hnext : bytes before + c.utf8Size = bytes (before ++ [c]) := by
            rw [bytes_append, bytes_cons, bytes_nil]
            omega
          rw [readQuotedName, len_eq, hlen, if_pos (by omega), charAt_bytes]
          simp only [ok_bind]
          by_cases hc : c = '\''
          · subst hc
            rw [if_pos rfl, hnext, htext, restAt_bytes, quoted_quote]
            simp only [ok_bind]
            by_cases hdouble : t.head? = some '\''
            · obtain ⟨t', rfl⟩ : ∃ t', t = '\'' :: t' := by
                cases t with
                | nil => cases hdouble
                | cons d t' => exact ⟨t', by rw [Option.some.inj hdouble]⟩
              have htext' : before ++ ['\''] ++ '\'' :: t' = (before ++ ['\'', '\'']) ++ t' := by
                simp
              have hnext' : bytes (before ++ ['\'']) + 1 = bytes (before ++ ['\'', '\'']) := by
                have hone : bytes ['\''] = 1 := rfl
                rw [show before ++ ['\'', '\''] = before ++ ['\''] ++ ['\''] by simp,
                  bytes_append (before ++ ['\'']), hone]
              have hrec := ih (before ++ ['\'', '\'']) t' (acc ++ ['\''])
                (by simp at hfuel; omega)
              rw [if_pos hdouble, if_pos hdouble, hnext', htext', hrec, ← htext', ← htext, hlen,
                List.tail_cons]
              cases quoted '\'' t' with
              | none => rfl
              | some p => simp [bytes_cons]
            · rw [if_neg hdouble, if_neg hdouble]
              simp only [List.append_nil, ← hnext]
              congr 2
              omega
          · have hrec := ih (before ++ [c]) t (acc ++ [c]) (by simp at hfuel; omega)
            rw [if_neg hc, hnext, htext, hrec, ← htext, hlen, quoted_cons_of_ne hc]
            cases quoted '\'' t with
            | none => rfl
            | some p => simp [bytes_cons]

/-- Where a lexeme ends that the rest follows. -/
theorem end_eq (before lex rest : List Char) :
    bytes (before ++ (lex ++ rest)) - bytes rest = bytes before + bytes lex := by
  rw [bytes_append, bytes_append]
  omega

theorem readDate_eq (lib : Library) (before : List Char) {s raw : List Char}
    (hraw : s.takeWhile (· ≠ '#') = raw) :
    readDate (before ++ '#' :: s) (bytes before) lib =
      match s.dropWhile (· ≠ '#') with
      | [] => refuse "unterminated date literal" (bytes before)
      | _ :: rest =>
        match lib.parseDateLiteral raw with
        | none => refuse s!"invalid date: {lib.debug (.ofList raw)}" (bytes before)
        | some t => .ok (.date t, bytes (before ++ '#' :: s) - bytes rest) := by
  have hsplit := List.takeWhile_append_dropWhile (p := (· ≠ '#')) (l := s)
  have hsize : ('#' : Char).utf8Size = 1 := rfl
  have hnext : bytes before + 1 = bytes (before ++ ['#']) := by
    rw [bytes_append, bytes_cons, bytes_nil, hsize]
  have htext : before ++ '#' :: s = before ++ ['#'] ++ s := by simp
  unfold readDate
  simp only
  rw [hnext, htext, skipWhile_bytes (Utf8.agrees_ne (by decide)), len_eq]
  cases hdrop : s.dropWhile (· ≠ '#') with
  | nil =>
      rw [hdrop, List.append_nil] at hsplit
      rw [hsplit, bytes_append, if_pos (Nat.le_refl _)]
  | cons c t =>
      obtain rfl : c = '#' := dropWhile_head hdrop
      rw [hdrop] at hsplit
      rw [hraw] at hsplit ⊢
      subst hsplit
      have hlen : bytes (before ++ ['#'] ++ (raw ++ '#' :: t)) =
          bytes (before ++ ['#']) + bytes raw + 1 + bytes t := by
        rw [bytes_append, bytes_append, bytes_append, bytes_cons, bytes_cons, hsize]
        omega
      rw [hlen, if_neg (by omega), between_bytes]
      simp only [ok_bind]
      cases lib.parseDateLiteral raw with
      | none => rfl
      | some d => simp

/-! ## Numbers -/

theorem digitRunBytes_encode (s : List Char) :
    digitRunBytes (encode s) = bytes (digitRun s).1 := by
  induction s with
  | nil => rfl
  | cons c s ih =>
      have hdot := Utf8.agrees_eq (show ('.' : Char).toNat < 128 by decide)
      by_cases hc : c.toNat < 128
      · have hdigit := agrees_digit.ascii c hc
        have hpoint := hdot.ascii c hc
        rw [Utf8.encode_cons, Utf8.encodeChar_ascii hc, List.singleton_append, digitRunBytes,
          digitRun, hdigit, hpoint, agrees_digit.head]
        split
        · rw [ih, bytes_cons, utf8Size_ascii hc, Nat.add_comm]
        · rfl
      · have hwide : 128 ≤ c.toNat := by omega
        have hrun : digitRun (c :: s) = ([], c :: s) := by
          have hpoint := hdot.charWide c hwide
          rw [digitRun, agrees_digit.charWide c hwide, hpoint]
          rfl
        rw [hrun, Utf8.encode_cons]
        cases henc : String.utf8EncodeChar c with
        | nil => exact absurd henc String.utf8EncodeChar_ne_nil
        | cons b bs =>
            have hb : 128 ≤ b.toNat := by
              apply Utf8.le_of_mem_encodeChar hwide
              rw [henc]
              exact List.mem_cons_self
            have hpoint := hdot.byteWide b hb
            rw [List.cons_append, digitRunBytes, agrees_digit.byteWide b hb, hpoint]
            rfl

/-- The byte after a sign. -/
theorem signEnd_eq (before s : List Char) :
    (if byteAt (before ++ s) (bytes before) = some (byte '+') ∨
        byteAt (before ++ s) (bytes before) = some (byte '-') then bytes before + 1
      else bytes before) = bytes (before ++ (signRun s).1) := by
  simp only [@byteAt_eq_iff '+' (by decide), @byteAt_eq_iff '-' (by decide)]
  rw [bytes_append]
  cases s with
  | nil => simp [signRun]
  | cons c s =>
      rw [signRun]
      by_cases hc : c = '+' ∨ c = '-'
      · have hsize : c.utf8Size = 1 := by
          rcases hc with rfl | rfl <;> rfl
        rw [if_pos hc, if_pos (by simpa using hc), bytes_cons, hsize, bytes_nil]
      · rw [if_neg hc, if_neg (by simpa using hc), bytes_nil, Nat.add_zero]

theorem exponentEnd_eq (before run rest : List Char) :
    exponentEnd (before ++ (run ++ rest)) (bytes before) (bytes before + bytes run) =
      if (exponentRun rest).2.2 = false then
        refuse s!"exponent without digits: {String.ofList (run ++ (exponentRun rest).1)}"
          (bytes before)
      else .ok (bytes before + bytes (run ++ (exponentRun rest).1)) := by
  have htext : before ++ (run ++ rest) = before ++ run ++ rest := (List.append_assoc ..).symm
  have hplace : bytes before + bytes run = bytes (before ++ run) := (bytes_append ..).symm
  unfold exponentEnd
  rw [htext, hplace]
  simp only [@byteAt_eq_iff 'e' (by decide) (before ++ run),
    @byteAt_eq_iff 'E' (by decide) (before ++ run)]
  cases rest with
  | nil => simp [exponentRun]
  | cons c s =>
      simp only [List.head?_cons, Option.some.injEq]
      by_cases hc : c = 'e' ∨ c = 'E'
      · have hrun : exponentRun (c :: s) = (c :: ((signRun s).1 ++ (signRun s).2.takeWhile isDigit),
            (signRun s).2.dropWhile isDigit,
            decide ((signRun s).2.takeWhile isDigit ≠ [])) := if_pos hc
        have hsize : c.utf8Size = 1 := by
          rcases hc with rfl | rfl <;> rfl
        have hnext : bytes (before ++ run) + 1 = bytes (before ++ run ++ [c]) := by
          rw [bytes_append, bytes_append, bytes_append, bytes_cons, bytes_nil, hsize]
        have htext' : before ++ run ++ c :: s = before ++ run ++ [c] ++ s := by simp
        have hsign := signEnd_eq (before ++ run ++ [c]) s
        have hsplit := signRun_append s
        obtain ⟨digits, hdigits⟩ : ∃ d, d = (signRun s).2.takeWhile isDigit := ⟨_, rfl⟩
        have htail : before ++ run ++ [c] ++ s =
            before ++ run ++ [c] ++ (signRun s).1 ++ (signRun s).2 := by
          rw [List.append_assoc _ (signRun s).1, hsplit]
        rw [if_pos hc]
        simp only [hrun, hnext, htext', hsign, ← hdigits]
        rw [htail, skipWhile_bytes agrees_digit, ← hdigits]
        by_cases hnone : digits = []
        · have hmid : before ++ run ++ [c] ++ (signRun s).1 ++ (signRun s).2 =
              before ++ (run ++ c :: (signRun s).1 ++ (signRun s).2) := by simp
          have hend : bytes (before ++ run ++ [c] ++ (signRun s).1) =
              bytes before + bytes (run ++ c :: (signRun s).1) := by
            rw [← bytes_append]
            simp
          rw [hnone, bytes_nil, Nat.add_zero, if_pos rfl, hmid, hend, between_bytes, ok_bind]
          simp
        · have hpos : 0 < bytes digits := by
            have hle := ByteOffsets.length_le_bytes digits
            have hlen := List.length_pos_iff.mpr hnone
            omega
          have hend : bytes (before ++ run ++ [c] ++ (signRun s).1) + bytes digits =
              bytes before + bytes (run ++ c :: ((signRun s).1 ++ digits)) := by
            rw [← bytes_append, ← bytes_append]
            simp
          rw [if_neg (by omega), if_neg (by simpa using hnone), hend]
      · have hrun : exponentRun (c :: s) = ([], c :: s, true) := if_neg hc
        rw [if_neg hc]
        simp [hrun]

theorem readNumber_eq (before s : List Char) :
    readNumber (before ++ s) (bytes before) =
      match numberLexeme (bytes before) s with
      | .error e => .error (.refused e)
      | .ok (tok, rest) => .ok (tok, bytes (before ++ s) - bytes rest) := by
  have hrun := digitRun_append s
  have hexp := exponentRun_append (digitRun s).2
  unfold readNumber numberLexeme
  simp only
  rw [Utf8.drop_encode, digitRunBytes_encode]
  generalize (digitRun s).1 = run at hrun ⊢
  generalize (digitRun s).2 = tail at hrun hexp ⊢
  subst hrun
  rw [exponentEnd_eq]
  by_cases hdigits : (exponentRun tail).2.2 = false
  · rw [if_pos hdigits, if_pos hdigits]
    rfl
  · rw [if_neg hdigits, if_neg hdigits]
    simp only [ok_bind]
    generalize (exponentRun tail).1 = exp at hexp ⊢
    generalize (exponentRun tail).2.1 = rest at hexp ⊢
    subst hexp
    have htext : before ++ (run ++ (exp ++ rest)) = before ++ (run ++ exp ++ rest) := by simp
    have hend := end_eq before (run ++ exp) rest
    rw [htext, between_bytes, ok_bind]
    cases parseF64 (.ofList (run ++ exp)) with
    | none => rfl
    | some n =>
        cases n with
        | nan => simp only [hend]
        | inf s => rfl
        | finite s u h => simp only [hend]

/-! ## Names -/

section Names

variable (lib : Library) (fns : Registry)

theorem wordEnd_eq (fuel : Nat) (before s : List Char) (hfuel : s.length < fuel) :
    wordEnd lib (before ++ s) fuel (bytes before) =
      .ok (bytes before + bytes (s.takeWhile lib.isWord)) := by
  induction fuel generalizing before s with
  | zero => omega
  | succ fuel ih =>
      rw [wordEnd, len_eq]
      cases s with
      | nil => rw [List.append_nil, if_neg (Nat.lt_irrefl _), List.takeWhile_nil, bytes_nil,
          Nat.add_zero]
      | cons c t =>
          have hpos := c.utf8Size_pos
          have hnext : bytes before + c.utf8Size = bytes (before ++ [c]) := by
            rw [bytes_append, bytes_cons, bytes_nil, Nat.add_zero]
          have htext : before ++ c :: t = before ++ [c] ++ t := by simp
          rw [bytes_append, bytes_cons, if_pos (by omega), charAt_bytes, ok_bind]
          by_cases hc : lib.isWord c = true
          · rw [if_pos hc, hnext, htext, ih (before ++ [c]) t (by simpa using hfuel),
              List.takeWhile_cons_of_pos hc, bytes_cons, ← hnext, Nat.add_assoc]
          · rw [if_neg hc, List.takeWhile_cons_of_neg hc, bytes_nil, Nat.add_zero]

theorem dottedEnd_eq (parts : Nat) (before word rest : List Char) (best : Option Nat) :
    dottedEnd lib fns (before ++ (word ++ rest)) (bytes before) parts
        (bytes before + bytes word) best =
      .ok (match dottedName lib fns parts word rest with
        | some (_, r) => some (bytes (before ++ (word ++ rest)) - bytes r)
        | none => best) := by
  induction parts generalizing word rest best with
  | zero => rfl
  | succ parts ih =>
      have htext : before ++ (word ++ rest) = before ++ word ++ rest := (List.append_assoc ..).symm
      have hplace : bytes before + bytes word = bytes (before ++ word) := (bytes_append ..).symm
      rw [dottedEnd, htext, hplace, restAt_bytes, ok_bind]
      cases rest with
      | nil => rfl
      | cons c s =>
          by_cases hc : c = '.'
          · subst hc
            have hsize : ('.' : Char).utf8Size = 1 := rfl
            have htext' : before ++ word ++ '.' :: s = before ++ (word ++ ['.']) ++ s := by simp
            have hplace' : bytes (before ++ word) + 1 = bytes (before ++ (word ++ ['.'])) := by
              rw [bytes_append, bytes_append, bytes_append, bytes_cons, bytes_nil, hsize]
              omega
            have hhead : ('.' :: s).head? = some '.' := rfl
            rw [if_pos hhead, htext', hplace', restAt_bytes, ok_bind]
            cases s with
            | nil => rfl
            | cons d s =>
                rw [dottedName_dot]
                by_cases hd : lib.isWord d = true
                · have hlen : (d :: s).length <
                      len (before ++ (word ++ ['.']) ++ d :: s) + 1 := by
                    have hle := ByteOffsets.length_le_bytes (d :: s)
                    rw [len_eq, bytes_append]
                    omega
                  have hsplit := List.takeWhile_append_dropWhile (p := lib.isWord) (l := d :: s)
                  rw [List.head?_cons, Option.any_some, if_pos hd, if_pos hd,
                    wordEnd_eq lib _ _ _ hlen, ok_bind]
                  generalize (d :: s).takeWhile lib.isWord = part at hsplit ⊢
                  generalize (d :: s).dropWhile lib.isWord = tail at hsplit ⊢
                  rw [← hsplit]
                  have hword : before ++ (word ++ ['.']) ++ (part ++ tail) =
                      before ++ (word ++ '.' :: part ++ tail) := by simp
                  have hend : bytes (before ++ (word ++ ['.'])) + bytes part =
                      bytes before + bytes (word ++ '.' :: part) := by
                    rw [← bytes_append, ← bytes_append]
                    simp
                  have hrest : restAt (before ++ (word ++ '.' :: part ++ tail))
                      (bytes before + bytes (word ++ '.' :: part)) = .ok tail := by
                    rw [← List.append_assoc, ← bytes_append]
                    exact restAt_bytes _ _
                  rw [hword, hend, hrest, ok_bind]
                  by_cases hparen : (tail.dropWhile isWhitespace).head? = some '('
                  · rw [if_pos hparen, between_bytes, ok_bind]
                    by_cases hname : fns.byName (.ofList (word ++ '.' :: part)) ≠ []
                    · have hnext := end_eq before (word ++ '.' :: part) tail
                      rw [if_pos hname, ih, if_pos ⟨hparen, hname⟩]
                      cases dottedName lib fns parts (word ++ '.' :: part) tail with
                      | none => simp only [Option.none_or, hnext]
                      | some p => rfl
                    · rw [if_neg hname, ih, if_neg fun h => hname h.2]
                      cases dottedName lib fns parts (word ++ '.' :: part) tail with
                      | none => rfl
                      | some p => rfl
                  · rw [if_neg hparen, ih, if_neg fun h => hparen h.1]
                    cases dottedName lib fns parts (word ++ '.' :: part) tail with
                    | none => rfl
                    | some p => rfl
                · rw [List.head?_cons, Option.any_some, if_neg hd, if_neg hd]
          · have hhead : ¬(c :: s).head? = some '.' := by simpa using hc
            rw [if_neg hhead, dottedName_of_ne lib fns hc]

theorem startsWord_eq (before : List Char) (c : Char) (s : List Char) :
    startsWord lib (before ++ c :: s) (bytes before) c = .ok (lib.startsName c s) := by
  unfold startsWord Library.startsName
  by_cases hfirst : (lib.isAlphabetic c || decide (c = '_')) = true
  · rw [if_pos hfirst, hfirst, Bool.true_or]
  · rw [if_neg hfirst]
    rw [Bool.not_eq_true] at hfirst
    rw [hfirst, Bool.false_or]
    by_cases hat : c = '@'
    · subst hat
      have htext : before ++ '@' :: s = before ++ ['@'] ++ s := by simp
      have hnext : bytes before + 1 = bytes (before ++ ['@']) := by
        rw [bytes_append]
        rfl
      rw [if_pos rfl, htext, hnext, restAt_bytes]
      rfl
    · rw [if_neg hat, decide_eq_false hat, Bool.false_and]

theorem readWord_eq (before : List Char) (c : Char) (s : List Char) :
    readWord lib fns (before ++ c :: s) (bytes before) c =
      .ok (.ident (.ofList (wordLexeme lib fns c s).1),
        bytes (before ++ c :: s) - bytes (wordLexeme lib fns c s).2) := by
  have htext : before ++ c :: s = before ++ [c] ++ s := by simp
  have hnext : bytes before + c.utf8Size = bytes (before ++ [c]) := by
    rw [bytes_append, bytes_cons, bytes_nil, Nat.add_zero]
  have hlen : s.length < len (before ++ [c] ++ s) + 1 := by
    have hle := ByteOffsets.length_le_bytes s
    rw [len_eq, bytes_append]
    omega
  have happend := wordLexeme_append lib fns c s
  have hsplit : before ++ [c] ++ s =
      before ++ (c :: s.takeWhile lib.isWord ++ s.dropWhile lib.isWord) := by
    rw [List.cons_append, List.takeWhile_append_dropWhile]
    simp
  have hend : bytes (before ++ [c]) + bytes (s.takeWhile lib.isWord) =
      bytes before + bytes (c :: s.takeWhile lib.isWord) := by
    rw [← bytes_append, ← bytes_append]
    simp
  unfold readWord
  rw [htext, hnext, wordEnd_eq lib _ _ _ hlen, ok_bind, hend]
  rw [hsplit, dottedEnd_eq, ok_bind]
  have hbest : (match dottedName lib fns 3 (c :: s.takeWhile lib.isWord)
        (s.dropWhile lib.isWord) with
      | some (_, r) => some (bytes (before ++ (c :: s.takeWhile lib.isWord ++
          s.dropWhile lib.isWord)) - bytes r)
      | none => none).getD (bytes before + bytes (c :: s.takeWhile lib.isWord)) =
      bytes before + bytes (wordLexeme lib fns c s).1 := by
    have hword := end_eq before (wordLexeme lib fns c s).1 (wordLexeme lib fns c s).2
    rw [happend] at hword
    rw [← hsplit, ← htext, ← hword]
    unfold wordLexeme
    cases hdotted : dottedName lib fns 3 (c :: s.takeWhile lib.isWord)
        (s.dropWhile lib.isWord) with
    | none =>
        simp only [Option.getD_none, hdotted]
        rw [htext, hsplit, end_eq]
    | some p => simp only [Option.getD_some, hdotted]
  have hwhole : before ++ (c :: s.takeWhile lib.isWord ++ s.dropWhile lib.isWord) =
      before ++ ((wordLexeme lib fns c s).1 ++ (wordLexeme lib fns c s).2) := by
    rw [happend, List.cons_append, List.takeWhile_append_dropWhile]
  simp only [hbest]
  rw [hwhole, between_bytes, ok_bind, end_eq]

end Names

/-! ## Punctuation -/

theorem ascii_of_twoCharOp {c d : Char} (h : String.ofList [c, d] ∈ twoCharOps) :
    c.toNat < 128 ∧ d.toNat < 128 := by
  have hlist : ∀ o ∈ twoCharOps, ∀ e ∈ o.toList, e.toNat < 128 := by
    intro o ho
    simp only [twoCharOps, List.mem_cons, List.not_mem_nil, or_false] at ho
    rcases ho with rfl | rfl | rfl | rfl | rfl | rfl
    all_goals
      intro e he
      have hall := List.all_eq_true.mp (show List.all _ (fun e : Char => e.toNat < 128) = true by
        decide) e he
      simpa using hall
  have hchars := hlist _ h
  rw [String.toList_ofList] at hchars
  exact ⟨hchars c List.mem_cons_self, hchars d (List.mem_cons_of_mem _ List.mem_cons_self)⟩

theorem length_of_twoCharOp {o : String} (h : o ∈ twoCharOps) : o.toList.length = 2 := by
  simp only [twoCharOps, List.mem_cons, List.not_mem_nil, or_false] at h
  rcases h with rfl | rfl | rfl | rfl | rfl | rfl <;> rfl

theorem readOp_eq (lib : Library) (before : List Char) (c : Char) (s : List Char) :
    readOp lib (before ++ c :: s) (bytes before) c =
      match opLexeme c s with
      | some (o, rest) => .ok (.op o, bytes (before ++ c :: s) - bytes rest)
      | none => refuse s!"unexpected character: {lib.debugChar c}" (bytes before) := by
  have hsingle : bytes before + c.utf8Size = bytes (before ++ c :: s) - bytes s := by
    rw [bytes_append, bytes_cons]
    omega
  by_cases htwo : ∃ d t, s = d :: t ∧ String.ofList [c, d] ∈ twoCharOps
  · obtain ⟨d, t, rfl, hop⟩ := htwo
    obtain ⟨hc, hd⟩ := ascii_of_twoCharOp hop
    have hpair : bytes [c, d] = 2 := by
      rw [bytes_cons, bytes_cons, bytes_nil, utf8Size_ascii hc, utf8Size_ascii hd]
    have hslice : slice (before ++ c :: d :: t) (bytes before) (bytes before + 2) =
        some [c, d] := by
      rw [← hpair]
      exact ByteOffsets.slice_bytes before [c, d] t
    have hend : bytes (before ++ c :: d :: t) - bytes t = bytes before + 2 := by
      rw [← hpair]
      exact end_eq before [c, d] t
    unfold readOp opLexeme
    rw [hslice]
    simp only [Option.map_some, hop, if_true, hend]
  · have hop : opLexeme c s = if c ∈ singleOps then some (.ofList [c], s) else none := by
      unfold opLexeme
      cases s with
      | nil => rfl
      | cons d t =>
          have hnot : String.ofList [c, d] ∉ twoCharOps := fun h => htwo ⟨d, t, rfl, h⟩
          simp only [hnot, if_false]
    have hslice : ∀ m, slice (before ++ c :: s) (bytes before) (bytes before + 2) = some m →
        String.ofList m ∉ twoCharOps := by
      intro m hm hmem
      have hlen := length_of_twoCharOp hmem
      rw [String.toList_ofList] at hlen
      unfold slice at hm
      rw [if_pos (Nat.le_add_right _ _), ByteOffsets.sliceFrom_bytes, Option.bind_some,
        Nat.add_sub_cancel_left, Option.map_eq_some_iff] at hm
      obtain ⟨⟨front, post⟩, hcut, rfl⟩ := hm
      obtain ⟨htext, -⟩ := ByteOffsets.of_cutAt hcut
      obtain ⟨a, b, rfl⟩ := List.length_eq_two.mp hlen
      obtain ⟨rfl, rfl⟩ := List.cons.inj htext
      exact htwo ⟨b, post, rfl, hmem⟩
    unfold readOp
    rw [hop, hsingle]
    cases hcut : slice (before ++ c :: s) (bytes before) (bytes before + 2) with
    | none =>
        rw [Option.map_none]
        by_cases hmem : c ∈ singleOps
        · simp only [hmem, if_true]
        · simp only [hmem, if_false]
    | some m =>
        rw [Option.map_some]
        by_cases hmem : c ∈ singleOps
        · simp only [hslice m hcut, hmem, if_false, if_true]
        · simp only [hslice m hcut, hmem, if_false]

/-! ## The loop -/

section Loop

variable (lib : Library) (fns : Registry)

/-- What reading characters says, as what reading bytes does. -/
def lift {α : Type} : Except ParseError α → Run α
  | .ok a => .ok a
  | .error e => .error (.refused e)

/-- One turn of the loop reads the lexeme that the text at its offset begins with. -/
theorem stepAt_eq (before : List Char) (c : Char) (s : List Char) :
    stepAt lib fns (before ++ c :: s) (bytes before) =
      lift ((lexeme lib fns (bytes before) c s).map fun p =>
        (p.1, bytes (before ++ c :: s) - bytes p.2)) := by
  have hlen : s.length < len (before ++ c :: s) + 1 := by
    have hle := ByteOffsets.length_le_bytes (before ++ c :: s)
    rw [List.length_append, List.length_cons] at hle
    rw [len_eq]
    omega
  have hinside : ∀ d : Char, d.toNat < 128 → c = d →
      bytes before + 1 = bytes (before ++ [c]) ∧ before ++ c :: s = before ++ [c] ++ s := by
    intro d hd heq
    rw [heq, bytes_append, bytes_cons, bytes_nil, utf8Size_ascii hd]
    simp
  unfold stepAt lexeme
  rw [charAt_bytes, ok_bind]
  by_cases hspace : isWhitespace c = true
  · have hend := end_eq before [c] s
    rw [bytes_cons, bytes_nil, Nat.add_zero, List.singleton_append] at hend
    rw [if_pos hspace, if_pos hspace, ← hend]
    rfl
  rw [if_neg hspace, if_neg hspace]
  by_cases hstring : c = '"'
  · obtain ⟨hnext, htext⟩ := hinside '"' (by decide) hstring
    rw [if_pos hstring, if_pos hstring, hnext, htext, readString_eq _ _ _ _ _ (htext ▸ hlen)]
    cases quoted '"' s with
    | none => rfl
    | some p => rfl
  rw [if_neg hstring, if_neg hstring]
  by_cases hdate : c = '#'
  · rw [if_pos hdate, if_pos hdate, hdate, readDate_eq lib before rfl]
    cases s.dropWhile (· ≠ '#') with
    | nil => rfl
    | cons d t =>
        simp only
        cases lib.parseDateLiteral (s.takeWhile (· ≠ '#')) with
        | none => rfl
        | some t => rfl
  rw [if_neg hdate, if_neg hdate]
  by_cases hdigit : isDigit c = true
  · rw [if_pos hdigit, if_pos hdigit, readNumber_eq]
    cases numberLexeme (bytes before) (c :: s) with
    | error e => rfl
    | ok p => rfl
  rw [if_neg hdigit, if_neg hdigit]
  by_cases hname : c = '\''
  · obtain ⟨hnext, htext⟩ := hinside '\'' (by decide) hname
    rw [if_pos hname, if_pos hname, hnext, htext, readQuotedName_eq _ _ _ _ _ (htext ▸ hlen)]
    cases quoted '\'' s with
    | none => rfl
    | some p =>
        simp only [ok_bind, List.nil_append]
        by_cases hempty : p.1 = []
        · rw [if_pos hempty, if_pos hempty]
          rfl
        · rw [if_neg hempty, if_neg hempty]
          rfl
  rw [if_neg hname, if_neg hname, startsWord_eq, ok_bind]
  by_cases hword : lib.startsName c s = true
  · rw [if_pos hword, if_pos hword, readWord_eq]
    rfl
  rw [if_neg hword, if_neg hword, readOp_eq]
  cases opLexeme c s with
  | none => rfl
  | some p => rfl

/-- The byte loop reads the tokens of the characters. -/
theorem tokenizeFrom_eq (fuel : Nat) (before s : List Char) (out : List Spanned)
    (hfuel : s.length ≤ fuel) :
    tokenizeFrom lib fns (before ++ s) fuel (bytes before) out =
      lift ((tokens lib fns fuel (bytes before) s).map fun toks => out ++ toks) := by
  induction fuel generalizing before s out with
  | zero =>
      obtain rfl : s = [] := List.length_eq_zero_iff.mp (Nat.le_zero.mp hfuel)
      rw [tokenizeFrom, len_eq, List.append_nil, if_neg (Nat.lt_irrefl _)]
      simp [tokens, lift, Except.map]
  | succ fuel ih =>
      cases s with
      | nil =>
          rw [tokenizeFrom, len_eq, List.append_nil, if_neg (Nat.lt_irrefl _)]
          simp [tokens, lift, Except.map]
      | cons c s =>
          have hpos := c.utf8Size_pos
          rw [tokenizeFrom, len_eq, bytes_append, bytes_cons, if_pos (by omega), stepAt_eq, tokens]
          cases hlex : lexeme lib fns (bytes before) c s with
          | error e => rfl
          | ok p =>
              obtain ⟨lex, happend, hne⟩ := lexeme_append lib fns hlex
              have hlen : p.2.length ≤ fuel := by
                have hlength := congrArg List.length happend
                have hlexpos := List.length_pos_iff.mpr hne
                rw [List.length_append, List.length_cons] at hlength
                rw [List.length_cons] at hfuel
                omega
              have hend := end_eq before lex p.2
              have hwhole : before ++ (lex ++ p.2) = before ++ lex ++ p.2 :=
                (List.append_assoc ..).symm
              have hplace : bytes (c :: s) - bytes p.2 = bytes lex := by
                rw [happend, bytes_append]
                omega
              show tokenizeFrom lib fns (before ++ c :: s) fuel
                (bytes (before ++ c :: s) - bytes p.2) _ = _
              rw [happend, hend, ← bytes_append, hwhole, ih _ _ _ hlen]
              rw [← happend]
              show _ = lift (Except.map _ (tokens lib fns fuel (bytes before +
                (bytes (c :: s) - bytes p.2)) p.2 >>= _))
              rw [hplace, ← bytes_append]
              cases tokens lib fns fuel (bytes (before ++ lex)) p.2 with
              | error e => rfl
              | ok toks => exact congrArg Except.ok (List.append_assoc ..)

/-- A text is read without a panic, and the loop ends. -/
theorem tokenize_eq (text : String) :
    tokenize lib fns text = lift (tokens lib fns (bytes text.toList) 0 text.toList) := by
  have h := tokenizeFrom_eq lib fns (bytes text.toList) [] text.toList []
    (ByteOffsets.length_le_bytes _)
  unfold tokenize
  rw [len_eq]
  rw [List.nil_append, bytes_nil] at h
  rw [h]
  cases tokens lib fns (bytes text.toList) 0 text.toList <;> rfl

end Loop

end Improv.CoreModel.Parser
