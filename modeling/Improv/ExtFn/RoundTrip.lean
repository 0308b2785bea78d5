import Improv.Lib.ExceptLemmas
import Improv.ExtFn.Preludes
/-!
# An argument through an interpreter

What each step makes of an argument: the literal holds the payload, a prelude
reads a text from it with its control characters spelled out, and the last line
of the output is the envelope the program printed.
-/

namespace Improv.ExtFn

open Improv.Lib Improv.CoreModel

/-! ## Literals -/

/-- A character inside a string literal. -/
def literalChar (lang : Lang) (c : Char) : List Char :=
  if lang = .julia ∧ c = '$' then ['\\', '$'] else escapeChar c

theorem escapeChar_of_not_control {c : Char} (h : isControl c = false) :
    escapeChar c = if c = '"' then ['\\', '"'] else if c = '\\' then ['\\', '\\'] else [c] := by
  have hne : ∀ d : Char, isControl d = true → c ≠ d := fun d hd heq => by
    rw [heq, hd] at h
    cases h
  unfold escapeChar
  simp only [hne '\n' (by decide), hne '\t' (by decide), hne '\r' (by decide),
    hne backspace (by decide), hne formFeed (by decide), h, Bool.false_eq_true, if_false]

theorem literalChar_of_escape {c : Char} (h : isControl c = false) :
    (escapeChar c).flatMap (fun c => if c = '$' then ['\\', '$'] else [c]) =
      literalChar .julia c := by
  unfold literalChar
  rw [escapeChar_of_not_control h]
  by_cases hquote : c = '"'
  · subst hquote
    rfl
  · by_cases hback : c = '\\'
    · subst hback
      rfl
    · rw [if_neg hquote, if_neg hback, List.flatMap_singleton]
      simp only [true_and]

theorem strLiteral_eq (lang : Lang) {s : List Char} (h : ∀ c ∈ s, isControl c = false) :
    strLiteral lang s = '"' :: (s.flatMap (literalChar lang) ++ ['"']) := by
  cases lang with
  | r =>
      have hchar : literalChar .r = escapeChar := by
        ext1 c
        exact if_neg fun h => by cases h.1
      rw [hchar]
      rfl
  | julia =>
      show ('"' :: (s.flatMap escapeChar ++ ['"'])).flatMap
        (fun c => if c = '$' then ['\\', '$'] else [c]) = _
      rw [List.flatMap_cons, List.flatMap_append, List.flatMap_assoc]
      have hchars : s.flatMap (fun c => (escapeChar c).flatMap
          fun c => if c = '$' then ['\\', '$'] else [c]) = s.flatMap (literalChar .julia) :=
        List.flatMap_congr fun c hc => literalChar_of_escape (h c hc)
      rw [hchars]
      rfl

theorem readLiteral_escape {lang : Lang} {e : Char}
    (he : e = '"' ∨ e = '\\' ∨ lang = .julia ∧ e = '$') (s : List Char) :
    readLiteral lang ('\\' :: e :: s) = (readLiteral lang s).map (e :: ·) := by
  rw [readLiteral.eq_def]
  exact if_pos he

theorem readLiteral_literalChar {lang : Lang} {c : Char} (h : isControl c = false)
    (s : List Char) :
    readLiteral lang (literalChar lang c ++ s) = (readLiteral lang s).map (c :: ·) := by
  unfold literalChar
  rw [escapeChar_of_not_control h]
  by_cases hdollar : lang = .julia ∧ c = '$'
  · rw [if_pos hdollar, hdollar.2]
    exact readLiteral_escape (.inr (.inr ⟨hdollar.1, rfl⟩)) s
  · rw [if_neg hdollar]
    by_cases hquote : c = '"'
    · rw [if_pos hquote, hquote]
      exact readLiteral_escape (.inl rfl) s
    · rw [if_neg hquote]
      by_cases hback : c = '\\'
      · rw [if_pos hback, hback]
        exact readLiteral_escape (.inr (.inl rfl)) s
      · rw [if_neg hback, List.singleton_append, readLiteral.eq_def]
        simp only [hquote, hback, hdollar, if_false]

/-- The literal of a text without control characters is the text. -/
theorem evalLiteral_strLiteral (lang : Lang) {s : List Char}
    (h : ∀ c ∈ s, isControl c = false) : evalLiteral lang (strLiteral lang s) = some s := by
  rw [strLiteral_eq lang h]
  show readLiteral lang _ = _
  induction s with
  | nil => rfl
  | cons c s ih =>
      rw [List.forall_mem_cons] at h
      rw [List.flatMap_cons, List.append_assoc, readLiteral_literalChar h.1, ih h.2]
      rfl

/-! ## Texts -/

/-- What a prelude reads an escaped character as. -/
def readBack (c : Char) : List Char :=
  match escapeChar c with
  | '\\' :: e :: rest => unescape e :: rest
  | l => l

theorem digitChar_plain {n : Nat} (h : n < 16) :
    n.digitChar ≠ '"' ∧ n.digitChar ≠ '\\' ∧ isControl n.digitChar = false := by
  have hall : ∀ n < 16, Nat.digitChar n ≠ '"' ∧ Nat.digitChar n ≠ '\\' ∧
      isControl (Nat.digitChar n) = false := by decide
  exact hall n h

/-- A control character that is spelled out and not read back. -/
def Lost (c : Char) : Prop := isControl c = true ∧ c ≠ '\n' ∧ c ≠ '\t' ∧ c ≠ '\r'

instance (c : Char) : Decidable (Lost c) := inferInstanceAs (Decidable (_ ∧ _))

/-- A character spelled as a backslash, `e` and more. -/
structure Spelled (c e : Char) (rest : List Char) : Prop where
  escape : escapeChar c = '\\' :: e :: rest
  plain : ∀ d ∈ rest, d ≠ '"' ∧ d ≠ '\\'
  kept : ¬Lost c → unescape e :: rest = [c]
  lost : Lost c → ∀ d ∈ unescape e :: rest, isControl d = false
  shown : ∀ d ∈ e :: rest, isControl d = false

theorem Spelled.readBack {c e : Char} {rest : List Char} (h : Spelled c e rest) :
    readBack c = unescape e :: rest := by
  unfold ExtFn.readBack
  simp only [h.escape]

theorem shown_of_any {l : List Char} (h : l.any isControl = false) :
    ∀ d ∈ l, isControl d = false := fun d hd => by
  rw [← Bool.not_eq_true]
  exact List.any_eq_false.mp h d hd

theorem spelled_of_lost {c : Char} (h : Lost c) : ∃ e rest, Spelled c e rest := by
  by_cases hb : c = backspace
  · subst hb
    exact ⟨'b', [], rfl, List.forall_mem_nil _, fun hk => absurd h hk,
      fun _ => shown_of_any (by decide), shown_of_any (by decide)⟩
  · by_cases hf : c = formFeed
    · subst hf
      exact ⟨'f', [], rfl, List.forall_mem_nil _, fun hk => absurd h hk,
        fun _ => shown_of_any (by decide), shown_of_any (by decide)⟩
    · have hlt : c.toNat < 32 := of_decide_eq_true h.1
      have hhigh := @digitChar_plain (c.toNat / 16) (by omega)
      have hlow := @digitChar_plain (c.toNat % 16) (by omega)
      have hquote : c ≠ '"' := fun heq => by
        rw [heq] at hlt
        revert hlt
        decide
      have hback : c ≠ '\\' := fun heq => by
        rw [heq] at hlt
        revert hlt
        decide
      have hescape : escapeChar c =
          ['\\', 'u', '0', '0', Nat.digitChar (c.toNat / 16), Nat.digitChar (c.toNat % 16)] := by
        unfold escapeChar
        simp only [hquote, hback, h.2.1, h.2.2.1, h.2.2.2, hb, hf, h.1, if_false, if_true]
      have hshown : ∀ d ∈ ['u', '0', '0', Nat.digitChar (c.toNat / 16),
          Nat.digitChar (c.toNat % 16)], isControl d = false := by
        rw [List.forall_mem_cons, List.forall_mem_cons, List.forall_mem_cons, List.forall_mem_cons]
        exact ⟨by decide, by decide, by decide, hhigh.2.2, List.forall_mem_singleton.mpr hlow.2.2⟩
      refine ⟨'u', _, hescape, ?_, fun hk => absurd h hk, fun _ => hshown, hshown⟩
      simp only [List.forall_mem_cons]
      exact ⟨by decide, by decide, ⟨hhigh.1, hhigh.2.1⟩, ⟨hlow.1, hlow.2.1⟩,
        fun d hd => by cases hd⟩

/-- An escaped character is itself, or spelled. -/
theorem escapeChar_cases (c : Char) :
    (escapeChar c = [c] ∧ readBack c = [c] ∧ c ≠ '"' ∧ c ≠ '\\' ∧ isControl c = false) ∨
      ∃ e rest, Spelled c e rest := by
  have hlost : ∀ d : Char, (d = '"' ∨ d = '\\' ∨ d = '\n' ∨ d = '\t' ∨ d = '\r') → ¬Lost d := by
    rintro d (rfl | rfl | rfl | rfl | rfl) <;> decide
  by_cases h : c = '"' ∨ c = '\\' ∨ c = '\n' ∨ c = '\t' ∨ c = '\r'
  · right
    have hkept := hlost c h
    rcases h with rfl | rfl | rfl | rfl | rfl
    all_goals
      exact ⟨_, [], rfl, List.forall_mem_nil _, fun _ => rfl, fun h => absurd h hkept,
        shown_of_any (by decide)⟩
  · push Not at h
    obtain ⟨hquote, hback, hn, ht, hr⟩ := h
    cases hcontrol : isControl c with
    | false =>
        left
        have hescape : escapeChar c = [c] := by
          rw [escapeChar_of_not_control hcontrol, if_neg hquote, if_neg hback]
        refine ⟨hescape, ?_, hquote, hback, rfl⟩
        unfold readBack
        simp only [hescape]
    | true => exact .inr (spelled_of_lost ⟨hcontrol, hn, ht, hr⟩)

theorem parseStr_plain {l : List Char} (h : ∀ c ∈ l, c ≠ '"' ∧ c ≠ '\\') (s : List Char) :
    parseStr (l ++ s) = (parseStr s).map fun p => (l ++ p.1, p.2) := by
  induction l with
  | nil =>
      rw [List.nil_append]
      cases parseStr s <;> rfl
  | cons c l ih =>
      rw [List.forall_mem_cons] at h
      rw [List.cons_append, parseStr.eq_def]
      simp only [h.1.1, h.1.2, if_false, ih h.2, Option.map_map]
      rfl

theorem parseStr_escape (e : Char) (s : List Char) :
    parseStr ('\\' :: e :: s) = (parseStr s).map fun p => (unescape e :: p.1, p.2) := by
  rw [parseStr.eq_def]
  rfl

theorem parseStr_escapeChar (c : Char) (s : List Char) :
    parseStr (escapeChar c ++ s) = (parseStr s).map fun p => (readBack c ++ p.1, p.2) := by
  rcases escapeChar_cases c with ⟨hescape, hread, hquote, hback, -⟩ | ⟨e, rest, hspelled⟩
  · rw [hescape, hread]
    exact parseStr_plain (by simpa using ⟨hquote, hback⟩) s
  · rw [hspelled.escape, hspelled.readBack, List.cons_append, List.cons_append, parseStr_escape,
      parseStr_plain hspelled.plain, Option.map_map]
    rfl

/-- A prelude reads a text with its characters read back. -/
theorem parseStr_text (t s : List Char) :
    parseStr (t.flatMap escapeChar ++ '"' :: s) = some (t.flatMap readBack, s) := by
  induction t with
  | nil =>
      rw [List.flatMap_nil, List.nil_append, parseStr.eq_def]
      rfl
  | cons c t ih =>
      rw [List.flatMap_cons, List.append_assoc, parseStr_escapeChar, ih, List.flatMap_cons]
      rfl

/-! ## Outside functions -/

/-- The text of a JSON string, some of it escaped, and what it stands for; control
characters stand in it as they are. -/
inductive Content : List Char → List Char → Prop
  | nil : Content [] []
  | plain {c : Char} {body s : List Char} (hquote : c ≠ '"') (hback : c ≠ '\\')
    (h : Content body s) : Content (c :: body) (c :: s)
  | quote {body s : List Char} (h : Content body s) : Content ('\\' :: '"' :: body) ('"' :: s)
  | backslash {body s : List Char} (h : Content body s) :
    Content ('\\' :: '\\' :: body) ('\\' :: s)
  | newline {body s : List Char} (h : Content body s) : Content ('\\' :: 'n' :: body) ('\n' :: s)

/-- An object of one field. -/
def envelope (key : String) (t : List Char) : List Char :=
  '\x7b' :: '"' :: (key.toList ++ '"' :: ':' :: (t ++ ['\x7d']))

/-- Some text of the characters of numbers. -/
def NumberText (t : List Char) : Prop := t ≠ [] ∧ ∀ c ∈ t, isNumberChar c = true

/-- The documented behaviour that the runners rely on: a finite number's text reads
back as the number, and a JSON reader reads an object of one scalar field, where no
control character stands as it is. -/
structure Outside.Documented (x : Outside) : Prop where
  writeNumber : ∀ n, n.isFinite = true → NumberText (x.writeNumber n)
  format : ∀ n, n.isFinite = true → NumberText (x.format n)
  string : ∀ n, n.isFinite = true → NumberText (x.string n)
  asNumeric : ∀ n, n.isFinite = true → x.asNumeric (x.writeNumber n) = n
  parse : ∀ n, n.isFinite = true → x.parse (x.writeNumber n) = some n
  fromStr_bool : ∀ b : Bool, x.fromStr
    (envelope "ok" (if b then "true".toList else "false".toList)) = some (.object [("ok", .bool b)])
  fromStr_number : ∀ t, NumberText t →
    x.fromStr (envelope "ok" t) = (x.readNumber t).map fun n => .object [("ok", .number n)]
  fromStr_string : ∀ key ∈ ["ok", "error"], ∀ body s, Content body s →
    x.fromStr (envelope key ('"' :: (body ++ ['"']))) =
      if body.any isControl then none else some (.object [(key, .string (.ofList s))])

/-! ## The payload -/

/-- A value that a function's arguments are of. -/
def Marshalled : Value → Prop
  | .number n => n.isFinite = true
  | .boolean _ => True
  | .text _ => True
  | _ => False

def argText (x : Outside) (v : Value) : List Char := text x (valueToJson x v)

/-- An argument as a prelude reads it. -/
def itemOf : Value → Item
  | .number n => .num n
  | .boolean b => .bool b
  | .text s => .str (s.toList.flatMap readBack)
  | _ => .null

variable {x : Outside} {lang : Lang}

theorem text_items (first : Bool) (js : List (Json Number)) :
    text.items' x first js =
      match js with
      | [] => []
      | j :: js => (if first then [] else [',']) ++
          (text x j ++ js.flatMap fun j => ',' :: text x j) := by
  induction js generalizing first with
  | nil => rfl
  | cons j js ih =>
      unfold text.items'
      rw [ih]
      cases js with
      | nil => rfl
      | cons j' js => rfl

theorem payload_eq (v : Value) (vs : List Value) :
    payload x (v :: vs) = '\x7b' :: '"' :: ("args".toList ++ '"' :: ':' :: '[' ::
      (argText x v ++ (vs.flatMap (fun w => ',' :: argText x w) ++ [']', '\x7d']))) := by
  have hitems := text_items (x := x) true ((v :: vs).map (valueToJson x))
  simp only [List.map_cons, List.flatMap_map] at hitems
  have hname : "args".toList = ['a', 'r', 'g', 's'] := rfl
  have hkey : quoted ['a', 'r', 'g', 's'] = ['"', 'a', 'r', 'g', 's', '"'] := by decide
  unfold payload argText
  simp only [text, text.fields', text.field, List.map_cons, hitems, hname, hkey, if_true,
    List.nil_append, List.append_nil, List.cons_append, List.append_assoc]

theorem isNumberChar_spec {c : Char} (h : isNumberChar c = true) :
    isControl c = false ∧ isBlank c = false ∧ c ≠ '\x7b' ∧ c ≠ '[' ∧ c ≠ '"' ∧ c ≠ 't' ∧ c ≠ 'f' ∧
      c ≠ 'n' ∧ c ≠ '\x7d' ∧ c ≠ ']' ∧ c ≠ ',' ∧ c ≠ '\n' := by
  have hne : ∀ d : Char, isNumberChar d = false → c ≠ d := fun d hd heq => by
    rw [heq, hd] at h
    cases h
  have hcontrol : isControl c = false := by
    rw [Bool.eq_false_iff]
    intro hc
    have hlt : c.toNat < 32 := of_decide_eq_true hc
    unfold isNumberChar at h
    simp only [Bool.or_eq_true, decide_eq_true_eq] at h
    rcases h with ((((rfl | rfl) | rfl) | rfl) | rfl) | h
    · exact absurd hlt (by decide)
    · exact absurd hlt (by decide)
    · exact absurd hlt (by decide)
    · exact absurd hlt (by decide)
    · exact absurd hlt (by decide)
    · have hle : 48 ≤ c.toNat := by
        unfold Char.isDigit at h
        rw [Bool.and_eq_true, decide_eq_true_eq] at h
        exact h.1
      omega
  refine ⟨hcontrol, ?_, hne _ (by decide), hne _ (by decide), hne _ (by decide), hne _ (by decide),
    hne _ (by decide), hne _ (by decide), hne _ (by decide), hne _ (by decide), hne _ (by decide),
    hne _ (by decide)⟩
  unfold isBlank
  simp only [hne ' ' (by decide), hne '\t' (by decide), hne '\n' (by decide),
    hne '\r' (by decide), decide_false, Bool.or_false]

theorem skipWs_cons {c : Char} (h : isBlank c = false) (s : List Char) :
    skipWs (c :: s) = c :: s := by
  unfold skipWs
  rw [List.dropWhile_cons_of_neg (by rw [h]; exact Bool.false_ne_true)]

theorem argText_number {n : F64} (hn : Marshalled (.number n)) :
    argText x (.number n) = x.writeNumber n := by
  have hjson : valueToJson x (.number n) = .number (.float n) := if_pos hn
  rw [argText, hjson, text, numberText]

/-- An argument's text begins with a character that is no blank and no bracket's end. -/
theorem argText_head (hx : x.Documented) {v : Value} (hv : Marshalled v) :
    ∃ c t, argText x v = c :: t ∧ isBlank c = false ∧ c ≠ ']' := by
  cases v with
  | number n =>
      obtain ⟨hne, hall⟩ := hx.writeNumber n hv
      rw [argText_number hv]
      cases hw : x.writeNumber n with
      | nil => exact absurd hw hne
      | cons c t =>
          have hc := isNumberChar_spec (hall c (by rw [hw]; exact List.mem_cons_self))
          exact ⟨c, t, rfl, hc.2.1, hc.2.2.2.2.2.2.2.2.2.1⟩
  | boolean b =>
      cases b with
      | false => exact ⟨'f', _, rfl, by decide, by decide⟩
      | true => exact ⟨'t', _, rfl, by decide, by decide⟩
  | text s => exact ⟨'"', _, rfl, by decide, by decide⟩
  | _ => exact hv.elim

theorem escapeChar_shown (c : Char) : ∀ d ∈ escapeChar c, isControl d = false := by
  rcases escapeChar_cases c with ⟨hescape, -, -, -, hshown⟩ | ⟨e, rest, hspelled⟩
  · rw [hescape]
    exact List.forall_mem_singleton.mpr hshown
  · rw [hspelled.escape, List.forall_mem_cons]
    exact ⟨by decide, hspelled.shown⟩

theorem argText_shown (hx : x.Documented) {v : Value} (hv : Marshalled v) :
    ∀ c ∈ argText x v, isControl c = false := by
  cases v with
  | number n =>
      rw [argText_number hv]
      exact fun c hc => (isNumberChar_spec ((hx.writeNumber n hv).2 c hc)).1
  | boolean b =>
      cases b with
      | false =>
          exact @shown_of_any "false".toList (by decide)
      | true =>
          exact @shown_of_any "true".toList (by decide)
  | text s =>
      show ∀ c ∈ '"' :: (s.toList.flatMap escapeChar ++ ['"']), _
      rw [List.forall_mem_cons]
      refine ⟨by decide, fun c hc => ?_⟩
      rcases List.mem_append.mp hc with hc | hc
      · obtain ⟨d, -, hd⟩ := List.mem_flatMap.mp hc
        exact escapeChar_shown d c hd
      · rw [List.mem_singleton.mp hc]
        decide
  | _ => exact hv.elim

/-- A payload holds no control character. -/
theorem payload_shown (hx : x.Documented) {v : Value} {vs : List Value}
    (h : ∀ w ∈ v :: vs, Marshalled w) : ∀ c ∈ payload x (v :: vs), isControl c = false := by
  have hname : "args".toList = ['a', 'r', 'g', 's'] := rfl
  rw [List.forall_mem_cons] at h
  rw [payload_eq, hname]
  simp only [List.cons_append, List.nil_append, List.forall_mem_cons, List.forall_mem_append,
    List.mem_flatMap, forall_exists_index, and_imp]
  refine ⟨by decide, by decide, by decide, by decide, by decide, by decide, by decide, by decide,
    by decide, argText_shown hx h.1, fun c w hw hc => ?_, by decide, by decide,
    fun c hc => by cases hc⟩
  rcases List.mem_cons.mp hc with rfl | hc
  · decide
  · exact argText_shown hx (h.2 w hw) c hc

theorem parseNum_text {n : F64} {t s : List Char} (ht : NumberText t)
    (hnum : toNumber x lang t = some n) (hs : ∀ c ∈ s.head?, isNumberChar c = false) :
    parseNum x lang (t ++ s) = some (.num n, s) := by
  have htake : (t ++ s).takeWhile isNumberChar = t := by
    rw [List.takeWhile_append_of_pos ht.2]
    cases s with
    | nil => rw [List.takeWhile_nil, List.append_nil]
    | cons c s =>
        rw [List.takeWhile_cons_of_neg (by rw [hs c rfl]; exact Bool.false_ne_true),
          List.append_nil]
  unfold parseNum
  simp only
  rw [htake, if_neg ht.1, hnum, List.drop_left]
  rfl

theorem parseVal_quote (s : List Char) (fuel : Nat) :
    parseVal x lang (fuel + 1) ('"' :: s) = (parseStr s).map fun p => (.str p.1, p.2) := by
  rw [parseVal, skipWs_cons (by decide)]
  rfl

/-- A prelude reads an argument. -/
theorem parseVal_arg (hx : x.Documented) {v : Value} (hv : Marshalled v) {s : List Char}
    (hs : ∀ c ∈ s.head?, isNumberChar c = false) (fuel : Nat) :
    parseVal x lang (fuel + 1) (argText x v ++ s) = some (itemOf v, s) := by
  cases v with
  | number n =>
      obtain ⟨c, t, hct, hblank, -⟩ := argText_head hx hv
      have htext := @argText_number x n hv
      have hall := hx.writeNumber n hv
      have hc := isNumberChar_spec (hall.2 c (by rw [← htext, hct]; exact List.mem_cons_self))
      have hnum : toNumber x lang (x.writeNumber n) = some n := by
        cases lang with
        | r => exact congrArg some (hx.asNumeric n hv)
        | julia => exact hx.parse n hv
      rw [parseVal, hct, List.cons_append, skipWs_cons hblank]
      simp only
      rw [if_neg hc.2.2.1, if_neg hc.2.2.2.1, if_neg hc.2.2.2.2.1, if_neg hc.2.2.2.2.2.1,
        if_neg hc.2.2.2.2.2.2.1, if_neg hc.2.2.2.2.2.2.2.1, ← List.cons_append, ← hct, htext]
      exact parseNum_text hall hnum hs
  | boolean b => cases b <;> rfl
  | text t =>
      have htext : argText x (.text t) ++ s = '"' :: (t.toList.flatMap escapeChar ++ '"' :: s) := by
        show '"' :: (t.toList.flatMap escapeChar ++ ['"']) ++ s = _
        rw [List.cons_append, List.append_assoc]
        rfl
      rw [htext, parseVal_quote, parseStr_text]
      rfl
  | _ => exact hv.elim

theorem push_itemOf {v : Value} (hv : Marshalled v) (out : List Item) :
    push lang out (itemOf v) = out ++ [itemOf v] := by
  cases v with
  | number n => cases lang <;> rfl
  | boolean b => cases lang <;> rfl
  | text s => cases lang <;> rfl
  | _ => exact hv.elim

theorem parseArr_step {v : Item} {s r : List Char} {c : Char} {fuel : Nat} (out : List Item)
    (hv : parseVal x lang fuel s = some (v, c :: r)) (hblank : isBlank c = false) :
    parseArr x lang (fuel + 1) out s =
      if c = ',' then parseArr x lang fuel (push lang out v) r
      else if c = ']' then some (.list (push lang out v), r)
      else parseArr x lang fuel (push lang out v) (c :: r) := by
  rw [parseArr, hv]
  simp only [Option.bind_eq_bind, Option.bind_some, skipWs_cons hblank]

/-- A prelude reads the arguments from one on. -/
theorem parseArr_args (hx : x.Documented) {v : Value} {vs : List Value}
    (h : ∀ w ∈ v :: vs, Marshalled w) (out : List Item) (s : List Char) {fuel : Nat}
    (hfuel : vs.length + 2 ≤ fuel) :
    parseArr x lang fuel out
        (argText x v ++ (vs.flatMap (fun w => ',' :: argText x w) ++ ']' :: s)) =
      some (.list (out ++ (v :: vs).map itemOf), s) := by
  have hhead : ∀ (d : Char) (r : List Char), isNumberChar d = false →
      ∀ c ∈ (d :: r).head?, isNumberChar c = false := fun d r hd c hc => by
    cases hc
    exact hd
  induction vs generalizing v out fuel with
  | nil =>
      obtain ⟨fuel, rfl⟩ : ∃ n, fuel = n + 2 := ⟨fuel - 2, by omega⟩
      have hv := h v List.mem_cons_self
      rw [List.flatMap_nil, List.nil_append,
        parseArr_step out (parseVal_arg hx hv (hhead _ s (by decide)) fuel) (by decide),
        push_itemOf hv]
      rfl
  | cons w vs ih =>
      obtain ⟨fuel, rfl⟩ : ∃ n, fuel = n + 2 := ⟨fuel - 2, by omega⟩
      rw [List.forall_mem_cons] at h
      rw [List.length_cons] at hfuel
      rw [List.flatMap_cons, List.cons_append, List.cons_append, List.append_assoc,
        parseArr_step out (parseVal_arg hx h.1 (hhead _ _ (by decide)) fuel) (by decide),
        if_pos rfl, push_itemOf h.1, ih h.2 _ (by omega), List.append_assoc]
      rfl

theorem parseVal_brace {d : Char} (r : List Char) (fuel : Nat) (hblank : isBlank d = false)
    (hd : d ≠ '\x7d') :
    parseVal x lang (fuel + 1) ('\x7b' :: d :: r) = parseObj x lang fuel [] (d :: r) := by
  rw [parseVal, skipWs_cons (by decide)]
  simp only [if_true, skipWs_cons hblank, hd, if_false]

/-- A prelude reads the array of the arguments. -/
theorem parseVal_bracket (hx : x.Documented) {v : Value} {vs : List Value}
    (h : ∀ w ∈ v :: vs, Marshalled w) (s : List Char) {fuel : Nat}
    (hfuel : vs.length + 2 ≤ fuel) :
    parseVal x lang (fuel + 1)
        ('[' :: (argText x v ++ (vs.flatMap (fun w => ',' :: argText x w) ++ ']' :: s))) =
      some (.list ((v :: vs).map itemOf), s) := by
  obtain ⟨c, t, hct, hblank, hend⟩ := argText_head hx (h v List.mem_cons_self)
  have harr := @parseArr_args x lang hx v vs h [] s fuel hfuel
  rw [hct, List.cons_append] at harr ⊢
  rw [parseVal, skipWs_cons (by decide)]
  simp only [show ('[' : Char) ≠ '\x7b' by decide, if_false, if_true, skipWs_cons hblank, hend]
  exact harr

/-- The only field of an object. -/
theorem parseObj_step {k s r r' : List Char} {v : Item} {c d : Char} {fuel : Nat}
    (out : List (List Char × Item)) (hk : parseStr s = some (k, ':' :: d :: r))
    (hv : parseVal x lang fuel (d :: r) = some (v, c :: r')) (hblank : isBlank c = false) :
    parseObj x lang (fuel + 1) out ('"' :: s) =
      if c = ',' then parseObj x lang fuel (assign lang out k v) r'
      else if c = '\x7d' then some (.dict (assign lang out k v), r')
      else parseObj x lang fuel (assign lang out k v) (c :: r') := by
  rw [parseObj, skipWs_cons (by decide), List.drop_succ_cons, List.drop_zero, hk]
  simp only [Option.bind_eq_bind, Option.bind_some,
    skipWs_cons (show isBlank ':' = false by decide),
    List.drop_succ_cons, List.drop_zero, hv, skipWs_cons hblank]

/-- A prelude reads the payload of some arguments. -/
theorem fromJson_payload (hx : x.Documented) {v : Value} {vs : List Value}
    (h : ∀ w ∈ v :: vs, Marshalled w) :
    fromJson x lang (payload x (v :: vs)) =
      some (.dict [("args".toList, .list ((v :: vs).map itemOf))]) := by
  have hlen : vs.length + 5 ≤ (payload x (v :: vs)).length := by
    have hname : "args".toList = ['a', 'r', 'g', 's'] := rfl
    have hcommas : vs.length ≤ (vs.flatMap fun w => ',' :: argText x w).length := by
      clear h hx
      induction vs with
      | nil => exact Nat.le_refl _
      | cons w vs ih =>
          rw [List.flatMap_cons, List.length_append, List.length_cons, List.length_cons]
          omega
    rw [payload_eq, hname]
    simp only [List.length_cons, List.length_append]
    omega
  obtain ⟨fuel, hfuel⟩ : ∃ n, (payload x (v :: vs)).length = n + 4 :=
    ⟨(payload x (v :: vs)).length - 4, by omega⟩
  have hkey : parseStr ("args".toList ++ '"' :: ':' :: '[' ::
      (argText x v ++ (vs.flatMap (fun w => ',' :: argText x w) ++ [']', '\x7d']))) =
      some ("args".toList, ':' :: '[' ::
        (argText x v ++ (vs.flatMap (fun w => ',' :: argText x w) ++ [']', '\x7d']))) := by
    have hplain : ∀ c ∈ "args".toList, c ≠ '"' ∧ c ≠ '\\' := fun c hc =>
      ⟨fun h => absurd (h ▸ hc) (by decide), fun h => absurd (h ▸ hc) (by decide)⟩
    rw [parseStr_plain hplain, parseStr.eq_def]
    rfl
  unfold fromJson
  rw [hfuel, payload_eq, parseVal_brace _ _ (by decide) (by decide),
    parseObj_step [] hkey (parseVal_bracket hx h ['\x7d'] (by omega)) (by decide)]
  cases lang <;> rfl

end Improv.ExtFn
