import Improv.ExtFn.RoundTrip
/-!
# What an interpreter prints

The text that a prelude writes of a value is the content of a JSON string, the
last line of the output is the envelope, and what is read of it is the value, or
an error where the line is no JSON.
-/

namespace Improv.ExtFn

open Improv.Lib Improv.Lib.ByteOffsets Improv.CoreModel

variable {x : Outside} {lang : Lang}

/-! ## Texts written back -/

/-- A character inside a string that a prelude writes. -/
def textChar (c : Char) : List Char :=
  if c = '\\' then ['\\', '\\'] else if c = '"' then ['\\', '"']
  else if c = '\n' then ['\\', 'n'] else [c]

theorem escapeText_eq (lang : Lang) (s : List Char) : escapeText lang s = s.flatMap textChar := by
  cases lang with
  | julia => rfl
  | r =>
      show gsub '\n' ['\\', 'n'] (gsub '"' ['\\', '"'] (gsub '\\' ['\\', '\\'] s)) = _
      unfold gsub
      rw [List.flatMap_assoc, List.flatMap_assoc]
      apply List.flatMap_congr
      intro c _
      unfold textChar
      by_cases hback : c = '\\'
      · subst hback
        rfl
      · rw [if_neg hback, if_neg hback]
        by_cases hquote : c = '"'
        · subst hquote
          rfl
        · rw [if_neg hquote, List.flatMap_singleton, if_neg hquote, List.flatMap_singleton]

theorem content_escapeText (lang : Lang) (s : List Char) : Content (escapeText lang s) s := by
  rw [escapeText_eq]
  induction s with
  | nil => exact .nil
  | cons c s ih =>
      rw [List.flatMap_cons]
      unfold textChar
      by_cases hback : c = '\\'
      · rw [if_pos hback, hback]
        exact .backslash ih
      · by_cases hquote : c = '"'
        · rw [if_neg hback, if_pos hquote, hquote]
          exact .quote ih
        · by_cases hline : c = '\n'
          · rw [if_neg hback, if_neg hquote, if_pos hline, hline]
            exact .newline ih
          · rw [if_neg hback, if_neg hquote, if_neg hline]
            exact .plain hquote hback ih

theorem mem_escapeText {s : List Char} {d : Char} (h : d ∈ escapeText lang s) :
    d ∈ s ∧ d ≠ '\n' ∨ d = '\\' ∨ d = 'n' := by
  rw [escapeText_eq, List.mem_flatMap] at h
  obtain ⟨c, hc, hd⟩ := h
  unfold textChar at hd
  split at hd
  · exact .inr (.inl (by simpa using hd))
  · split at hd
    · next hquote =>
        rcases List.mem_cons.mp hd with rfl | hd
        · exact .inr (.inl rfl)
        · rw [List.mem_singleton.mp hd]
          exact .inl ⟨hquote ▸ hc, by decide⟩
    · split at hd
      · rcases List.mem_cons.mp hd with rfl | hd
        · exact .inr (.inl rfl)
        · exact .inr (.inr (List.mem_singleton.mp hd))
      · next hline =>
          rw [List.mem_singleton.mp hd]
          exact .inl ⟨hc, hline⟩

/-- A control character of a written text stands as it is, but for line ends. -/
theorem any_isControl_escapeText (lang : Lang) (s : List Char) :
    (escapeText lang s).any isControl = true ↔ ∃ c ∈ s, isControl c = true ∧ c ≠ '\n' := by
  rw [List.any_eq_true]
  constructor
  · rintro ⟨d, hd, hcontrol⟩
    rcases mem_escapeText hd with ⟨hmem, hline⟩ | rfl | rfl
    · exact ⟨d, hmem, hcontrol, hline⟩
    · exact absurd hcontrol (by decide)
    · exact absurd hcontrol (by decide)
  · rintro ⟨c, hc, hcontrol, hline⟩
    refine ⟨c, ?_, hcontrol⟩
    rw [escapeText_eq, List.mem_flatMap]
    refine ⟨c, hc, ?_⟩
    have hne : ∀ d : Char, isControl d = false → c ≠ d := fun d hd heq => by
      rw [heq, hd] at hcontrol
      cases hcontrol
    unfold textChar
    rw [if_neg (hne _ (by decide)), if_neg (hne _ (by decide)), if_neg hline]
    exact List.mem_singleton_self c

/-! ## Lines -/

theorem trimmed_line (m : List Char) :
    trimmed ('\x7b' :: (m ++ ['\x7d', '\n'])) = '\x7b' :: (m ++ ['\x7d']) ∧
      trimmed ('\x7b' :: (m ++ ['\x7d'])) = '\x7b' :: (m ++ ['\x7d']) := by
  have hfront : ∀ l : List Char, ('\x7b' :: l).dropWhile isWhitespace = '\x7b' :: l := fun l =>
    List.dropWhile_cons_of_neg (by decide)
  have hback : ('\x7d' :: (m.reverse ++ ['\x7b'])).dropWhile isWhitespace =
      '\x7d' :: (m.reverse ++ ['\x7b']) := List.dropWhile_cons_of_neg (by decide)
  unfold trimmed
  rw [hfront, hfront]
  constructor
  · rw [List.reverse_cons, List.reverse_append,
      show ['\x7d', '\n'].reverse = ['\n', '\x7d'] from rfl, List.append_assoc, List.cons_append,
      List.dropWhile_cons_of_pos (by decide), List.cons_append, List.nil_append, hback]
    simp
  · rw [List.reverse_cons, List.reverse_append, List.reverse_singleton, List.cons_append,
      List.cons_append, List.nil_append, hback]
    simp

theorem linesFrom_of_not_mem {s : List Char} (h : '\n' ∉ s) (line : List Char) :
    linesFrom line s = if line ++ s = [] then [] else [line ++ s] := by
  induction s generalizing line with
  | nil =>
      rw [linesFrom, List.append_nil]
  | cons c s ih =>
      rw [List.mem_cons, not_or] at h
      rw [linesFrom, if_neg (Ne.symm h.1), ih h.2, List.append_assoc]
      rfl

/-- The last line of what a program printed. -/
theorem lastLine_line {m : List Char} (h : '\n' ∉ m) :
    lastLine ('\x7b' :: (m ++ ['\x7d'])) = '\x7b' :: (m ++ ['\x7d']) := by
  have hnot : '\n' ∉ '\x7b' :: (m ++ ['\x7d']) := by
    simp only [List.mem_cons, List.mem_append, h, List.not_mem_nil, or_false, false_or]
    decide
  unfold lastLine
  rw [linesFrom_of_not_mem hnot, List.nil_append, if_neg (List.cons_ne_nil _ _),
    List.reverse_singleton, List.find?_cons_of_pos]
  · exact (trimmed_line m).2
  · rw [(trimmed_line m).2]
    exact decide_eq_true (List.cons_ne_nil _ _)

/-! ## Envelopes -/

theorem okLine_eq (t : List Char) : okLine t = envelope "ok" t ++ ['\n'] := by
  unfold okLine envelope
  have hname : "ok".toList = ['o', 'k'] := rfl
  rw [hname, show "\x7b\"ok\":".toList = ['\x7b', '"', 'o', 'k', '"', ':'] from rfl]
  simp

theorem errorLine_eq (t : List Char) : errorLine t = envelope "error" t ++ ['\n'] := by
  unfold errorLine envelope
  have hname : "error".toList = ['e', 'r', 'r', 'o', 'r'] := rfl
  rw [hname,
    show "\x7b\"error\":".toList = ['\x7b', '"', 'e', 'r', 'r', 'o', 'r', '"', ':'] from rfl]
  simp

/-- The JSON of a line that a program printed is read. -/
theorem okValue_envelope {key : String} (hkey : '\n' ∉ key.toList) {t : List Char}
    (ht : '\n' ∉ t) (err : List Char) (name : String) :
    okValue x (envelope key t ++ ['\n']) err name =
      match x.fromStr (envelope key t) with
      | none => .error (.runtime ("could not parse ".toList ++ name.toList ++
          " output as JSON: ".toList ++ x.jsonError (envelope key t) ++ " (output: ".toList ++
          x.debug (envelope key t) ++ [')']) err)
      | some env =>
        match (get env "error").bind asStr with
        | some message => .error (.runtime message.toList err)
        | none =>
          match get env "ok" with
          | none => .error (.runtime (name.toList ++
              " envelope missing \x60ok\x60/\x60error\x60: ".toList ++
              x.debug (envelope key t)) err)
          | some ok => .ok ok := by
  obtain ⟨m, hm⟩ : ∃ m, m = '"' :: (key.toList ++ '"' :: ':' :: t) := ⟨_, rfl⟩
  have henvelope : envelope key t = '\x7b' :: (m ++ ['\x7d']) := by
    rw [hm]
    unfold envelope
    simp
  have hnot : '\n' ∉ m := by
    rw [hm]
    simp only [List.mem_cons, List.mem_append, hkey, ht, or_false, false_or]
    decide
  unfold okValue
  simp only
  rw [henvelope, List.cons_append, List.append_assoc,
    show ['\x7d'] ++ ['\n'] = ['\x7d', '\n'] from rfl, (trimmed_line m).1,
    if_neg (List.cons_ne_nil _ _), lastLine_line hnot]
  all_goals rfl

theorem parseEnvelope_of_ok {out err : List Char} {name : String} {j : Json Number}
    (hj : okValue x out err name = .ok j) (ty : ValueType) :
    parseEnvelope x out err ty name =
      match jsonToValue x j ty with
      | .ok v => .ok v
      | .error (.failed m) => .error (.runtime ("return type mismatch: ".toList ++ m) err)
      | .error e => .error e := by
  unfold parseEnvelope
  rw [hj]
  rfl

/-- The value that a program printed as its result. -/
theorem parseEnvelope_okLine {t : List Char} (ht : '\n' ∉ t) (err : List Char) (ty : ValueType)
    (name : String) {j : Json Number}
    (hj : x.fromStr (envelope "ok" t) = some (.object [("ok", j)])) {v : Value}
    (hv : jsonToValue x j ty = .ok v) : parseEnvelope x (okLine t) err ty name = .ok v := by
  have hok : okValue x (okLine t) err name = .ok j := by
    rw [okLine_eq, okValue_envelope (by decide) ht, hj]
    rfl
  rw [parseEnvelope_of_ok hok, hv]

/-- A line that is no JSON is an error. -/
theorem parseEnvelope_of_none {key : String} (hkey : '\n' ∉ key.toList) {t : List Char}
    (ht : '\n' ∉ t) (err : List Char) (ty : ValueType) (name : String)
    (hnone : x.fromStr (envelope key t) = none) :
    ∃ m, parseEnvelope x (envelope key t ++ ['\n']) err ty name = .error (.runtime m err) := by
  unfold parseEnvelope
  rw [okValue_envelope hkey ht, hnone]
  exact ⟨_, rfl⟩

theorem not_mem_escapeText (lang : Lang) (s : List Char) : '\n' ∉ escapeText lang s := by
  intro h
  rcases mem_escapeText h with ⟨-, h⟩ | h | h
  · exact h rfl
  · exact absurd h (by decide)
  · exact absurd h (by decide)

theorem not_mem_written (lang : Lang) (s : List Char) :
    '\n' ∉ '"' :: (escapeText lang s ++ ['"']) := by
  simp only [List.mem_cons, List.mem_append, not_mem_escapeText, List.not_mem_nil, or_false,
    false_or]
  decide

/-- An error that a program printed is an error. -/
theorem parseEnvelope_errorLine (hx : x.Documented) (s err : List Char) (ty : ValueType)
    (name : String) :
    ∃ m, parseEnvelope x (errorLine ('"' :: (escapeText lang s ++ ['"']))) err ty name =
      .error (.runtime m err) := by
  have hread := hx.fromStr_string "error" (by decide) _ _ (content_escapeText lang s)
  rw [errorLine_eq]
  by_cases hcontrol : (escapeText lang s).any isControl = true
  · rw [if_pos hcontrol] at hread
    exact parseEnvelope_of_none (by decide) (not_mem_written lang s) err ty name hread
  · rw [if_neg hcontrol] at hread
    unfold parseEnvelope
    rw [okValue_envelope (by decide) (not_mem_written lang s), hread]
    exact ⟨_, rfl⟩

end Improv.ExtFn
