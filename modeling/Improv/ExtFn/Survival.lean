import Improv.ExtFn.Output
import Improv.Lib.Decimal
/-!
# What survives an interpreter

An argument comes back, or an error does, unless a text has a control character
that the preludes read as another text, or the number that is written back reads
as another.  An envelope is read without a panic unless a value of another type
has byte 60 of its text inside a character.
-/

namespace Improv.ExtFn

open Improv.Lib Improv.Lib.ByteOffsets Improv.CoreModel

variable {x : Outside} {lang : Lang}

/-! ## One argument -/

/-- What a prelude prints of a result. -/
def resultLine (x : Outside) (lang : Lang) (v : Item) : List Char :=
  match toJson x lang v with
  | .ok t => okLine t
  | .error e => errorLine ('"' :: (escapeText lang e ++ ['"']))

theorem runProgram_argument (hx : x.Documented) {args : List Value}
    (hargs : ∀ w ∈ args, Marshalled w) {k : Nat} {v : Value} (hk : args[k]? = some v) :
    runProgram x lang (argument k) (payload x args) = resultLine x lang (itemOf v) := by
  cases args with
  | nil => cases hk
  | cons w ws =>
      have hv : Marshalled v := hargs v (List.mem_of_getElem? hk)
      have hitem : argument k ((w :: ws).map itemOf) = .ok (itemOf v) := by
        unfold argument
        rw [List.getElem?_map, hk]
        rfl
      unfold runProgram
      rw [evalLiteral_strLiteral lang (payload_shown hx hargs), Option.bind_some,
        fromJson_payload hx hargs]
      simp only [List.find?_cons_of_pos, decide_true, Option.map_some, hitem]
      cases v with
      | number n => rfl
      | boolean b => rfl
      | text s => rfl
      | _ => exact hv.elim

/-- What came back is the value, or an error that is no panic. -/
def Returned (r : Except Fault Value) (v : Value) : Prop :=
  r = .ok v ∨ ∃ m e, r = .error (.runtime m e)

theorem returned_ok {w v : Value} : Returned (.ok w) v ↔ w = v := by
  unfold Returned
  simp

theorem returned_runtime {r : Except Fault Value} {v : Value} {err : List Char}
    (h : ∃ m, r = .error (.runtime m err)) : Returned r v := by
  obtain ⟨m, hm⟩ := h
  exact .inr ⟨m, err, hm⟩

/-- When an argument comes back. -/
def Survives (x : Outside) (lang : Lang) : Value → Prop
  | .number n => ∀ t ∈ writeNum x lang n, ∀ m ∈ x.readNumber t, m.asF64 = n
  | .text s => (∃ c ∈ s.toList, c = '\t' ∨ c = '\r') ∨
      ∀ c ∈ s.toList, isControl c = true → c = '\n'
  | _ => True

/-! ## Numbers -/

theorem numberText_wholeText (i : Int) : NumberText (wholeText i) := by
  unfold wholeText
  refine ⟨?_, fun c hc => ?_⟩
  · rw [ne_eq, List.append_eq_nil_iff, not_and]
    exact fun _ => Nat.toDigits_ne_nil
  · rcases List.mem_append.mp hc with hc | hc
    · split at hc
      · rw [List.mem_singleton.mp hc]
        rfl
      · cases hc
    · have hdigit : c.isDigit = true := Nat.isDigit_of_mem_toDigits (by omega) (by omega) hc
      unfold isNumberChar
      rw [hdigit, Bool.or_true]

theorem numberText_writeNum (hx : x.Documented) {n : F64} (hn : n.isFinite = true) {t : List Char}
    (ht : writeNum x lang n = some t) : NumberText t := by
  cases lang with
  | r =>
      cases ht
      exact hx.format n hn
  | julia =>
      unfold writeNum at ht
      simp only at ht
      split at ht
      · split at ht
        · cases ht
          exact numberText_wholeText _
        · cases ht
      · cases ht
        exact hx.string n hn

theorem NumberText.notMem {t : List Char} (h : NumberText t) : '\n' ∉ t := fun hmem =>
  absurd (h.2 _ hmem) (by decide)

theorem number_returned (hx : x.Documented) {n : F64} (hn : n.isFinite = true) (err : List Char)
    (name : String) :
    Returned (parseEnvelope x (resultLine x lang (.num n)) err .number name) (.number n) ↔
      Survives x lang (.number n) := by
  show _ ↔ ∀ t ∈ writeNum x lang n, ∀ m ∈ x.readNumber t, m.asF64 = n
  unfold resultLine
  cases hwrite : writeNum x lang n with
  | none =>
      have hjson : toJson x lang (.num n) = .error (x.inexact n) := by
        simp only [toJson, hwrite]
      rw [hjson]
      exact iff_of_true (returned_runtime (parseEnvelope_errorLine hx _ _ _ _))
        (fun t ht => by cases ht)
  | some t =>
      have hjson : toJson x lang (.num n) = .ok t := by
        simp only [toJson, hwrite]
      have ht := numberText_writeNum hx hn hwrite
      have hread := hx.fromStr_number t ht
      rw [hjson]
      simp only [Option.mem_def, Option.some.injEq, forall_eq']
      cases hnumber : x.readNumber t with
      | none =>
          rw [hnumber] at hread
          rw [okLine_eq]
          exact iff_of_true
            (returned_runtime (parseEnvelope_of_none (by decide) ht.notMem _ _ _ hread))
            (fun m hm => by cases hm)
      | some m =>
          rw [hnumber] at hread
          rw [parseEnvelope_okLine ht.notMem err .number name hread rfl, returned_ok,
            Value.number.injEq]
          simp

/-! ## Texts -/

theorem mem_readBack {c d : Char} (h : d ∈ readBack c) (hcontrol : isControl d = true) :
    d = c ∧ ¬Lost c := by
  rcases escapeChar_cases c with ⟨-, hread, -, -, hshown⟩ | ⟨e, rest, hspelled⟩
  · rw [hread, List.mem_singleton] at h
    rw [h, hshown] at hcontrol
    cases hcontrol
  · rw [hspelled.readBack] at h
    by_cases hlost : Lost c
    · rw [hspelled.lost hlost d h] at hcontrol
      cases hcontrol
    · rw [hspelled.kept hlost, List.mem_singleton] at h
      exact ⟨h, hlost⟩

theorem readBack_of_not_lost {c : Char} (h : ¬Lost c) : readBack c = [c] := by
  rcases escapeChar_cases c with ⟨-, hread, -⟩ | ⟨e, rest, hspelled⟩
  · exact hread
  · rw [hspelled.readBack, hspelled.kept h]

/-- The control characters that are left of a text. -/
theorem mem_flatMap_readBack {s : List Char} {d : Char} (hcontrol : isControl d = true) :
    d ∈ s.flatMap readBack ↔ d ∈ s ∧ ¬Lost d := by
  rw [List.mem_flatMap]
  constructor
  · rintro ⟨c, hc, hd⟩
    obtain ⟨rfl, hlost⟩ := mem_readBack hd hcontrol
    exact ⟨hc, hlost⟩
  · rintro ⟨hd, hlost⟩
    exact ⟨d, hd, by rw [readBack_of_not_lost hlost]; exact List.mem_singleton_self d⟩

/-- A text reads back as itself unless a character is lost. -/
theorem flatMap_readBack_eq_iff (s : List Char) :
    s.flatMap readBack = s ↔ ∀ c ∈ s, ¬Lost c := by
  constructor
  · intro h c hc hlost
    rw [← h] at hc
    exact ((mem_flatMap_readBack hlost.1).mp hc).2 hlost
  · intro h
    calc s.flatMap readBack = s.flatMap fun c => [c] :=
          List.flatMap_congr fun c hc => readBack_of_not_lost (h c hc)
      _ = s := List.flatMap_singleton' s

/-- A written text is no JSON where a tab or a carriage return is left of it. -/
theorem refused_iff (s : List Char) :
    (escapeText lang (s.flatMap readBack)).any isControl = true ↔
      ∃ c ∈ s, c = '\t' ∨ c = '\r' := by
  rw [any_isControl_escapeText]
  constructor
  · rintro ⟨c, hc, hcontrol, hline⟩
    obtain ⟨hmem, hlost⟩ := (mem_flatMap_readBack hcontrol).mp hc
    refine ⟨c, hmem, ?_⟩
    by_contra hneither
    rw [not_or] at hneither
    exact hlost ⟨hcontrol, hline, hneither.1, hneither.2⟩
  · rintro ⟨c, hc, rfl | rfl⟩
    · exact ⟨_, (mem_flatMap_readBack (by decide)).mpr ⟨hc, by decide⟩, by decide, by decide⟩
    · exact ⟨_, (mem_flatMap_readBack (by decide)).mpr ⟨hc, by decide⟩, by decide, by decide⟩

theorem text_returned (hx : x.Documented) (s : String) (err : List Char) (name : String) :
    Returned (parseEnvelope x (resultLine x lang (itemOf (.text s))) err .text name) (.text s) ↔
      Survives x lang (.text s) := by
  show Returned (parseEnvelope x (okLine ('"' ::
    (escapeText lang (s.toList.flatMap readBack) ++ ['"']))) err .text name) (.text s) ↔
      (∃ c ∈ s.toList, c = '\t' ∨ c = '\r') ∨ ∀ c ∈ s.toList, isControl c = true → c = '\n'
  have hread := hx.fromStr_string "ok" (by decide) _ _
    (content_escapeText lang (s.toList.flatMap readBack))
  by_cases hrefused : ∃ c ∈ s.toList, c = '\t' ∨ c = '\r'
  · rw [if_pos ((refused_iff s.toList).mpr hrefused)] at hread
    rw [okLine_eq]
    exact iff_of_true (returned_runtime
      (parseEnvelope_of_none (by decide) (not_mem_written lang _) _ _ _ hread)) (.inl hrefused)
  · have hclean : ¬(escapeText lang (s.toList.flatMap readBack)).any isControl = true :=
      fun h => hrefused ((refused_iff s.toList).mp h)
    have hsame : String.ofList (s.toList.flatMap readBack) = s ↔
        s.toList.flatMap readBack = s.toList := by
      rw [← String.toList_inj, String.toList_ofList]
    rw [if_neg hclean] at hread
    rw [parseEnvelope_okLine (not_mem_written lang _) err .text name hread rfl, returned_ok,
      Value.text.injEq, hsame, flatMap_readBack_eq_iff, or_iff_right hrefused]
    apply forall_congr'
    intro c
    apply forall_congr'
    intro hc
    have hnot : c ≠ '\t' ∧ c ≠ '\r' :=
      ⟨fun h => hrefused ⟨c, hc, .inl h⟩, fun h => hrefused ⟨c, hc, .inr h⟩⟩
    unfold Lost
    constructor
    · intro hlost hcontrol
      by_contra hline
      exact hlost ⟨hcontrol, hline, hnot.1, hnot.2⟩
    · intro h hlost
      exact hlost.2.1 (h hlost.1)

theorem boolean_returned (hx : x.Documented) (b : Bool) (err : List Char) (name : String) :
    Returned (parseEnvelope x (resultLine x lang (.bool b)) err .boolean name) (.boolean b) := by
  have hnot : '\n' ∉ (if b then "true".toList else "false".toList) := by
    cases b with
    | false => decide
    | true => decide
  left
  exact parseEnvelope_okLine hnot err .boolean name (hx.fromStr_bool b) rfl

/-- An argument comes back, or an error, exactly where it survives. -/
theorem returned_iff (hx : x.Documented) {args : List Value} (hargs : ∀ w ∈ args, Marshalled w)
    {k : Nat} {v : Value} (hk : args[k]? = some v) {ty : ValueType} (hty : v.typeOf = some ty)
    (err : List Char) :
    Returned (eval x lang (argument k) args ty err) v ↔ Survives x lang v := by
  unfold eval
  rw [runProgram_argument hx hargs hk]
  have hv : Marshalled v := hargs v (List.mem_of_getElem? hk)
  cases v with
  | number n =>
      cases hty
      exact number_returned hx hv err lang.name
  | boolean b =>
      cases hty
      exact iff_of_true (boolean_returned hx b err lang.name) trivial
  | text s =>
      cases hty
      exact text_returned hx s err lang.name
  | _ => exact hv.elim

/-! ## Previews -/

/-- A JSON value that a value of this type is read of. -/
def Fits (j : Json Number) : ValueType → Prop
  | .number => ∃ n, j = .number n
  | .boolean => ∃ b, j = .bool b
  | .text => ∃ s, j = .string s
  | .dateTime => ∃ s, ((tagged j "datetime").bind asStr).or (asStr j) = some s
  | .enum => ∃ n, ((tagged j "enum").bind asU64).or (asU64 j) = some n ∧ n ≤ u32Max

/-- A JSON text that is not cut inside a character. -/
def Previewable (x : Outside) (j : Json Number) : Prop :=
  bytes (text x j) ≤ 60 ∨ ∃ front rest, text x j = front ++ rest ∧ bytes front = 60

theorem unexpected_panics_iff (what : String) (j : Json Number) :
    unexpected x what j ≠ .error .panic ↔ Previewable x j := by
  unfold unexpected short Previewable
  simp only
  by_cases hlong : 60 < bytes (text x j)
  · rw [if_pos hlong, or_iff_right (by omega)]
    cases hcut : cutAt (text x j) 60 with
    | none =>
        refine iff_of_false (fun h => h rfl) ?_
        rintro ⟨front, rest, htext, hbytes⟩
        rw [htext, ← hbytes, cutAt_bytes] at hcut
        cases hcut
    | some p => exact iff_of_true (fun h => by cases h) ⟨p.1, p.2, of_cutAt hcut⟩
  · rw [if_neg hlong]
    exact iff_of_true (fun h => by cases h) (.inl (by omega))

theorem jsonToValue_dateTime (j : Json Number) :
    jsonToValue x j .dateTime =
      match ((tagged j "datetime").bind asStr).or (asStr j) with
      | none => unexpected x "expected DateTime, got " j
      | some s =>
        match x.parseRfc3339 s with
        | .ok t => .ok (.dateTime t)
        | .error e =>
          .error (.failed ("invalid DateTime ".toList ++ x.debug s.toList ++ ": ".toList ++ e)) :=
  rfl

theorem jsonToValue_enum (j : Json Number) :
    jsonToValue x j .enum =
      match (((tagged j "enum").bind asU64).or (asU64 j)).filter (· ≤ u32Max) with
      | none => unexpected x "expected Enum index, got " j
      | some n => .ok (.enum n) := rfl

theorem jsonToValue_panics_iff (j : Json Number) (ty : ValueType) :
    jsonToValue x j ty ≠ .error .panic ↔ Fits j ty ∨ Previewable x j := by
  have hfits : ∀ {r : Except Fault Value} {p : Prop}, r ≠ .error .panic → p →
      (r ≠ .error .panic ↔ p ∨ Previewable x j) := fun hr hp => iff_of_true hr (.inl hp)
  have hother : ∀ {what : String} {p : Prop}, ¬p →
      (unexpected x what j ≠ .error .panic ↔ p ∨ Previewable x j) := fun hp => by
    rw [unexpected_panics_iff, or_iff_right hp]
  cases ty with
  | number =>
      cases j with
      | number n => exact hfits (fun h => by cases h) ⟨n, rfl⟩
      | _ => exact hother (fun h => by cases h with | intro n h => cases h)
  | boolean =>
      cases j with
      | bool b => exact hfits (fun h => by cases h) ⟨b, rfl⟩
      | _ => exact hother (fun h => by cases h with | intro b h => cases h)
  | text =>
      cases j with
      | string s => exact hfits (fun h => by cases h) ⟨s, rfl⟩
      | _ => exact hother (fun h => by cases h with | intro s h => cases h)
  | dateTime =>
      show _ ↔ (∃ s, ((tagged j "datetime").bind asStr).or (asStr j) = some s) ∨ _
      rw [jsonToValue_dateTime]
      cases ((tagged j "datetime").bind asStr).or (asStr j) with
      | none => exact hother (fun h => by cases h with | intro s h => cases h)
      | some s =>
          refine hfits ?_ ⟨s, rfl⟩
          simp only
          cases x.parseRfc3339 s with
          | ok t => exact fun h => by cases h
          | error e => exact fun h => by cases h
  | enum =>
      show _ ↔ (∃ n, ((tagged j "enum").bind asU64).or (asU64 j) = some n ∧ n ≤ u32Max) ∨ _
      rw [jsonToValue_enum]
      cases hfilter : (((tagged j "enum").bind asU64).or (asU64 j)).filter (· ≤ u32Max) with
      | none =>
          refine hother ?_
          rintro ⟨n, hn, hle⟩
          rw [hn, Option.filter_some, if_pos (decide_eq_true hle)] at hfilter
          cases hfilter
      | some n =>
          rw [Option.filter_eq_some_iff, decide_eq_true_eq] at hfilter
          exact hfits (fun h => by cases h) ⟨n, hfilter⟩

/-- The `ok` value that an output's last line has. -/
def Printed (x : Outside) (out : List Char) (j : Json Number) : Prop :=
  trimmed out ≠ [] ∧ ∃ env, x.fromStr (lastLine (trimmed out)) = some env ∧
    (get env "error").bind asStr = none ∧ get env "ok" = some j

theorem okValue_cases (x : Outside) (out err : List Char) (name : String) :
    (∃ m, okValue x out err name = .error (.runtime m err) ∧ ∀ j, ¬Printed x out j) ∨
      ∃ j, okValue x out err name = .ok j ∧ ∀ j', Printed x out j' ↔ j' = j := by
  unfold okValue Printed
  simp only
  by_cases hempty : trimmed out = []
  · rw [if_pos hempty]
    exact .inl ⟨_, rfl, fun j h => h.1 hempty⟩
  · rw [if_neg hempty]
    cases hread : x.fromStr (lastLine (trimmed out)) with
    | none =>
        refine .inl ⟨_, rfl, ?_⟩
        rintro j ⟨-, env, henv, -⟩
        cases henv
    | some env =>
        cases herror : (get env "error").bind asStr with
        | some message =>
            refine .inl ⟨message.toList, by simp only [herror], ?_⟩
            rintro j ⟨-, env', henv, hnone, -⟩
            cases henv
            rw [herror] at hnone
            cases hnone
        | none =>
            cases hok : get env "ok" with
            | none =>
                refine .inl ⟨_, by simp only [herror, hok]; rfl, ?_⟩
                rintro j ⟨-, env', henv, -, hj⟩
                cases henv
                rw [hok] at hj
                cases hj
            | some j =>
                refine .inr ⟨j, by simp only [herror, hok], fun j' => ⟨?_, ?_⟩⟩
                · rintro ⟨-, env', henv, -, hj⟩
                  cases henv
                  rw [hok] at hj
                  exact (Option.some.inj hj).symm
                · rintro rfl
                  exact ⟨hempty, env, rfl, herror, hok⟩

theorem parseEnvelope_panics_iff (out err : List Char) (ty : ValueType) (name : String) :
    parseEnvelope x out err ty name ≠ .error .panic ↔
      ∀ j, Printed x out j → Fits j ty ∨ Previewable x j := by
  rcases okValue_cases x out err name with ⟨m, hm, hnone⟩ | ⟨j, hj, hprinted⟩
  · unfold parseEnvelope
    rw [hm]
    exact iff_of_true (fun h => by cases h) (fun j hj => absurd hj (hnone j))
  · rw [parseEnvelope_of_ok hj]
    simp only [hprinted, forall_eq]
    rw [← jsonToValue_panics_iff]
    cases jsonToValue x j ty with
    | ok v => exact iff_of_true (fun h => by cases h) (fun h => by cases h)
    | error e =>
        cases e with
        | panic => exact iff_of_false (fun h => h rfl) (fun h => h rfl)
        | failed m => exact iff_of_true (fun h => by cases h) (fun h => by cases h)
        | runtime m e => exact iff_of_true (fun h => by cases h) (fun h => by cases h)

/-! ## The trip -/

/-- A function of its argument gives it back, or an error, exactly where it
survives; and a value is read without a panic exactly where it fits the type, or
its preview ends between characters. -/
theorem trip_iff (hx : x.Documented) (lang : Lang) {args : List Value}
    (hargs : ∀ w ∈ args, Marshalled w) {k : Nat} {v : Value} (hk : args[k]? = some v)
    {ty : ValueType} (hty : v.typeOf = some ty) (out err : List Char) (name : String)
    (j : Json Number) (ty' : ValueType) :
    (Returned (eval x lang (argument k) args ty err) v ↔ Survives x lang v) ∧
      (jsonToValue x j ty' ≠ .error .panic ↔ Fits j ty' ∨ Previewable x j) ∧
      (parseEnvelope x out err ty' name ≠ .error .panic ↔
        ∀ j, Printed x out j → Fits j ty' ∨ Previewable x j) :=
  ⟨returned_iff hx hargs hk hty err, jsonToValue_panics_iff j ty',
    parseEnvelope_panics_iff out err ty' name⟩

/-! ## Libraries at work -/

/-- A double as its units. -/
def unitsText : F64 → List Char
  | .finite s u _ => (if s then ['-'] else []) ++ Nat.toDigits 10 u
  | _ => []

def ofUnitsText (t : List Char) : F64 :=
  if t.head? = some '-' then .ofUnits true (Decimal.ofDigits (t.drop 1))
  else .ofUnits false (Decimal.ofDigits t)

/-- The text between the key of an object of one field and its brace. -/
def fieldText (key : String) (s : List Char) : Option (List Char) :=
  let front := '\x7b' :: '"' :: (key.toList ++ ['"', ':'])
  if front <+: s then some (s.drop front.length).dropLast else none

/-- A reader of objects of one scalar field. -/
def readField (key : String) (s : List Char) : Option (Json Number) :=
  (fieldText key s).bind fun t =>
    let value : Option (Json Number) :=
      if t = "true".toList then some (.bool true)
      else if t = "false".toList then some (.bool false)
      else
        match t with
        | '"' :: body => (parseStr body).map fun p => .string (.ofList p.1)
        | t => some (.number (.float (ofUnitsText t)))
    value.map fun j => .object [(key, j)]

def sample : Outside where
  writeNumber := unitsText
  readNumber t := some (.float (ofUnitsText t))
  fromStr s :=
    if s.any isControl then none else (readField "ok" s).or (readField "error" s)
  jsonError _ := "expected value".toList
  debug s := '"' :: (s ++ ['"'])
  toRfc3339 _ := "1970-01-01T00:00:00+00:00"
  parseRfc3339 _ := .error "premature end of input".toList
  asNumeric := ofUnitsText
  format := unitsText
  parse t := some (ofUnitsText t)
  string := unitsText
  inexact _ := "InexactError: Int64".toList

theorem numberText_unitsText {n : F64} (hn : n.isFinite = true) : NumberText (unitsText n) := by
  cases n with
  | finite s u h =>
      have hdigit : ∀ c ∈ Nat.toDigits 10 u, isNumberChar c = true := fun c hc => by
        have hc : c.isDigit = true := Nat.isDigit_of_mem_toDigits (by omega) (by omega) hc
        unfold isNumberChar
        rw [hc, Bool.or_true]
      unfold unitsText
      refine ⟨fun h => Nat.toDigits_ne_nil (List.append_eq_nil_iff.mp h).2, fun c hc => ?_⟩
      rcases List.mem_append.mp hc with hc | hc
      · cases s with
        | false => cases hc
        | true =>
            rw [List.mem_singleton.mp hc]
            rfl
      · exact hdigit c hc
  | _ => cases hn

theorem ofUnitsText_unitsText {n : F64} (hn : n.isFinite = true) :
    ofUnitsText (unitsText n) = n := by
  cases n with
  | finite s u h =>
      have hunits : F64.ofUnits s u = .finite s u h := dif_pos h
      cases s with
      | true =>
          show F64.ofUnits true (Decimal.ofDigits (Nat.toDigits 10 u)) = _
          rw [Decimal.ofDigits_toDigits, hunits]
      | false =>
          have hhead : (Nat.toDigits 10 u).head? ≠ some '-' := fun hminus => by
            have hdigit : ('-' : Char).isDigit = true :=
              Nat.isDigit_of_mem_toDigits (by omega) (by omega) (List.mem_of_head? hminus)
            cases hdigit
          show (if (Nat.toDigits 10 u).head? = some '-' then _ else _) = _
          rw [if_neg hhead]
          show F64.ofUnits false (Decimal.ofDigits (Nat.toDigits 10 u)) = _
          rw [Decimal.ofDigits_toDigits, hunits]
  | _ => cases hn

theorem fieldText_envelope (key : String) (t : List Char) :
    fieldText key (envelope key t) = some t := by
  have henvelope : envelope key t =
      ('\x7b' :: '"' :: (key.toList ++ ['"', ':'])) ++ (t ++ ['\x7d']) := by
    unfold envelope
    simp
  unfold fieldText
  simp only
  rw [henvelope, if_pos (List.prefix_append _ _), List.drop_left, List.dropLast_concat]

theorem fieldText_other (t : List Char) : fieldText "ok" (envelope "error" t) = none := by
  have hok : "ok".toList = ['o', 'k'] := rfl
  have herror : "error".toList = ['e', 'r', 'r', 'o', 'r'] := rfl
  unfold fieldText envelope
  simp only [hok, herror]
  exact if_neg (by simp)

theorem any_isControl_envelope {key : String} (hkey : key ∈ ["ok", "error"]) (t : List Char) :
    (envelope key t).any isControl = t.any isControl := by
  have hshown : key.toList.any isControl = false := by
    rcases List.mem_cons.mp hkey with rfl | hkey
    · decide
    · rw [List.mem_singleton.mp hkey]
      decide
  unfold envelope
  simp only [List.any_cons, List.any_append, hshown, List.any_nil, Bool.or_false,
    show isControl '\x7b' = false by decide, show isControl '"' = false by decide,
    show isControl ':' = false by decide, show isControl '\x7d' = false by decide,
    Bool.false_or]

theorem fromStr_envelope {key : String} (hkey : key ∈ ["ok", "error"]) {t : List Char}
    (ht : t.any isControl = false) {j : Json Number}
    (hj : readField key (envelope key t) = some j) :
    sample.fromStr (envelope key t) = some j := by
  show (if (envelope key t).any isControl then none else _) = _
  rw [any_isControl_envelope hkey, ht, if_neg Bool.false_ne_true]
  rcases List.mem_cons.mp hkey with rfl | hkey
  · rw [hj]
    rfl
  · rw [List.mem_singleton.mp hkey] at hj ⊢
    have hother : readField "ok" (envelope "error" t) = none := by
      unfold readField
      rw [fieldText_other]
      rfl
    rw [hother, Option.none_or, hj]

theorem Content.parseStr {body s : List Char} (h : Content body s) :
    ExtFn.parseStr (body ++ ['"']) = some (s, []) := by
  induction h with
  | nil => rfl
  | @plain c body s hquote hback h ih =>
      rw [List.cons_append, ExtFn.parseStr.eq_def]
      simp only [hquote, hback, if_false, ih, Option.map_some]
  | quote h ih =>
      rw [List.cons_append, List.cons_append, parseStr_escape, ih]
      rfl
  | backslash h ih =>
      rw [List.cons_append, List.cons_append, parseStr_escape, ih]
      rfl
  | newline h ih =>
      rw [List.cons_append, List.cons_append, parseStr_escape, ih]
      rfl

theorem readField_quote {key : String} {body s : List Char} (h : Content body s) :
    readField key (envelope key ('"' :: (body ++ ['"']))) =
      some (.object [(key, .string (.ofList s))]) := by
  have htrue : '"' :: (body ++ ['"']) ≠ "true".toList := fun h => by cases h
  have hfalse : '"' :: (body ++ ['"']) ≠ "false".toList := fun h => by cases h
  unfold readField
  rw [fieldText_envelope, Option.bind_some]
  simp only
  rw [if_neg htrue, if_neg hfalse, h.parseStr]
  rfl

theorem readField_bool (key : String) (b : Bool) :
    readField key (envelope key (if b then "true".toList else "false".toList)) =
      some (.object [(key, .bool b)]) := by
  unfold readField
  rw [fieldText_envelope]
  cases b <;> rfl

theorem readField_number {key : String} {t : List Char} (ht : NumberText t) :
    readField key (envelope key t) = some (.object [(key, .number (.float (ofUnitsText t)))]) := by
  have hnotmem : ∀ c : Char, isNumberChar c = false → c ∉ t := fun c hc hmem => by
    rw [ht.2 c hmem] at hc
    cases hc
  have htrue : t ≠ "true".toList := fun h => hnotmem 't' (by decide) (by rw [h]; decide)
  have hfalse : t ≠ "false".toList := fun h => hnotmem 'f' (by decide) (by rw [h]; decide)
  have hquote : ∀ body, t ≠ '"' :: body := fun body h =>
    hnotmem '"' (by decide) (by rw [h]; exact List.mem_cons_self)
  unfold readField
  rw [fieldText_envelope, Option.bind_some]
  simp only
  rw [if_neg htrue, if_neg hfalse]
  rfl

theorem sample_documented : sample.Documented where
  writeNumber _ := numberText_unitsText
  format _ := numberText_unitsText
  string _ := numberText_unitsText
  asNumeric _ := ofUnitsText_unitsText
  parse _ hn := congrArg some (ofUnitsText_unitsText hn)
  fromStr_bool b := by
    cases b with
    | false => exact fromStr_envelope (by decide) (by decide) (readField_bool "ok" false)
    | true => exact fromStr_envelope (by decide) (by decide) (readField_bool "ok" true)
  fromStr_number t ht := by
    refine fromStr_envelope (by decide) ?_ (readField_number ht)
    rw [List.any_eq_false]
    exact fun c hc => by rw [(isNumberChar_spec (ht.2 c hc)).1]; exact Bool.false_ne_true
  fromStr_string key hkey body s h := by
    have hany : ('"' :: (body ++ ['"'])).any isControl = body.any isControl := by
      rw [List.any_cons, List.any_append, show isControl '"' = false by decide, Bool.false_or]
      exact Bool.or_false _
    by_cases hcontrol : body.any isControl = true
    · rw [if_pos hcontrol]
      show (if (envelope key _).any isControl then none else _) = _
      rw [any_isControl_envelope hkey, hany, if_pos hcontrol]
    · rw [if_neg hcontrol]
      rw [Bool.not_eq_true] at hcontrol
      exact fromStr_envelope hkey (hany.trans hcontrol) (readField_quote h)

theorem trip_iff_quoted :
    (Returned (eval sample .r (argument 1) [.boolean true, .text "say \"hi\" for $5"] .text [])
        (.text "say \"hi\" for $5") ↔ Survives sample .r (.text "say \"hi\" for $5")) ∧
      (jsonToValue sample .null .number ≠ .error .panic ↔
        Fits .null .number ∨ Previewable sample .null) ∧
      (parseEnvelope sample [] [] .number "R" ≠ .error .panic ↔
        ∀ j, Printed sample [] j → Fits j .number ∨ Previewable sample j) :=
  trip_iff sample_documented .r (by simp [Marshalled]) rfl rfl [] [] "R" .null .number

/-- A bell comes back as the digits it is spelled in, and a text that is no number
may have no preview. -/
theorem bell_comes_back_spelled :
    sample.Documented ∧
      eval sample .r (argument 0) [.text (String.singleton (Char.ofNat 7))] .text [] =
        .ok (.text "u0007") ∧
      jsonToValue sample (.string (.ofList (List.replicate 58 'a' ++ ['é']))) .number =
        .error .panic :=
  ⟨sample_documented, by rfl, by rfl⟩

end Improv.ExtFn
