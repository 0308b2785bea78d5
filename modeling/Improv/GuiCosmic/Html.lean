import Improv.GuiCosmic.HtmlTables
import Improv.GuiCosmic.Tsv
/-!
# HTML tables read back

The cells that were written come back with each run of whitespace as one space
and none around them: their texts are escaped, so no tag and no entity of theirs
is one of the table's.
-/

namespace Improv.GuiCosmic.Clip

open Improv.Lib Improv.Lib.ByteOffsets

/-! ## Escapes -/

/-- What a character is written as. -/
def escapeChar (c : Char) : Text :=
  if c = '&' then "&amp;".toList
  else if c = '<' then "&lt;".toList
  else if c = '>' then "&gt;".toList
  else if c = '\x22' then "&quot;".toList
  else [c]

theorem escape_eq (s : Text) : escape s = s.flatMap escapeChar := by
  unfold escape replace
  rw [List.flatMap_assoc, List.flatMap_assoc, List.flatMap_assoc]
  congr 1
  funext c
  unfold escapeChar
  by_cases hamp : c = '&'
  · rw [if_pos hamp, if_pos hamp]
    rfl
  · by_cases hlt : c = '<'
    · rw [if_neg hamp, if_neg hamp, if_pos hlt, hlt]
      rfl
    · by_cases hgt : c = '>'
      · rw [if_neg hamp, if_neg hamp, if_neg hlt, if_pos hgt, hgt]
        rfl
      · rw [if_neg hamp, if_neg hamp, if_neg hlt, if_neg hgt]
        simp [hlt, hgt]

theorem escape_cons (c : Char) (s : Text) : escape (c :: s) = escapeChar c ++ escape s := by
  rw [escape_eq, escape_eq, List.flatMap_cons]

theorem escape_append (s t : Text) : escape (s ++ t) = escape s ++ escape t := by
  rw [escape_eq, escape_eq, escape_eq, List.flatMap_append]

/-- A character is written as itself, or as an entity of it. -/
theorem escapeChar_cases (c : Char) :
    (c ≠ '&' ∧ c ≠ '<' ∧ c ≠ '>' ∧ escapeChar c = [c]) ∨
      ∃ name, escapeChar c = '&' :: (name ++ [';']) ∧ entity name = some c ∧
        name.all Char.isAlpha = true ∧ bytes name ≤ 4 ∧ isWhitespace c = false := by
  unfold escapeChar
  by_cases hamp : c = '&'
  · rw [if_pos hamp, hamp]
    exact .inr ⟨"amp".toList, rfl, rfl, rfl, by decide, rfl⟩
  · by_cases hlt : c = '<'
    · rw [if_neg hamp, if_pos hlt, hlt]
      exact .inr ⟨"lt".toList, rfl, rfl, rfl, by decide, rfl⟩
    · by_cases hgt : c = '>'
      · rw [if_neg hamp, if_neg hlt, if_pos hgt, hgt]
        exact .inr ⟨"gt".toList, rfl, rfl, rfl, by decide, rfl⟩
      · by_cases hquot : c = '\x22'
        · rw [if_neg hamp, if_neg hlt, if_neg hgt, if_pos hquot, hquot]
          exact .inr ⟨"quot".toList, rfl, rfl, rfl, by decide, rfl⟩
        · rw [if_neg hamp, if_neg hlt, if_neg hgt, if_neg hquot]
          exact .inl ⟨hamp, hlt, hgt, rfl⟩

/-- No bracket is left in an escaped text. -/
theorem no_bracket (s : Text) : ∀ d ∈ escape s, d ≠ '<' ∧ d ≠ '>' := by
  rw [escape_eq]
  intro d hd
  obtain ⟨c, _, hdc⟩ := List.mem_flatMap.mp hd
  rcases escapeChar_cases c with ⟨_, hlt, hgt, hself⟩ | ⟨name, hname, _, halpha, _, _⟩
  · rw [hself, List.mem_singleton] at hdc
    rw [hdc]
    exact ⟨hlt, hgt⟩
  · rw [hname, List.mem_cons, List.mem_append, List.mem_singleton] at hdc
    rcases hdc with rfl | hdc | rfl
    · decide
    · have hd := List.all_eq_true.mp halpha d hdc
      constructor
      · rintro rfl
        cases hd
      · rintro rfl
        cases hd
    · decide

/-- An entity of a character is decoded to it. -/
theorem decodeAmp_entity {name : Text} {c : Char} (hname : entity name = some c)
    (halpha : name.all Char.isAlpha = true) (hshort : bytes name ≤ 4) (rest : Text) :
    decodeAmp ('&' :: (name ++ ';' :: rest)) = some (c, rest) := by
  have hstop : find [';'] ('&' :: (name ++ ';' :: rest)) = some (bytes ('&' :: name)) := by
    rw [find_eq (List.cons_ne_nil _ _), ← List.cons_append, splitBy_append]
    · rw [splitBy, if_pos (by simp [startsAny])]
      simp
    · intro pre post hpost hne
      obtain ⟨d, post, rfl⟩ := List.exists_cons_of_ne_nil hne
      have hd : d ≠ ';' := by
        rintro rfl
        have hmem : ';' ∈ '&' :: name := by
          rw [hpost]
          exact List.mem_append_right _ List.mem_cons_self
        rcases List.mem_cons.mp hmem with h | h
        · cases h
        · cases List.all_eq_true.mp halpha _ h
      simp [startsAny, hd.symm]
  have hbytes : bytes ('&' :: name) = 1 + bytes name := rfl
  have hslice : slice ('&' :: (name ++ ';' :: rest)) 1 (bytes ('&' :: name)) = some name :=
    slice_bytes ['&'] name (';' :: rest)
  have hrest : sliceFrom ('&' :: (name ++ ';' :: rest)) (bytes ('&' :: name) + 1) = some rest := by
    have h := sliceFrom_bytes ('&' :: name ++ [';']) rest
    rwa [bytes_append, List.append_assoc] at h
  have hkept : (some (bytes ('&' :: name))).filter (· ≤ 10) = some (bytes ('&' :: name)) := by
    rw [Option.filter_some, if_pos]
    rw [hbytes]
    exact decide_eq_true (by omega)
  unfold decodeAmp
  rw [hstop, hkept]
  simp only [hslice, hname, hrest, Option.bind_eq_bind, Option.bind_some]
  rfl

theorem unescapeFrom_cons {c : Char} (hc : c ≠ '&') (fuel : Nat) (rest : Text) :
    unescapeFrom fuel (c :: rest) = (unescapeFrom fuel rest).map (c :: ·) := by
  cases fuel with
  | zero => rfl
  | succ fuel =>
      have hfind : find ['&'] (c :: rest) = (find ['&'] rest).map (c.utf8Size + ·) := by
        rw [find, if_neg]
        intro hprefix
        exact hc (List.cons_prefix_cons.mp hprefix).1.symm
      rw [unescapeFrom, unescapeFrom, hfind]
      cases hamp : find ['&'] rest with
      | none => rfl
      | some i =>
          obtain ⟨before, more, rfl, rfl⟩ := find_char hamp
          have hslice : slice (c :: (before ++ '&' :: more)) 0 (c.utf8Size + bytes before) =
              some (c :: before) := slice_zero (c :: before) ('&' :: more)
          have hrest : sliceFrom (c :: (before ++ '&' :: more)) (c.utf8Size + bytes before) =
              some ('&' :: more) := sliceFrom_bytes (c :: before) ('&' :: more)
          simp only [Option.map_some, hslice, hrest, slice_zero, sliceFrom_bytes,
            Option.bind_eq_bind, Option.bind_some]
          cases decodeAmp ('&' :: more) with
          | none => rfl
          | some p =>
              simp only [Option.bind_some]
              cases unescapeFrom fuel p.2 <;> rfl

/-- An escaped text is decoded to the text. -/
theorem unescapeFrom_escape {fuel : Nat} {s : Text} (hfuel : bytes (escape s) < fuel) :
    unescapeFrom fuel (escape s) = some s := by
  induction s generalizing fuel with
  | nil =>
      obtain ⟨fuel, rfl⟩ : ∃ f, fuel = f + 1 := ⟨fuel - 1, by omega⟩
      rfl
  | cons c s ih =>
      rw [escape_cons] at hfuel ⊢
      rcases escapeChar_cases c with ⟨hamp, _, _, hself⟩ | ⟨name, hname, hent, halpha, hshort, _⟩
      · rw [hself, bytes_append] at hfuel
        rw [hself, List.singleton_append, unescapeFrom_cons hamp, ih (by omega)]
        rfl
      · have hpos := ('&' : Char).utf8Size_pos
        rw [hname, bytes_append, bytes_cons] at hfuel
        obtain ⟨fuel, rfl⟩ : ∃ f, fuel = f + 1 := ⟨fuel - 1, by omega⟩
        have hshape : '&' :: (name ++ [';']) ++ escape s = '&' :: (name ++ ';' :: escape s) := by
          simp
        have hfind : find ['&'] ('&' :: (name ++ ';' :: escape s)) = some 0 := by
          rw [find, if_pos]
          exact List.cons_prefix_cons.mpr ⟨rfl, List.nil_prefix⟩
        have hzero : slice ('&' :: (name ++ ';' :: escape s)) 0 0 = some [] :=
          slice_zero [] _
        have hfrom : sliceFrom ('&' :: (name ++ ';' :: escape s)) 0 =
            some ('&' :: (name ++ ';' :: escape s)) := sliceFrom_bytes [] _
        rw [hname, hshape, unescapeFrom, hfind]
        simp only [hzero, hfrom, decodeAmp_entity hent halpha hshort, @ih fuel (by omega),
          Option.bind_eq_bind, Option.bind_some]
        rfl

/-! ## Whitespace -/

/-- A text with each run of whitespace as one space and none around it. -/
def normalized (s : Text) : Text := [' '].intercalate (splitWhitespace s)

theorem escapeChar_space {c : Char} (hc : isWhitespace c = false) :
    ∀ d ∈ escapeChar c, isWhitespace d = false := by
  have hall : (escapeChar c).all (fun d => !isWhitespace d) = true := by
    unfold escapeChar
    split
    · rfl
    · split
      · rfl
      · split
        · rfl
        · split
          · rfl
          · simp [hc]
  intro d hd
  simpa using List.all_eq_true.mp hall d hd

theorem splitOnP_append {w : Text} (hw : ∀ c ∈ w, isWhitespace c = false) (t : Text) :
    (w ++ t).splitOnP isWhitespace = (t.splitOnP isWhitespace).modifyHead (w ++ ·) := by
  induction w with
  | nil =>
      rw [List.nil_append]
      cases h : t.splitOnP isWhitespace <;> rfl
  | cons c w ih =>
      have ⟨hc, hw'⟩ := List.forall_mem_cons.mp hw
      rw [List.cons_append, List.splitOnP_cons_eq_if_modifyHead, if_neg (by simp [hc]), ih hw']
      cases t.splitOnP isWhitespace <;> rfl

/-- Escaping does not change where the whitespace is. -/
theorem splitOnP_escape (s : Text) :
    (escape s).splitOnP isWhitespace = (s.splitOnP isWhitespace).map escape := by
  induction s with
  | nil => rfl
  | cons c s ih =>
      rw [escape_cons, List.splitOnP_cons_eq_if_modifyHead]
      by_cases hc : isWhitespace c = true
      · rcases escapeChar_cases c with ⟨_, _, _, hself⟩ | ⟨_, _, _, _, _, hspace⟩
        · rw [hself, List.singleton_append, List.splitOnP_cons_eq_if_modifyHead, if_pos hc,
            if_pos hc, ih]
          rfl
        · rw [hc] at hspace
          cases hspace
      · rw [if_neg hc, splitOnP_append (escapeChar_space (by simpa using hc)), ih]
        cases s.splitOnP isWhitespace with
        | nil => rfl
        | cons w ws =>
            rw [List.modifyHead_cons, List.map_cons, List.map_cons, List.modifyHead_cons,
              escape_cons]

theorem escape_eq_nil {s : Text} : escape s = [] ↔ s = [] := by
  cases s with
  | nil => exact iff_of_true rfl rfl
  | cons c s =>
      rw [escape_cons]
      rcases escapeChar_cases c with ⟨_, _, _, hself⟩ | ⟨name, hname, _⟩
      · simp [hself]
      · simp [hname]

theorem splitWhitespace_escape (s : Text) :
    splitWhitespace (escape s) = (splitWhitespace s).map escape := by
  unfold splitWhitespace
  rw [splitOnP_escape, List.filter_map]
  congr 1
  apply List.filter_congr
  intro w _
  simp [escape_eq_nil]

theorem intercalate_escape (ws : List Text) :
    [' '].intercalate (ws.map escape) = escape ([' '].intercalate ws) := by
  induction ws with
  | nil => rfl
  | cons w ws ih =>
      cases ws with
      | nil => simp
      | cons v ws =>
          rw [List.intercalate_cons_cons, escape_append, escape_append, ← ih]
          simp [escape_eq, escapeChar]

/-- A word: some characters, none of them whitespace. -/
def IsWord (w : Text) : Prop := w ≠ [] ∧ ∀ c ∈ w, isWhitespace c = false

theorem isWord_splitWhitespace {s w : Text} (hw : w ∈ splitWhitespace s) : IsWord w := by
  have hplain : ∀ s : Text, ∀ w ∈ s.splitOnP isWhitespace, ∀ c ∈ w, isWhitespace c = false := by
    intro s
    induction s with
    | nil =>
        intro w hw c hc
        rw [List.splitOnP_nil, List.mem_singleton] at hw
        rw [hw] at hc
        cases hc
    | cons d s ih =>
        intro w hw c hc
        rw [List.splitOnP_cons_eq_if_modifyHead] at hw
        by_cases hd : isWhitespace d = true
        · rw [if_pos hd, List.mem_cons] at hw
          rcases hw with rfl | hw
          · cases hc
          · exact ih w hw c hc
        · rw [if_neg hd] at hw
          cases hparts : s.splitOnP isWhitespace with
          | nil => exact absurd hparts (List.splitOnP_ne_nil _ _)
          | cons v vs =>
              rw [hparts] at hw ih
              rw [List.modifyHead_cons, List.mem_cons] at hw
              rcases hw with rfl | hw
              · rcases List.mem_cons.mp hc with rfl | hc
                · simpa using hd
                · exact ih v List.mem_cons_self c hc
              · exact ih w (List.mem_cons_of_mem _ hw) c hc
  unfold splitWhitespace at hw
  rw [List.mem_filter, decide_eq_true_eq] at hw
  exact ⟨hw.2, hplain s w hw.1⟩

theorem isWord_escape {w : Text} (hw : IsWord w) : IsWord (escape w) := by
  refine ⟨fun h => hw.1 (escape_eq_nil.mp h), ?_⟩
  rw [escape_eq]
  intro d hd
  obtain ⟨c, hc, hdc⟩ := List.mem_flatMap.mp hd
  exact escapeChar_space (hw.2 c hc) d hdc

/-- A text with no whitespace at its ends is its own trimmed text. -/
theorem trimmed_of_ends {s : Text} (hhead : ∀ c, s.head? = some c → isWhitespace c = false)
    (hlast : ∀ c, s.getLast? = some c → isWhitespace c = false) : trimmed s = s := by
  have hdrop : ∀ t : Text, (∀ c, t.head? = some c → isWhitespace c = false) →
      t.dropWhile isWhitespace = t := by
    intro t ht
    cases t with
    | nil => rfl
    | cons c t => rw [List.dropWhile_cons, if_neg (by simp [ht c rfl])]
  unfold trimmed
  rw [hdrop s hhead, hdrop s.reverse (by rwa [List.head?_reverse]), List.reverse_reverse]

theorem trimmed_join {ws : List Text} (hws : ∀ w ∈ ws, IsWord w) :
    trimmed ([' '].intercalate ws) = [' '].intercalate ws := by
  have hends : ∀ ws : List Text, (∀ w ∈ ws, IsWord w) →
      (∀ c, ([' '].intercalate ws).head? = some c → isWhitespace c = false) ∧
        (∀ c, ([' '].intercalate ws).getLast? = some c → isWhitespace c = false) ∧
          (ws ≠ [] → [' '].intercalate ws ≠ []) := by
    intro ws
    induction ws with
    | nil => simp
    | cons w ws ih =>
        intro hws
        have ⟨hw, hws'⟩ := List.forall_mem_cons.mp hws
        have ⟨_, hlast, hsome⟩ := ih hws'
        obtain ⟨d, w', rfl⟩ := List.exists_cons_of_ne_nil hw.1
        cases ws with
        | nil =>
            rw [List.intercalate_singleton]
            exact ⟨fun c hc => hw.2 c (List.mem_of_head? hc),
              fun c hc => hw.2 c (List.mem_of_getLast? hc), fun _ => hw.1⟩
        | cons v ws =>
            rw [List.intercalate_cons_cons]
            refine ⟨fun c hc => hw.2 c ?_, fun c hc => hlast c ?_, fun _ => by simp⟩
            · rw [List.append_assoc, List.cons_append, List.head?_cons, Option.some.injEq] at hc
              rw [hc]
              exact List.mem_cons_self
            · rwa [List.getLast?_append_of_ne_nil _ (hsome (List.cons_ne_nil _ _))] at hc
  have ⟨hhead, hlast, _⟩ := hends ws hws
  exact trimmed_of_ends hhead hlast

theorem dropTags_eq_self {s : Text} (hs : ∀ d ∈ s, d ≠ '<' ∧ d ≠ '>') : dropTags s false = s := by
  induction s with
  | nil => rfl
  | cons c s ih =>
      have ⟨hc, hs'⟩ := List.forall_mem_cons.mp hs
      rw [dropTags, if_neg hc.1, if_neg hc.2, if_neg (by simp), ih hs']

/-- A cell's text as it is read, once it was escaped. -/
theorem cellText_escape (s : Text) : cellText (escape s) = normalized s := by
  have hwords : ∀ w ∈ (splitWhitespace s).map escape, IsWord w := by
    intro w hw
    obtain ⟨v, hv, rfl⟩ := List.mem_map.mp hw
    exact isWord_escape (isWord_splitWhitespace hv)
  unfold cellText stripTags
  rw [dropTags_eq_self (no_bracket s), splitWhitespace_escape, trimmed_join hwords,
    intercalate_escape]
  unfold unescaped unescape
  rw [unescapeFrom_escape (Nat.lt_succ_self _)]
  rfl

/-! ## Where no tag stands -/

/-- A pattern and a text differ at a place that both have. -/
def clash : (pat s : Text) → Bool
  | p :: ps, c :: cs => p != c || clash ps cs
  | _, _ => false

theorem clash_append {pat s : Text} (h : clash pat s = true) (rest : Text) :
    clash pat (s ++ rest) = true := by
  induction pat generalizing s with
  | nil => cases h
  | cons p ps ih =>
      cases s with
      | nil => cases h
      | cons c cs =>
          rw [List.cons_append, clash, Bool.or_eq_true] at *
          exact h.imp_right ih

theorem not_prefix_of_clash {pat s : Text} (h : clash pat s = true) : ¬ pat <+: s := by
  induction pat generalizing s with
  | nil => cases h
  | cons p ps ih =>
      cases s with
      | nil => cases h
      | cons c cs =>
          rw [clash, Bool.or_eq_true, bne_iff_ne] at h
          rw [List.cons_prefix_cons]
          rintro ⟨heq, hprefix⟩
          exact h.elim (· heq) (ih · hprefix)

/-- None of some patterns starts in a text, whatever comes after it. -/
def quiet (pats : List Text) : Text → Bool
  | [] => true
  | c :: cs => pats.all (clash · ((c :: cs).map Char.toLower)) && quiet pats cs

theorem quiet_append {pats : List Text} {s t : Text} (hs : quiet pats s = true)
    (ht : quiet pats t = true) : quiet pats (s ++ t) = true := by
  induction s with
  | nil => exact ht
  | cons c cs ih =>
      rw [quiet, Bool.and_eq_true, List.all_eq_true] at hs
      rw [List.cons_append, quiet, Bool.and_eq_true, List.all_eq_true]
      refine ⟨fun pat hpat => ?_, ih hs.2⟩
      rw [← List.cons_append, List.map_append]
      exact clash_append (hs.1 pat hpat) _

theorem quiet_flatMap {α : Type} {pats : List Text} {l : List α} {f : α → Text}
    (h : ∀ x ∈ l, quiet pats (f x) = true) : quiet pats (l.flatMap f) = true := by
  induction l with
  | nil => rfl
  | cons x l ih =>
      have ⟨hx, hl⟩ := List.forall_mem_cons.mp h
      rw [List.flatMap_cons]
      exact quiet_append hx (ih hl)

theorem scan_quiet {pats : List Text} {noise : Text} (h : quiet pats noise = true) (rest : Text) :
    scan pats (noise ++ rest) = (scan pats rest).map fun p => (noise ++ p.1, p.2) := by
  induction noise with
  | nil => simp
  | cons c cs ih =>
      rw [quiet, Bool.and_eq_true, List.all_eq_true] at h
      have hmiss : startsAny pats ((c :: (cs ++ rest)).map Char.toLower) = false := by
        rw [startsAny, List.any_eq_false]
        intro pat hpat
        have hclash := clash_append (h.1 pat hpat) (rest.map Char.toLower)
        rw [← List.map_append, List.cons_append] at hclash
        rw [decide_eq_true_iff]
        exact not_prefix_of_clash hclash
      have htail := ih h.2
      unfold scan at htail ⊢
      rw [List.cons_append, splitBy, if_neg (by rw [hmiss]; exact Bool.false_ne_true), htail,
        Option.map_map]
      rfl

theorem scan_none {pats : List Text} {noise : Text} (h : quiet pats noise = true) :
    scan pats noise = none := by
  have hall := scan_quiet h []
  rw [List.append_nil] at hall
  rw [hall]
  rfl

theorem eq_of_toLower_bracket {c : Char} (h : c.toLower = '<') : c = '<' := by
  unfold Char.toLower at h
  split at h
  · rename_i hcase
    have hA : 65 ≤ c.val.toNat := UInt32.le_iff_toNat_le.mp hcase.1
    have hZ : c.val.toNat ≤ 90 := UInt32.le_iff_toNat_le.mp hcase.2
    have hval := congrArg (fun d : Char => d.val.toNat) h
    simp only [UInt32.toNat_add] at hval
    have h32 : ('a'.val - 'A'.val).toNat = 32 := rfl
    have h60 : ('<' : Char).val.toNat = 60 := rfl
    omega
  · exact h

/-- Tags do not start in an escaped text. -/
theorem quiet_escape {pats : List Text} (hpats : ∀ pat ∈ pats, pat.head? = some '<') (s : Text) :
    quiet pats (escape s) = true := by
  have hall : ∀ t : Text, (∀ d ∈ t, d ≠ '<') → quiet pats t = true := by
    intro t
    induction t with
    | nil => exact fun _ => rfl
    | cons c cs ih =>
        intro ht
        have ⟨hc, hcs⟩ := List.forall_mem_cons.mp ht
        rw [quiet, ih hcs, Bool.and_true, List.all_eq_true]
        intro pat hpat
        have hhead := hpats pat hpat
        cases pat with
        | nil => cases hhead
        | cons p ps =>
            rw [Option.some.inj hhead, List.map_cons, clash, Bool.or_eq_true, bne_iff_ne]
            exact .inl fun h => hc (eq_of_toLower_bracket h.symm)
  exact hall (escape s) fun d hd => (no_bracket s d hd).1

end Improv.GuiCosmic.Clip
