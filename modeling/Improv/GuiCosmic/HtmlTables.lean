import Improv.GuiCosmic.Clip
/-!
# The HTML reader without offsets

The reader cuts texts at the offsets where patterns stand in the lower-cased
copy.  Every such offset is between two characters of the text itself, so no cut
fails; and each loop gets further with every step, so it ends.  What it reads
is told here by splitting texts, without an offset.
-/

namespace Improv.GuiCosmic.Clip

open Improv.Lib Improv.Lib.ByteOffsets

/-! ## Lower case -/

theorem utf8Size_toLower (c : Char) : c.toLower.utf8Size = c.utf8Size := by
  unfold Char.toLower
  split
  · rename_i h
    have hZ : c.val.toNat ≤ 90 := UInt32.le_iff_toNat_le.mp h.2
    have hone : ∀ d : Char, d.val.toNat ≤ 127 → d.utf8Size = 1 := by
      intro d hd
      unfold Char.utf8Size
      simp only
      rw [if_pos (UInt32.le_iff_toNat_le.mpr hd)]
    rw [hone c (by omega), hone _ ?_]
    simp only [UInt32.toNat_add]
    have h32 : ('a'.val - 'A'.val).toNat = 32 := rfl
    omega
  · rfl

theorem bytes_map_toLower (s : Text) : bytes (s.map Char.toLower) = bytes s := by
  induction s with
  | nil => rfl
  | cons c cs ih => rw [List.map_cons, bytes_cons, bytes_cons, ih, utf8Size_toLower]

/-- The text before the first place where one of some patterns stands in lower
case, and the text from there on. -/
def scan (pats : List Text) (s : Text) : Option (Text × Text) :=
  splitBy (fun t => startsAny pats (t.map Char.toLower)) s

theorem least_lower {pats : List Text} (hpats : [] ∉ pats) (s : Text) :
    least (pats.map (find · (s.map Char.toLower))) = (scan pats s).map fun p => bytes p.1 := by
  rw [least_find hpats, splitBy_map, Option.map_map]
  unfold scan
  congr 1
  funext p
  exact bytes_map_toLower p.1

theorem find_lower {pat : Text} (hpat : pat ≠ []) (s : Text) :
    find pat (s.map Char.toLower) = (scan [pat] s).map fun p => bytes p.1 := by
  rw [find_eq hpat, splitBy_map, Option.map_map]
  unfold scan
  congr 1
  funext p
  exact bytes_map_toLower p.1

theorem sliceFrom_lower (pre suf : Text) :
    sliceFrom ((pre ++ suf).map Char.toLower) (bytes pre) = some (suf.map Char.toLower) := by
  rw [List.map_append, ← bytes_map_toLower pre, sliceFrom_bytes]

theorem slice_lower (pre mid suf : Text) :
    slice ((pre ++ (mid ++ suf)).map Char.toLower) (bytes pre) (bytes pre + bytes mid) =
      some (mid.map Char.toLower) := by
  rw [List.map_append, List.map_append, ← bytes_map_toLower pre, ← bytes_map_toLower mid,
    slice_bytes]

/-! ## Entities -/

/-- A character is found at the end of the text before it. -/
theorem find_char {c : Char} {s : Text} {i : Nat} (h : find [c] s = some i) :
    ∃ before after, s = before ++ c :: after ∧ i = bytes before := by
  rw [find_eq (List.cons_ne_nil _ _), Option.map_eq_some_iff] at h
  obtain ⟨p, hp, hi⟩ := h
  obtain ⟨hs, hhit, _⟩ := @splitBy_eq _ _ p.1 p.2 hp
  unfold startsAny at hhit
  rw [List.any_cons, List.any_nil, Bool.or_false, decide_eq_true_iff] at hhit
  obtain ⟨after, hafter⟩ := hhit
  rw [List.singleton_append] at hafter
  exact ⟨p.1, after, by rw [hafter]; exact hs, hi.symm⟩

theorem slice_zero (before after : Text) :
    slice (before ++ after) 0 (bytes before) = some before := by
  have h := slice_bytes [] before after
  rwa [List.nil_append, bytes_nil, Nat.zero_add] at h

/-- Decoding at an ampersand gets further, and no cut of it fails. -/
theorem decodeAmp_isSome (more : Text) :
    ∃ c after, decodeAmp ('&' :: more) = some (c, after) ∧ bytes after ≤ bytes more := by
  have hnext : sliceFrom ('&' :: more) 1 = some more := sliceFrom_bytes ['&'] more
  unfold decodeAmp
  cases hstop : (find [';'] ('&' :: more)).filter (· ≤ 10) with
  | none =>
      simp only [hnext]
      exact ⟨_, _, rfl, le_rfl⟩
  | some stop =>
      obtain ⟨name, tail, htail, rfl⟩ := find_char (Option.filter_eq_some_iff.mp hstop).1
      cases name with
      | nil => cases htail
      | cons d name =>
          rw [List.cons_append, List.cons.injEq] at htail
          obtain ⟨rfl, rfl⟩ := htail
          have hname : slice ('&' :: (name ++ ';' :: tail)) 1 (bytes ('&' :: name)) = some name :=
            slice_bytes ['&'] name (';' :: tail)
          have hrest : sliceFrom ('&' :: (name ++ ';' :: tail)) (bytes ('&' :: name) + 1) =
              some tail := by
            have h := sliceFrom_bytes ('&' :: name ++ [';']) tail
            rwa [bytes_append, List.append_assoc] at h
          simp only [hname, Option.bind_eq_bind, Option.bind_some]
          cases entity name with
          | none =>
              simp only [hnext]
              exact ⟨_, _, rfl, le_rfl⟩
          | some c =>
              simp only [hrest]
              refine ⟨_, _, rfl, ?_⟩
              rw [bytes_append, bytes_cons]
              omega

/-- Decoding ends, and no cut of it fails. -/
theorem unescapeFrom_isSome {fuel : Nat} {rest : Text} (hfuel : bytes rest < fuel) :
    ∃ t, unescapeFrom fuel rest = some t := by
  induction fuel generalizing rest with
  | zero => exact absurd hfuel (Nat.not_lt_zero _)
  | succ fuel ih =>
      rw [unescapeFrom]
      cases hamp : find ['&'] rest with
      | none => exact ⟨rest, rfl⟩
      | some i =>
          obtain ⟨before, more, rfl, rfl⟩ := find_char hamp
          obtain ⟨c, after, hdecode, hle⟩ := decodeAmp_isSome more
          have hpos := ('&' : Char).utf8Size_pos
          rw [bytes_append, bytes_cons] at hfuel
          obtain ⟨t, ht⟩ := @ih after (by omega)
          simp only [slice_zero, sliceFrom_bytes, hdecode, ht, Option.bind_eq_bind,
            Option.bind_some]
          exact ⟨_, rfl⟩

def unescaped (s : Text) : Text := (unescape s).getD []

theorem unescape_eq (s : Text) : unescape s = some (unescaped s) := by
  obtain ⟨t, ht⟩ := unescapeFrom_isSome (Nat.lt_succ_self (bytes s))
  unfold unescaped unescape
  rw [ht]
  rfl

/-! ## Cells -/

/-- The text of a cell's body. -/
def cellText (body : Text) : Text := unescaped (trimmed (stripTags body))

/-- The cells of the row that is left. -/
def cellsOf : (fuel : Nat) → Text → List Text
  | 0, _ => []
  | fuel + 1, s =>
    match scan ["<td".toList, "<th".toList] s with
    | none => []
    | some (_, tag) =>
      match scan [['>']] tag with
      | none => []
      | some (_, b) =>
        match scan ["</td".toList, "</th".toList, "<td".toList, "<th".toList] b.tail with
        | none => cellText b.tail :: cellsOf fuel []
        | some (text, after) => cellText text :: cellsOf fuel after

/-- What is found is the rest of the text, and starts with a pattern. -/
theorem scan_eq {pats : List Text} {s before rest : Text}
    (h : scan pats s = some (before, rest)) :
    s = before ++ rest ∧ ∃ pat ∈ pats, pat <+: rest.map Char.toLower := by
  have ⟨hs, hhit, _⟩ := splitBy_eq h
  obtain ⟨pat, hpat, hprefix⟩ := List.any_eq_true.mp hhit
  exact ⟨hs, pat, hpat, of_decide_eq_true hprefix⟩

/-- A pattern found is as many bytes of the text as its own, and the rest of the
text follows them. -/
theorem exists_of_isPrefix {pat rest : Text} (h : pat <+: rest.map Char.toLower) :
    ∃ found more, rest = found ++ more ∧ bytes found = bytes pat ∧
      found.length = pat.length := by
  obtain ⟨t, ht⟩ := h
  refine ⟨rest.take pat.length, rest.drop pat.length, (List.take_append_drop _ _).symm, ?_, ?_⟩
  · rw [← bytes_map_toLower, List.map_take, ← ht, List.take_left]
  · have hlen := congrArg List.length ht
    rw [List.length_append, List.length_map] at hlen
    rw [List.length_take]
    omega

theorem cellsFrom_eq {fuel : Nat} {pre suf : Text} (hfuel : bytes suf < fuel) :
    cellsFrom (pre ++ suf) ((pre ++ suf).map Char.toLower) fuel (bytes pre) =
      some (cellsOf fuel suf) := by
  induction fuel generalizing pre suf with
  | zero => exact absurd hfuel (Nat.not_lt_zero _)
  | succ fuel ih =>
      rw [cellsFrom, cellsOf, sliceFrom_lower]
      simp only [Option.bind_eq_bind, Option.bind_some]
      rw [least_lower (by decide)]
      cases hopen : scan ["<td".toList, "<th".toList] suf with
      | none => rfl
      | some p =>
          obtain ⟨skipped, tag⟩ := p
          obtain ⟨rfl, _⟩ := scan_eq hopen
          have hstart : bytes pre + bytes skipped = bytes (pre ++ skipped) :=
            (bytes_append _ _).symm
          simp only [Option.map_some, hstart, ← List.append_assoc, sliceFrom_lower,
            Option.bind_some]
          rw [find_lower (by decide)]
          cases hgt : scan [['>']] tag with
          | none => rfl
          | some q =>
              obtain ⟨attributes, b⟩ := q
              obtain ⟨rfl, pat, hpat, hprefix⟩ := scan_eq hgt
              rw [List.mem_singleton] at hpat
              obtain ⟨found, body, rfl, hbytes, hlen⟩ := exists_of_isPrefix (hpat ▸ hprefix)
              obtain ⟨x, rfl⟩ := List.length_eq_one_iff.mp hlen
              have hone : bytes [x] = 1 := hbytes
              have hbody : bytes (pre ++ skipped) + bytes attributes + 1 =
                  bytes (pre ++ skipped ++ attributes ++ [x]) := by
                rw [bytes_append _ [x], bytes_append _ attributes, hone]
              have htext : pre ++ skipped ++ (attributes ++ ([x] ++ body)) =
                  pre ++ skipped ++ attributes ++ [x] ++ body := by
                simp only [List.append_assoc]
              simp only [Option.map_some, hbody]
              rw [← List.append_assoc] at hfuel
              simp only [htext, sliceFrom_lower, Option.bind_some]
              rw [least_lower (by decide)]
              generalize hfront : pre ++ skipped ++ attributes ++ [x] = front
              simp only [List.singleton_append, List.tail_cons]
              rw [bytes_append, bytes_append, bytes_append [x], hone] at hfuel
              cases hclose :
                scan ["</td".toList, "</th".toList, "<td".toList, "<th".toList] body with
              | none =>
                  have hslice := slice_bytes front body []
                  have hnext := @ih (front ++ body) [] (by
                    rw [bytes_nil]
                    omega)
                  rw [List.append_nil, ← bytes_append] at hslice
                  rw [List.append_nil] at hnext
                  simp only [Option.map_none, Option.elim_none, hslice, hnext, Option.bind_some,
                    unescape_eq]
                  rfl
              | some r =>
                  obtain ⟨text, after⟩ := r
                  obtain ⟨rfl, _⟩ := scan_eq hclose
                  have hslice := slice_bytes front text after
                  have hnext := @ih (front ++ text) after (by
                    rw [bytes_append] at hfuel
                    omega)
                  rw [List.append_assoc, bytes_append] at hnext
                  simp only [Option.map_some, Option.elim_some, hslice, hnext, Option.bind_some,
                    unescape_eq]
                  rfl

theorem cellsFrom_row (row : Text) :
    cellsFrom row (row.map Char.toLower) (bytes row + 1) 0 = some (cellsOf (bytes row + 1) row) :=
  @cellsFrom_eq _ [] row (Nat.lt_succ_self _)

/-! ## Rows -/

/-- The rows of the table that is left. -/
def rowsOf : (fuel : Nat) → Text → List (List Text)
  | 0, _ => []
  | fuel + 1, s =>
    match scan ["<tr".toList] s with
    | none => []
    | some (_, b) =>
      match scan ["<tr".toList] (b.drop 3) with
      | none => cellsOf (bytes b + 1) b :: rowsOf fuel []
      | some (row, next) =>
        let row := b.take 3 ++ row
        cellsOf (bytes row + 1) row :: rowsOf fuel next

theorem rowsFrom_eq {fuel : Nat} {pre suf : Text} (hfuel : bytes suf < fuel) :
    rowsFrom (pre ++ suf) ((pre ++ suf).map Char.toLower) fuel (bytes pre) =
      some (rowsOf fuel suf) := by
  induction fuel generalizing pre suf with
  | zero => exact absurd hfuel (Nat.not_lt_zero _)
  | succ fuel ih =>
      rw [rowsFrom, rowsOf, sliceFrom_lower]
      simp only [Option.bind_eq_bind, Option.bind_some]
      rw [find_lower (by decide)]
      cases hopen : scan ["<tr".toList] suf with
      | none => rfl
      | some p =>
          obtain ⟨skipped, b⟩ := p
          obtain ⟨rfl, pat, hpat, hprefix⟩ := scan_eq hopen
          rw [List.mem_singleton] at hpat
          obtain ⟨tag, more, rfl, hbytes, hlen⟩ := exists_of_isPrefix (hpat ▸ hprefix)
          have hthree : bytes tag = 3 := hbytes
          have hlen3 : tag.length = 3 := hlen
          have hstart : bytes pre + bytes skipped = bytes (pre ++ skipped) :=
            (bytes_append _ _).symm
          have htag : bytes (pre ++ skipped) + 3 = bytes (pre ++ skipped ++ tag) := by
            rw [bytes_append _ tag, hthree]
          have htext : pre ++ (skipped ++ (tag ++ more)) = pre ++ skipped ++ tag ++ more := by
            simp only [List.append_assoc]
          rw [bytes_append, bytes_append, hthree] at hfuel
          have hdrop : (tag ++ more).drop 3 = more := by rw [← hlen3, List.drop_left]
          have htake : (tag ++ more).take 3 = tag := by rw [← hlen3, List.take_left]
          simp only [Option.map_some, hstart, htag, htext, sliceFrom_lower, Option.bind_some, hdrop,
            htake]
          rw [find_lower (by decide)]
          -- the row up to the next one, or to the end
          have hrest : ∀ mid after : Text, more = mid ++ after →
              slice (pre ++ skipped ++ tag ++ more) (bytes (pre ++ skipped))
                  (bytes (pre ++ skipped ++ tag) + bytes mid) = some (tag ++ mid) ∧
                slice ((pre ++ skipped ++ tag ++ more).map Char.toLower) (bytes (pre ++ skipped))
                  (bytes (pre ++ skipped ++ tag) + bytes mid) =
                    some ((tag ++ mid).map Char.toLower) ∧
                rowsFrom (pre ++ skipped ++ tag ++ more)
                  ((pre ++ skipped ++ tag ++ more).map Char.toLower) fuel
                  (bytes (pre ++ skipped ++ tag) + bytes mid) = some (rowsOf fuel after) := by
            intro mid after hmore
            have hend : bytes (pre ++ skipped ++ tag) + bytes mid =
                bytes (pre ++ skipped) + bytes (tag ++ mid) := by
              rw [bytes_append _ tag, bytes_append tag, Nat.add_assoc]
            have hwhole : pre ++ skipped ++ tag ++ more =
                pre ++ skipped ++ ((tag ++ mid) ++ after) := by
              rw [hmore]
              simp only [List.append_assoc]
            have hnext := @ih (pre ++ skipped ++ (tag ++ mid)) after (by
              rw [hmore, bytes_append] at hfuel
              omega)
            rw [List.append_assoc, bytes_append _ (tag ++ mid)] at hnext
            rw [hend, hwhole]
            exact ⟨slice_bytes _ _ _, slice_lower _ _ _, hnext⟩
          cases hnext : scan ["<tr".toList] more with
          | none =>
              obtain ⟨hslice, hlower, hrows⟩ := hrest more [] (List.append_nil _).symm
              simp only [Option.map_none, Option.elim_none,
                bytes_append (pre ++ skipped ++ tag) more, hslice, hlower, hrows,
                Option.bind_some, cellsFrom_row]
              rfl
          | some q =>
              obtain ⟨mid, after⟩ := q
              obtain ⟨hslice, hlower, hrows⟩ := hrest mid after (scan_eq hnext).1
              simp only [Option.map_some, Option.elim_some, hslice, hlower, hrows,
                Option.bind_some, cellsFrom_row]
              rfl

/-! ## The table -/

/-- The rows of the first table of a text. -/
def tableOf (html : Text) : Option (List (List Text)) :=
  (scan ["<table".toList] html).map fun p =>
    let t := ((scan ["</table>".toList] p.2).map (·.1)).getD p.2
    rowsOf (bytes t + 1) t

/-- No text is cut inside a character, and the reader comes back. -/
theorem fromHtml_eq (html : Text) : fromHtml html = some (tableOf html) := by
  unfold fromHtml tableOf
  simp only
  rw [find_lower (by decide)]
  cases hopen : scan ["<table".toList] html with
  | none => rfl
  | some p =>
      obtain ⟨before, rest⟩ := p
      obtain ⟨rfl, _⟩ := scan_eq hopen
      simp only [Option.map_some, sliceFrom_lower, Option.bind_eq_bind, Option.bind_some]
      rw [find_lower (by decide)]
      have hrest : ∀ t after : Text, rest = t ++ after →
          slice (before ++ rest) (bytes before) (bytes before + bytes t) = some t ∧
            slice ((before ++ rest).map Char.toLower) (bytes before) (bytes before + bytes t) =
              some (t.map Char.toLower) ∧
            rowsFrom t (t.map Char.toLower) (bytes t + 1) 0 = some (rowsOf (bytes t + 1) t) := by
        intro t after h
        rw [h]
        exact ⟨slice_bytes _ _ _, slice_lower _ _ _,
          @rowsFrom_eq _ [] t (Nat.lt_succ_self _)⟩
      cases hclose : scan ["</table>".toList] rest with
      | none =>
          obtain ⟨hslice, hlower, hrows⟩ := hrest rest [] (List.append_nil _).symm
          simp only [Option.map_none, Option.elim_none, bytes_append before rest, hslice, hlower,
            hrows, Option.bind_some]
          rfl
      | some q =>
          obtain ⟨t, after⟩ := q
          obtain ⟨hslice, hlower, hrows⟩ := hrest t after (scan_eq hclose).1
          simp only [Option.map_some, Option.elim_some, hslice, hlower, hrows, Option.bind_some]
          rfl

end Improv.GuiCosmic.Clip
