import Improv.Lib.Thousands
import Improv.Lib.ExceptLemmas
import Improv.Engine.FormatSections
/-!
# How a section lays out digits

The digits of a number, each in its place among a section's literals, and when
a number section gives just that text: its commas count every digit of the text
before the point, literals' included, and a section without an integer
placeholder writes the integer digits at each of its points.
-/

namespace Improv.Engine.Sections

open Improv.Lib Improv.Lib.Decimal Improv.Lib.Thousands Improv.CoreModel Improv.CoreModel.Number

/-! ## The digits in their places -/

/-- A character of the integer region. -/
inductive Mark
  | lit (c : Char)
  /-- Of the number, or filling in for a digit of it. -/
  | number (c : Char)
deriving DecidableEq

namespace Mark

def char : Mark → Char
  | lit c => c
  | number c => c

/-- An integer digit. -/
def isNumber : Mark → Bool
  | lit _ => false
  | number c => isDigit c

/-- A digit of the text. -/
def isText (m : Mark) : Bool := isDigit m.char

end Mark

theorem map_char_lit (l : List Char) : (l.map Mark.lit).map Mark.char = l := by
  rw [List.map_map]
  exact List.map_id l

theorem map_char_number (l : List Char) : (l.map Mark.number).map Mark.char = l := by
  rw [List.map_map]
  exact List.map_id l

/-- The text before the point: each placeholder has the integer digits that those
after it do not take, or fills in for a missing one. -/
def before : List Tok → List Char → List Mark
  | [], _ => []
  | .lit l :: ts, int => l.map .lit ++ before ts int
  | .pct :: ts, int => .lit '%' :: before ts int
  | .dig c :: ts, int =>
    let n := (digs ts).length
    (if int.length ≤ n then placeholder c else int.take (int.length - n)).map .number ++
      before ts (int.drop (int.length - n))
  | _ :: ts, int => before ts int

/-- The text from the point on: a fraction digit at each placeholder, where `#`
and `?` leave out trailing zeros. -/
def after : List Tok → List Char → List Char
  | [], _ => []
  | .lit l :: ts, frac => l ++ after ts frac
  | .pct :: ts, frac => '%' :: after ts frac
  | .point :: ts, frac => '.' :: after ts frac
  | .dig c :: ts, frac =>
    (if c = '0' ∨ frac.any (· ≠ '0') then frac.take 1 else placeholder c) ++
      after ts (frac.drop 1)
  | _ :: ts, frac => after ts frac

/-- The tokens before the point, and those from it on. -/
def intToks (sec : List Tok) : List Tok := sec.takeWhile (· ≠ .point)

def fracToks (sec : List Tok) : List Tok := sec.dropWhile (· ≠ .point)

/-- The integer region; without a placeholder the integer digits end it. -/
def marks (sec : List Tok) (int : List Char) : List Mark :=
  before (intToks sec) int ++ if digs (intToks sec) = [] then int.map .number else []

/-- A comma stands between a placeholder and a later one, before the point. -/
def groups (sec : List Tok) : Bool :=
  sec.zipIdx.any fun p => p.1 = .comma && p.2 < (intToks sec).length &&
    (sec.take p.2).any isDig && (sec.drop p.2).any isDig

/-- The number that a section without an exponent rounds. -/
def scaled (fl : Floats) (sec : List Tok) (x : F64) : F64 :=
  (sec.zipIdx.foldl (commaStep sec sec.length (intToks sec).length) (x, false)).1.mul
    (fl.powi (.ofNat 100) (sec.count .pct))

/-- A number's digits laid out, with a comma before each integer digit but the
first that full groups of three integer digits follow from, where the section
groups. -/
def laidOut (sec : List Tok) (int frac : List Char) : List Char :=
  (if groups sec then withSeparators ',' Mark.char Mark.isNumber false (marks sec int)
    else (marks sec int).map Mark.char) ++ after (fracToks sec) frac

/-- A token of a number section without an exponent. -/
def isPlain : Tok → Bool
  | .lit _ | .dig _ | .point | .comma | .pct => true
  | _ => false

/-- The digits of the literals leave the commas where they are, and a section
without an integer placeholder has one point or no integer digit to write. -/
def Keeps (sec : List Tok) (int : List Char) : Prop :=
  (groups sec = true → Regular Mark.isText Mark.isNumber (marks sec int)) ∧
    (digs (intToks sec) = [] → int = [] ∨ sec.count .point ≤ 1)

/-- The character of a number's mark. -/
def Mark.number? : Mark → Option Char
  | .lit _ => none
  | .number c => some c

/-! ## Digits dealt -/

theorem ok_bind {α β : Type} (a : α) (f : α → Except Fault β) : (Except.ok a >>= f) = f a := rfl

theorem digs_cons (t : Tok) (ts : List Tok) :
    digs (t :: ts) = (match t with | .dig c => [c] | _ => []) ++ digs ts := by
  cases t <;> rfl

/-- The digits left for the placeholders from one on. -/
def Digits.left (d : Digits) (ii n : Nat) : List Char :=
  if ii = 0 then d.int else d.int.drop (d.int.length - n)

theorem drop_left (d : Digits) {ii n : Nat} :
    (d.left ii (n + 1)).drop ((d.left ii (n + 1)).length - n) =
      d.left (ii + 1) n := by
  unfold Digits.left
  rw [if_neg (Nat.succ_ne_zero ii)]
  by_cases hii : ii = 0
  · rw [if_pos hii]
  · rw [if_neg hii, List.length_drop, List.drop_drop]
    congr 1
    omega

/-- What an integer placeholder takes. -/
theorem integerDigit_eq {d : Digits} {s : Lay} {c : Char} {n : Nat}
    (hn : d.ip.length = s.ii + (n + 1)) :
    integerDigit d s c = .ok { s with
      head := s.head ++ (if (d.left s.ii (n + 1)).length ≤ n then placeholder c
        else (d.left s.ii (n + 1)).take ((d.left s.ii (n + 1)).length - n)),
      ii := s.ii + 1 } := by
  have hr : d.ip.length - 1 - s.ii = n := by omega
  unfold integerDigit
  rw [if_neg (by omega), hr]
  simp only
  by_cases hshort : d.int.length < n + 1
  · have hall : d.left s.ii (n + 1) = d.int := by
      unfold Digits.left
      split
      · rfl
      · rw [Nat.sub_eq_zero_of_le hshort.le, List.drop_zero]
    have hnone : (if s.ii = 0 ∧ d.ip.length < d.int.length then
        d.int.take (d.int.length - d.ip.length) else []) = [] := if_neg fun h => by omega
    rw [if_pos hshort, hall, hnone, if_pos (Nat.lt_succ_iff.mp hshort), List.append_nil]
  · obtain ⟨k, hk⟩ : ∃ k, d.int.length = k + (n + 1) := ⟨d.int.length - (n + 1), by omega⟩
    have hlt : k < d.int.length := by omega
    have hkey : d.int.length - (n + 1) = k := by omega
    rw [if_neg hshort, hkey, List.getElem?_eq_getElem hlt]
    simp only
    by_cases hii : s.ii = 0
    · have hleft : d.left s.ii (n + 1) = d.int := if_pos hii
      have hsurplus : (if s.ii = 0 ∧ d.ip.length < d.int.length then
          d.int.take (d.int.length - d.ip.length) else []) = d.int.take k := by
        by_cases hmore : d.ip.length < d.int.length
        · rw [if_pos ⟨hii, hmore⟩, show d.int.length - d.ip.length = k by omega]
        · rw [if_neg (fun h => hmore h.2), show k = 0 by omega, List.take_zero]
      rw [hsurplus, hleft, if_neg (by omega), show d.int.length - n = k + 1 by omega,
        List.take_succ_eq_append_getElem hlt, List.append_assoc]
    · have hleft : d.left s.ii (n + 1) = d.int.drop k := by
        unfold Digits.left
        rw [if_neg hii, hkey]
      rw [if_neg (fun h => hii h.1), hleft, List.length_drop, if_neg (by omega),
        show d.int.length - k - n = 1 by omega, List.drop_eq_getElem_cons hlt, List.append_nil]
      rfl

/-- The tokens before the point laid out. -/
theorem place_before {d : Digits} {ts : List Tok} (hplain : ts.all isPlain = true)
    (hpoint : .point ∉ ts) {k : Nat} (hk : k + ts.length ≤ d.point) (s : Lay)
    (hn : d.ip.length = s.ii + (digs ts).length) :
    (ts.zipIdx k).foldlM (place d) s = .ok { s with
      head := s.head ++ (before ts (d.left s.ii (digs ts).length)).map Mark.char,
      ii := d.ip.length } := by
  induction ts generalizing k s with
  | nil =>
      rw [show digs [] = [] from rfl, List.length_nil, Nat.add_zero] at hn
      rw [before, List.map_nil, List.append_nil, hn]
      rfl
  | cons t ts ih =>
      rw [List.all_cons, Bool.and_eq_true] at hplain
      rw [List.length_cons] at hk
      rw [List.mem_cons, not_or] at hpoint
      have hlt : k < d.point := by omega
      rw [List.zipIdx_cons, List.foldlM_cons]
      cases t with
      | lit l =>
          have hstep : place d s (.lit l, k) = .ok { s with head := s.head ++ l } := by
            simp only [place, Lay.push, hlt, decide_true, if_true]
          rw [hstep, ok_bind,
            ih hplain.2 hpoint.2 (k := k + 1) (by omega) { s with head := s.head ++ l } hn]
          simp only [before, digs_cons, List.nil_append, List.map_append, map_char_lit,
            List.append_assoc]
      | pct =>
          have hstep : place d s (.pct, k) = .ok { s with head := s.head ++ ['%'] } := by
            simp only [place, Lay.push, hlt, decide_true, if_true]
          rw [hstep, ok_bind,
            ih hplain.2 hpoint.2 (k := k + 1) (by omega) { s with head := s.head ++ ['%'] } hn]
          simp only [before, digs_cons, List.nil_append, List.map_cons, List.append_assoc]
          rfl
      | comma =>
          rw [show place d s (.comma, k) = .ok s from rfl, ok_bind,
            ih hplain.2 hpoint.2 (k := k + 1) (by omega) s hn]
          rfl
      | dig c =>
          have hlen : (digs (.dig c :: ts)).length = (digs ts).length + 1 := rfl
          rw [hlen] at hn ⊢
          have hstep : place d s (.dig c, k) = integerDigit d s c := by
            simp only [place, hlt, if_true]
          rw [hstep, integerDigit_eq hn, ok_bind,
            ih hplain.2 hpoint.2 (k := k + 1) (by omega) _ (by show _ = s.ii + 1 + _; omega)]
          simp only [before, List.map_append, map_char_number, List.append_assoc, drop_left]
      | point => exact absurd rfl hpoint.1
      | _ => exact absurd hplain.1 Bool.false_ne_true

/-! ## Fractions -/

/-- The last of the numbers below `n` that satisfies `p`. -/
theorem find?_reverse_range {n : Nat} {p : Nat → Bool} :
    (∀ l, (List.range n).reverse.find? p = some l →
      l < n ∧ p l = true ∧ ∀ k, l < k → k < n → p k = false) ∧
    ((List.range n).reverse.find? p = none → ∀ k < n, p k = false) := by
  induction n with
  | zero => exact ⟨fun l h => (by cases h), fun _ k hk => absurd hk (Nat.not_lt_zero k)⟩
  | succ n ih =>
      rw [List.range_succ, List.reverse_append, List.reverse_singleton, List.singleton_append]
      cases hp : p n with
      | true =>
          rw [List.find?_cons_of_pos hp]
          refine ⟨fun l h => ?_, fun h => by cases h⟩
          cases h
          exact ⟨Nat.lt_succ_self n, hp, fun k hk hk' => by omega⟩
      | false =>
          rw [List.find?_cons_of_neg (by simp [hp])]
          refine ⟨fun l h => ?_, fun h k hk => ?_⟩
          · obtain ⟨hlt, hl, hlast⟩ := ih.1 l h
            refine ⟨by omega, hl, fun k hk hk' => ?_⟩
            by_cases hkn : k = n
            · rw [hkn, hp]
            · exact hlast k hk (by omega)
          · by_cases hkn : k = n
            · rw [hkn, hp]
            · exact ih.2 h k (by omega)

theorem lastFrac_eq (d : Digits) (fi : Nat) :
    d.lastFrac.any (fun l => decide (fi ≤ l)) = (d.frac.drop fi).any (· ≠ '0') := by
  have hfind := @find?_reverse_range d.frac.length fun k => decide (d.frac.getD k '0' ≠ '0')
  have hget : ∀ k (hk : k < d.frac.length), d.frac.getD k '0' = d.frac[k] := fun k hk => by
    rw [List.getD_eq_getElem?_getD, List.getElem?_eq_getElem hk, Option.getD_some]
  rw [Bool.eq_iff_iff, List.any_eq_true]
  unfold Digits.lastFrac
  cases h : (List.range d.frac.length).reverse.find? fun k => decide (d.frac.getD k '0' ≠ '0') with
  | none =>
      refine ⟨fun h => (by cases h), fun ⟨x, hx, hne⟩ => ?_⟩
      obtain ⟨k, hk, rfl⟩ := List.mem_iff_getElem.mp (List.mem_of_mem_drop hx)
      have hzero := hfind.2 h k hk
      rw [hget k hk, hne] at hzero
      cases hzero
  | some l =>
      obtain ⟨hlt, hl, hlast⟩ := hfind.1 l h
      rw [Option.any_some, decide_eq_true_eq]
      constructor
      · intro hfi
        rw [hget l hlt] at hl
        refine ⟨_, List.mem_iff_getElem.mpr ⟨l - fi, by rw [List.length_drop]; omega, ?_⟩, hl⟩
        rw [List.getElem_drop]
        congr 1
        omega
      · rintro ⟨x, hx, hne⟩
        obtain ⟨k, hk, rfl⟩ := List.mem_iff_getElem.mp hx
        rw [List.length_drop] at hk
        rw [List.getElem_drop] at hne
        by_contra hcon
        have hzero := hlast (fi + k) (by omega) (by omega)
        rw [hget _ (by omega), hne] at hzero
        cases hzero

/-- What a fraction placeholder takes. -/
theorem fractionDigit_eq {d : Digits} {s : Lay} {c : Char} (hlt : s.fi < d.frac.length) :
    fractionDigit d s c = .ok { s with
      out := s.out ++ (if c = '0' ∨ (d.frac.drop s.fi).any (· ≠ '0') = true then
        (d.frac.drop s.fi).take 1 else placeholder c),
      fi := s.fi + 1 } := by
  unfold fractionDigit
  rw [lastFrac_eq, List.getElem?_eq_getElem hlt, List.drop_eq_getElem_cons hlt]
  by_cases h : c = '0'
  · rw [if_pos (Or.inr h), if_pos (Or.inl h)]
    rfl
  · simp only [h, or_false, false_or]
    split <;> rfl

/-- The tokens from the point on laid out: where there is no integer placeholder,
each point writes the integer digits. -/
theorem place_after {d : Digits} {ts : List Tok} (hplain : ts.all isPlain = true) {k : Nat}
    (hk : d.point ≤ k) (hstop : k + ts.length ≤ d.stop) (s : Lay)
    (hn : d.frac.length = s.fi + (digs ts).length) :
    (ts.zipIdx k).foldlM (place d) s = .ok { s with
      head := s.head ++ if d.ip = [] then (List.replicate (ts.count .point) d.int).flatten else [],
      out := s.out ++ after ts (d.frac.drop s.fi),
      fi := d.frac.length } := by
  induction ts generalizing k s with
  | nil =>
      rw [show digs [] = [] from rfl, List.length_nil, Nat.add_zero] at hn
      rw [after, List.append_nil, List.count_nil, hn]
      simp only [List.replicate_zero, List.flatten_nil, ite_self, List.append_nil]
      rfl
  | cons t ts ih =>
      rw [List.all_cons, Bool.and_eq_true] at hplain
      rw [List.length_cons] at hstop
      have hge : ¬k < d.point := by omega
      rw [List.zipIdx_cons, List.foldlM_cons]
      cases t with
      | lit l =>
          have hstep : place d s (.lit l, k) = .ok { s with out := s.out ++ l } := by
            simp only [place, Lay.push, hge, decide_false, Bool.false_eq_true, if_false]
          rw [hstep, ok_bind, ih hplain.2 (k := k + 1) (by omega) (by omega)
            { s with out := s.out ++ l } hn, List.count_cons_of_ne (by simp)]
          simp only [after, List.append_assoc]
      | pct =>
          have hstep : place d s (.pct, k) = .ok { s with out := s.out ++ ['%'] } := by
            simp only [place, Lay.push, hge, decide_false, Bool.false_eq_true, if_false]
          rw [hstep, ok_bind, ih hplain.2 (k := k + 1) (by omega) (by omega)
            { s with out := s.out ++ ['%'] } hn, List.count_cons_of_ne (by simp)]
          simp only [after, List.append_assoc, List.singleton_append]
      | comma =>
          rw [show place d s (.comma, k) = .ok s from rfl, ok_bind,
            ih hplain.2 (k := k + 1) (by omega) (by omega) s hn, List.count_cons_of_ne (by simp)]
          rfl
      | point =>
          have hstep : place d s (.point, k) = .ok { s with
              head := s.head ++ (if d.ip = [] then d.int else []), out := s.out ++ ['.'] } := by
            unfold place
            simp only
            split
            · rfl
            · rw [List.append_nil]
          rw [hstep, ok_bind, ih hplain.2 (k := k + 1) (by omega) (by omega)
            ⟨s.head ++ (if d.ip = [] then d.int else []), s.out ++ ['.'], s.ii, s.fi⟩ hn,
            List.count_cons_self, List.replicate_succ, List.flatten_cons]
          simp only [after, List.append_assoc, List.singleton_append]
          split
          · rfl
          · rfl
      | dig c =>
          have hlen : (digs (.dig c :: ts)).length = (digs ts).length + 1 := rfl
          rw [hlen] at hn
          have hstep : place d s (.dig c, k) = fractionDigit d s c := by
            simp only [place, hge, if_false]
            rw [if_pos (by omega)]
          rw [hstep, fractionDigit_eq (by omega), ok_bind,
            ih hplain.2 (k := k + 1) (by omega) (by omega) _ (by show _ = s.fi + 1 + _; omega),
            List.count_cons_of_ne (by simp)]
          simp only [after, List.append_assoc, List.drop_drop]
      | _ => exact absurd hplain.1 Bool.false_ne_true

/-! ## The whole section -/

theorem groupFrom_eq {ms : List Mark} {total seen : Nat}
    (h : total = seen + ms.countP Mark.isText) :
    groupFrom total seen (ms.map Mark.char) =
      withSeparators ',' Mark.char Mark.isText (decide (0 < seen)) ms := by
  induction ms generalizing seen with
  | nil => rfl
  | cons m ms ih =>
      rw [List.countP_cons] at h
      rw [List.map_cons]
      unfold groupFrom withSeparators
      by_cases hm : Mark.isText m = true
      · rw [if_pos hm] at h
        have hdigit : isDigit m.char = true := hm
        have hdue : Due Mark.isText (decide (0 < seen)) m ms ↔
            0 < seen ∧ (total - seen) % 3 = 0 := by
          unfold Due
          rw [hm, decide_eq_true_eq, show total - seen = ms.countP Mark.isText + 1 by omega]
          exact ⟨fun h => h.2, fun h => ⟨rfl, h⟩⟩
        rw [if_pos hdigit, ih (by omega), hm, Bool.or_true, decide_eq_true (Nat.succ_pos seen)]
        by_cases hcomma : 0 < seen ∧ (total - seen) % 3 = 0
        · rw [if_pos hcomma, if_pos (hdue.mpr hcomma)]
          rfl
        · rw [if_neg hcomma, if_neg (fun h => hcomma (hdue.mp h))]
          rfl
      · rw [if_neg hm] at h
        have hdigit : ¬isDigit m.char = true := hm
        rw [if_neg hdigit, ih (by omega), if_neg (fun h => hm h.1), Bool.eq_false_iff.mpr hm,
          Bool.or_false]

theorem groupMixed_eq (ms : List Mark) :
    groupMixed (ms.map Mark.char) = withSeparators ',' Mark.char Mark.isText false ms := by
  unfold groupMixed
  rw [groupFrom_eq]
  · rfl
  · rw [Nat.zero_add, List.countP_map]
    rfl

/-- The commas between the digits of the text are those between the integer
digits just where the marks are regular. -/
theorem groupMixed_eq_iff (ms : List Mark) :
    groupMixed (ms.map Mark.char) = withSeparators ',' Mark.char Mark.isNumber false ms ↔
      Regular Mark.isText Mark.isNumber ms := by
  rw [groupMixed_eq]
  apply withSeparators_eq_iff_regular
  · intro m hm
    cases m with
    | lit c => cases hm
    | number c => exact hm
  · intro m hm hcomma
    rw [Mark.isText, hcomma] at hm
    revert hm
    decide

theorem length_frac {fl : Floats} {x : F64} {dec : Nat} {int frac : List Char}
    (h : roundDigits fl x dec = .ok (int, frac)) : frac.length = dec := by
  unfold roundDigits at h
  simp only at h
  split at h
  · cases h
  · rw [bind_eq_ok_iff] at h
    obtain ⟨s, -, h⟩ := h
    cases h
    rw [List.length_drop]
    split
    · rw [List.length_append, List.length_replicate]
      omega
    · omega

/-- Some token of a list is a placeholder, by its place. -/
theorem any_isDig_iff (ts : List Tok) :
    ts.any isDig = true ↔ ∃ k < ts.length, (ts[k]?.map isDig).getD false = true := by
  rw [List.any_eq_true]
  constructor
  · rintro ⟨t, ht, hdig⟩
    obtain ⟨k, hk, rfl⟩ := List.mem_iff_getElem.mp ht
    exact ⟨k, hk, by rw [List.getElem?_eq_getElem hk, Option.map_some, Option.getD_some, hdig]⟩
  · rintro ⟨k, hk, hdig⟩
    rw [List.getElem?_eq_getElem hk, Option.map_some, Option.getD_some] at hdig
    exact ⟨ts[k], List.getElem_mem hk, hdig⟩

theorem commaStep_grouped (sec : List Tok) (point : Nat) (s : F64 × Bool) (p : Tok × Nat) :
    (commaStep sec sec.length point s p).2 = (s.2 || (p.1 = .comma && p.2 < point &&
      (sec.take p.2).any isDig && (sec.drop p.2).any isDig)) := by
  obtain ⟨t, i⟩ := p
  unfold commaStep
  simp only
  by_cases ht : t = .comma
  · have hfind := @find?_reverse_range sec.length fun k => (sec[k]?.map isDig).getD false
    rw [if_neg (by simpa using ht)]
    -- the last placeholder decides whether one follows the comma
    cases h : (List.range sec.length).reverse.find? fun k => (sec[k]?.map isDig).getD false with
    | none =>
        have hdrop : (sec.drop i).any isDig = false := by
          rw [Bool.eq_false_iff, ne_eq, any_isDig_iff]
          rintro ⟨k, hk, hdig⟩
          rw [List.getElem?_drop, hfind.2 h _ (by rw [List.length_drop] at hk; omega)] at hdig
          cases hdig
        rw [hdrop, Bool.and_false, Bool.or_false]
    | some l =>
        obtain ⟨hlt, hl, hlast⟩ := hfind.1 l h
        simp only
        by_cases hli : l < i
        · have hdrop : (sec.drop i).any isDig = false := by
            rw [Bool.eq_false_iff, ne_eq, any_isDig_iff]
            rintro ⟨k, hk, hdig⟩
            rw [List.length_drop] at hk
            rw [List.getElem?_drop, hlast _ (by omega) (by omega)] at hdig
            cases hdig
          rw [if_pos hli, hdrop, Bool.and_false, Bool.or_false]
        · have hdrop : (sec.drop i).any isDig = true := by
            rw [any_isDig_iff]
            refine ⟨l - i, by rw [List.length_drop]; omega, ?_⟩
            rw [List.getElem?_drop, show i + (l - i) = l by omega, hl]
          rw [if_neg hli, hdrop, Bool.and_true, decide_eq_true ht, Bool.true_and]
          by_cases hcond : i < point ∧ (sec.take i).any isDig = true
          · rw [if_pos hcond, decide_eq_true hcond.1, hcond.2, Bool.and_true, Bool.or_true]
          · rw [if_neg hcond]
            cases hpoint : decide (i < point) with
            | false => rw [Bool.false_and, Bool.or_false]
            | true =>
                have htake : (sec.take i).any isDig = false := by
                  rw [Bool.eq_false_iff]
                  exact fun h => hcond ⟨of_decide_eq_true hpoint, h⟩
                rw [htake, Bool.and_false, Bool.or_false]
  · rw [if_pos ht, decide_eq_false ht, Bool.false_and, Bool.false_and, Bool.false_and,
      Bool.or_false]

theorem grouped_eq (sec : List Tok) (x : F64) :
    (sec.zipIdx.foldl (commaStep sec sec.length (intToks sec).length) (x, false)).2 =
      groups sec := by
  have hfold : ∀ (ps : List (Tok × Nat)) (s : F64 × Bool),
      (ps.foldl (commaStep sec sec.length (intToks sec).length) s).2 =
        (s.2 || ps.any fun p => p.1 = .comma && p.2 < (intToks sec).length &&
          (sec.take p.2).any isDig && (sec.drop p.2).any isDig) := by
    intro ps
    induction ps with
    | nil => exact fun s => (Bool.or_false _).symm
    | cons p ps ih =>
        intro s
        rw [List.foldl_cons, ih, commaStep_grouped, List.any_cons, Bool.or_assoc]
  rw [hfold, Bool.false_or]
  rfl

/-- The tokens before the point are those up to its place. -/
theorem point_eq (sec : List Tok) :
    (sec.findIdx? (· = .point)).getD sec.length = (intToks sec).length := by
  unfold intToks
  induction sec with
  | nil => rfl
  | cons t ts ih =>
      rw [List.findIdx?_cons, List.takeWhile_cons]
      by_cases h : t = .point
      · simp [h]
      · simp only [h, decide_false, Bool.false_eq_true, if_false, ne_eq, not_false_eq_true,
          decide_true, if_true, List.length_cons, ← ih]
        cases ts.findIdx? (· = .point) <;> rfl

theorem intToks_append_fracToks (sec : List Tok) : intToks sec ++ fracToks sec = sec :=
  List.takeWhile_append_dropWhile

/-- A number section without an exponent. -/
theorem numberSection_plain {fl : Floats} {sec : List Tok} (hplain : sec.all isPlain = true)
    {x : F64} (minus : Bool) {int frac : List Char}
    (hround : roundDigits fl (scaled fl sec x) (digs (fracToks sec)).length = .ok (int, frac)) :
    numberSection fl sec x minus =
      (sec.zipIdx.foldlM
        (place ⟨digs (intToks sec), int, frac, (intToks sec).length, sec.length, 0⟩) .empty).map
          fun s => (if minus then ['-'] else []) ++
            (if groups sec then groupMixed s.head else s.head) ++ s.out := by
  rw [List.all_eq_true] at hplain
  have hnone : ∀ t ∈ sec, isPlain t = false → False := fun t ht h => by
    rw [hplain t ht] at h
    cases h
  have hslash : ¬(Tok.slash ∈ sec ∨ Tok.atSign ∈ sec) := fun h =>
    h.elim (fun h => hnone _ h rfl) fun h => hnone _ h rfl
  have hgeneral : sec.findIdx? (· = .general) = none := by
    rw [List.findIdx?_eq_none_iff]
    intro t ht
    rw [decide_eq_false_iff_not]
    rintro rfl
    exact hnone _ ht rfl
  have hexp : sec.findIdx? isExp = none := by
    rw [List.findIdx?_eq_none_iff]
    intro t ht
    cases t with
    | exp c plus width => exact (hnone _ ht rfl).elim
    | _ => rfl
  have hany : sec.any isExp = false := by
    rw [List.any_eq_false]
    intro t ht h
    cases t with
    | exp c plus width => exact hnone _ ht rfl
    | _ => cases h
  have htake : sec.take (intToks sec).length = intToks sec := by
    calc
      sec.take (intToks sec).length = (intToks sec ++ fracToks sec).take (intToks sec).length := by
        rw [intToks_append_fracToks]
      _ = intToks sec := List.take_left
  have hdrop : sec.drop (intToks sec).length = fracToks sec := by
    calc
      sec.drop (intToks sec).length = (intToks sec ++ fracToks sec).drop (intToks sec).length := by
        rw [intToks_append_fracToks]
      _ = fracToks sec := List.drop_left
  unfold numberSection
  rw [if_neg hslash, hgeneral]
  simp only [hexp, hany, Option.getD_none, List.take_length, point_eq, htake, hdrop]
  rw [if_neg Bool.false_ne_true]
  unfold scaled at hround
  rw [hround, grouped_eq]
  rw [show Except.map (fun r => ((0 : Int), r)) (.ok (int, frac) : Except Fault _) =
    .ok (0, int, frac) from rfl, ok_bind]
  cases sec.zipIdx.foldlM
    (place ⟨digs (intToks sec), int, frac, (intToks sec).length, sec.length, 0⟩) .empty with
  | error e => rfl
  | ok s => rfl

/-- The integer region and the rest of the text. -/
theorem place_plain {sec : List Tok} (hplain : sec.all isPlain = true) {int frac : List Char}
    (hfrac : frac.length = (digs (fracToks sec)).length) :
    ∃ s, sec.zipIdx.foldlM
        (place ⟨digs (intToks sec), int, frac, (intToks sec).length, sec.length, 0⟩) .empty =
          .ok s ∧
      s.head = (before (intToks sec) int).map Mark.char ++
        (if digs (intToks sec) = [] then (List.replicate (sec.count .point) int).flatten else []) ∧
      s.out = after (fracToks sec) frac := by
  have hsplit := intToks_append_fracToks sec
  have hlen : (intToks sec).length + (fracToks sec).length = sec.length := by
    rw [← List.length_append, hsplit]
  have hall : (intToks sec).all isPlain = true ∧ (fracToks sec).all isPlain = true := by
    rw [← Bool.and_eq_true, ← List.all_append, hsplit, hplain]
  have hnot : Tok.point ∉ intToks sec := by
    intro h
    simpa using List.mem_takeWhile_imp h
  have hcount : sec.count .point = (fracToks sec).count .point := by
    conv_lhs => rw [← hsplit]
    rw [List.count_append, List.count_eq_zero.mpr hnot, Nat.zero_add]
  obtain ⟨d, hd⟩ : ∃ d : Digits,
      d = ⟨digs (intToks sec), int, frac, (intToks sec).length, sec.length, 0⟩ := ⟨_, rfl⟩
  have hzip : sec.zipIdx =
      (intToks sec).zipIdx 0 ++ (fracToks sec).zipIdx (0 + (intToks sec).length) := by
    rw [← List.zipIdx_append, hsplit]
  rw [← hd, hzip, List.foldlM_append,
    place_before hall.1 hnot (by rw [hd, Nat.zero_add]) .empty
      (by rw [hd]; exact (Nat.zero_add _).symm),
    ok_bind, place_after hall.2 (by rw [hd, Nat.zero_add])
      (by rw [hd, Nat.zero_add, hlen]) _
      (by rw [hd, hfrac]; exact (Nat.zero_add _).symm)]
  refine ⟨_, rfl, ?_, ?_⟩
  · rw [hcount, hd]
    rfl
  · rw [hd]
    rfl

theorem digs_eq_nil_iff (ts : List Tok) : digs ts = [] ↔ ts.any isDig = false := by
  rw [List.any_eq_false]
  induction ts with
  | nil => simp [digs]
  | cons t ts ih =>
      rw [digs_cons, List.append_eq_nil_iff, ih, List.forall_mem_cons]
      cases t <;> simp [isDig]

/-- A section without an integer placeholder does not group. -/
theorem groups_of_digs_nil {sec : List Tok} (h : digs (intToks sec) = []) :
    groups sec = false := by
  rw [digs_eq_nil_iff, List.any_eq_false] at h
  unfold groups
  rw [List.any_eq_false]
  intro p _ hp
  simp only [Bool.and_eq_true, decide_eq_true_eq] at hp
  obtain ⟨t, ht, hdig⟩ := List.any_eq_true.mp hp.1.2
  have hinit : sec.take p.2 <+: intToks sec :=
    List.prefix_of_prefix_length_le (List.take_prefix _ _) (List.takeWhile_prefix _)
      (by rw [List.length_take]; omega)
  exact h t (hinit.subset ht) hdig

/-- The integer digits written at each point are the digits once just when there
are none or one point. -/
theorem flatten_replicate_eq_iff {int : List Char} {n : Nat} (hn : 0 < n) :
    (List.replicate n int).flatten = int ↔ int = [] ∨ n ≤ 1 := by
  constructor
  · intro h
    have hlen := congrArg List.length h
    rw [List.length_flatten, List.map_replicate, List.sum_replicate_nat] at hlen
    by_cases hint : int = []
    · exact .inl hint
    · have hpos : 0 < int.length := List.length_pos_iff.mpr hint
      exact .inr (Nat.le_of_mul_le_mul_right (by rw [hlen, Nat.one_mul]) hpos)
  · rintro (rfl | hone)
    · rw [List.flatten_eq_nil_iff]
      exact fun l hl => (List.mem_replicate.mp hl).2
    · rw [show n = 1 by omega, List.replicate_one, List.flatten_singleton]

theorem point_mem {sec : List Tok} (hdig : sec.any isDig = true)
    (hip : digs (intToks sec) = []) : .point ∈ sec := by
  by_contra hnot
  have hall : intToks sec = sec := by
    unfold intToks
    rw [List.takeWhile_eq_self_iff]
    intro t ht
    rw [decide_eq_true_eq]
    rintro rfl
    exact hnot ht
  rw [hall, digs_eq_nil_iff, hdig] at hip
  cases hip

/-- A number section lays out the digits that its number is rounded to just when
the literals' digits leave the commas where they are, and it does not repeat the
integer digits at several points. -/
theorem numberSection_iff {fl : Floats} {sec : List Tok} (hplain : sec.all isPlain = true)
    (hdig : sec.any isDig = true) {x : F64} (minus : Bool) {int frac : List Char}
    (hround : roundDigits fl (scaled fl sec x) (digs (fracToks sec)).length = .ok (int, frac)) :
    ∃ text, numberSection fl sec x minus = .ok text ∧
      (text = (if minus then ['-'] else []) ++ laidOut sec int frac ↔ Keeps sec int) := by
  obtain ⟨s, hs, hhead, hout⟩ := @place_plain sec hplain int frac (length_frac hround)
  rw [numberSection_plain hplain minus hround, hs]
  refine ⟨_, rfl, ?_⟩
  show (if minus then ['-'] else []) ++ (if groups sec then groupMixed s.head else s.head) ++
    s.out = _ ↔ _
  unfold laidOut
  rw [List.append_assoc, List.append_cancel_left_eq, hout, List.append_cancel_right_eq]
  unfold Keeps
  by_cases hip : digs (intToks sec) = []
  · have hpoints := List.count_pos_iff.mpr (point_mem hdig hip)
    have hhead' : s.head = (before (intToks sec) int).map Mark.char ++
        (List.replicate (sec.count .point) int).flatten := by
      rw [hhead, if_pos hip]
    have hmarks : (marks sec int).map Mark.char =
        (before (intToks sec) int).map Mark.char ++ int := by
      rw [marks, if_pos hip, List.map_append, map_char_number]
    have hgroups := Bool.eq_false_iff.mp (groups_of_digs_nil hip)
    rw [if_neg hgroups, if_neg hgroups, hhead', hmarks, List.append_cancel_left_eq,
      flatten_replicate_eq_iff hpoints]
    exact ⟨fun h => ⟨fun h => absurd h hgroups, fun _ => h⟩, fun h => h.2 hip⟩
  · have hmarks : s.head = (marks sec int).map Mark.char := by
      rw [hhead, marks, if_neg hip, if_neg hip, List.append_nil, List.append_nil]
    rw [hmarks]
    by_cases hgroups : groups sec = true
    · rw [if_pos hgroups, if_pos hgroups, groupMixed_eq_iff]
      exact ⟨fun h => ⟨fun _ => h, fun h => absurd h hip⟩, fun h => h.1 hgroups⟩
    · rw [if_neg hgroups, if_neg hgroups]
      exact ⟨fun _ => ⟨fun h => absurd h hgroups, fun h => absurd h hip⟩, fun _ => rfl⟩

/-- Powers by repeated multiplication. -/
def powers : Floats where
  powi b n :=
    let p := (List.replicate n.natAbs b).foldl F64.mul (.ofNat 1)
    if n < 0 then (F64.ofNat 1).div p else p
  log10 x := (fifteenDigits x).2
  toText _ := []

theorem numberSection_iff_hundredths :
    let sec := [.dig '#', .comma, .dig '0', .point, .dig '0', .dig '#', .pct]
    ∃ text, numberSection powers sec (.ofRatio false 25 2) false = .ok text ∧
      (text = [] ++ laidOut sec ['1', '2', '5', '0'] ['0', '0'] ↔ Keeps sec ['1', '2', '5', '0']) :=
  numberSection_iff (by decide) (by decide) false (by decide +kernel)

/-- A literal's digit counts as a thousands digit, which moves a comma. -/
theorem literal_digit_counts :
    let sec := [.lit ['1'], .dig '#', .comma, .dig '#', .dig '#', .dig '0']
    sections "\"1\"#,##0".toList = .ok [sec] ∧
      roundDigits powers (scaled powers sec (.ofNat 234)) 0 = .ok (['2', '3', '4'], []) ∧
      numberSection powers sec (.ofNat 234) false = .ok "1,234".toList ∧
      numberSection powers sec (.ofNat 234) false ≠ .ok (laidOut sec ['2', '3', '4'] []) := by
  decide +kernel

end Improv.Engine.Sections
