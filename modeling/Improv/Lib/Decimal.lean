import Mathlib.Data.List.TakeWhile
import Mathlib.Tactic.Ring
import Improv.Lib.Binary64
/-!
# Decimal text

Text read as a binary64 number, rounded once to the nearest, in the grammar the
standard library reads: a sign, then `inf`, `infinity` or `nan` in any case, or
digits with a point and an exponent.
-/

namespace Improv.Lib.Decimal

def isDigit (c : Char) : Bool := '0' ≤ c && c ≤ '9'

/-- The number some digits write. -/
def ofDigits (ds : List Char) : Nat := ds.foldl (fun n c => n * 10 + (c.toNat - 48)) 0

/-- The text before the first `c` and the text after it. -/
def splitOnce (c : Char) (s : List Char) : Option (List Char × List Char) :=
  let head := s.takeWhile (· ≠ c)
  match s.drop head.length with
  | [] => none
  | _ :: tail => some (head, tail)

/-- A leading sign, and what follows it. -/
def sign : List Char → Bool × List Char
  | '-' :: s => (true, s)
  | '+' :: s => (false, s)
  | s => (false, s)

/-- The exponent after the digits: none where the text ends, a failure where it
holds anything else. -/
def exponent : List Char → Option Int
  | [] => some 0
  | e :: s =>
    let (neg, ds) := sign s
    if (e = 'e' || e = 'E') && ds ≠ [] && ds.all isDigit then
      some (if neg then -(ofDigits ds : Int) else ofDigits ds)
    else none

/-- Digits with a point and an exponent. -/
def parseDigits (neg : Bool) (s : List Char) : Option F64 :=
  let int := s.takeWhile isDigit
  let rest := s.drop int.length
  let (frac, rest) :=
    match rest with
    | '.' :: tail => (tail.takeWhile isDigit, tail.dropWhile isDigit)
    | rest => ([], rest)
  if int = [] && frac = [] then none
  else
    (exponent rest).map fun e =>
      let places : Int := e - frac.length
      let digits := ofDigits (int ++ frac)
      if 0 ≤ places then F64.ofRatio neg (digits * 10 ^ places.toNat) 1
      else F64.ofRatio neg digits (10 ^ (-places).toNat)

/-- The number a text is. -/
def parseF64 (s : String) : Option F64 :=
  let (neg, body) := sign s.toList
  let word := body.map Char.toLower
  if word = "inf".toList || word = "infinity".toList then some (.inf neg)
  else if word = "nan".toList then some .nan
  else parseDigits neg body

example : parseF64 "-12.5e1" = some (F64.ofInt (-125)) := by decide +kernel

end Improv.Lib.Decimal

/-!
## Fixed-point text

A whole number of tenths to some power, printed with a point, reads back as the
double nearest to it.
-/

namespace Improv.Lib.Decimal

theorem isDigit_eq (c : Char) : isDigit c = c.isDigit := rfl

theorem ofDigits_eq (ds : List Char) : ofDigits ds = Nat.ofDigitChars 10 ds 0 := by
  unfold ofDigits
  rw [Nat.ofDigitChars_eq_foldl]
  congr 1
  funext n c
  rw [Nat.mul_comm]
  rfl

theorem ofDigits_toDigits (n : Nat) : ofDigits (Nat.toDigits 10 n) = n := by
  rw [ofDigits_eq, Nat.ofDigitChars_ten_toDigits]

theorem ofDigits_append (as bs : List Char) :
    ofDigits (as ++ bs) = ofDigits as * 10 ^ bs.length + ofDigits bs := by
  simp only [ofDigits_eq]
  rw [Nat.ofDigitChars_append, Nat.ofDigitChars_eq_ofDigitChars_zero, Nat.mul_comm]

theorem ofDigits_leftpad (k n : Nat) :
    ofDigits ((Nat.toDigits 10 n).leftpad k '0') = n := by
  unfold List.leftpad
  rw [ofDigits_append, ofDigits_toDigits, ofDigits_eq, Nat.ofDigitChars_replicate_zero]
  simp

theorem isDigit_of_mem_toDigits {n : Nat} {c : Char} (hc : c ∈ Nat.toDigits 10 n) :
    isDigit c = true := by
  rw [isDigit_eq]
  exact Nat.isDigit_of_mem_toDigits (by norm_num) (le_refl 10) hc

theorem isDigit_of_mem_leftpad {k n : Nat} {c : Char}
    (hc : c ∈ (Nat.toDigits 10 n).leftpad k '0') : isDigit c = true := by
  unfold List.leftpad at hc
  rcases List.mem_append.mp hc with hc | hc
  · rw [List.eq_of_mem_replicate hc]
    decide
  · exact isDigit_of_mem_toDigits hc

theorem length_leftpad_toDigits {k n : Nat} (hk : 0 < k) (hn : n < 10 ^ k) :
    ((Nat.toDigits 10 n).leftpad k '0').length = k := by
  unfold List.leftpad
  have hle := (Nat.length_toDigits_le_iff (by norm_num) hk).mpr hn
  rw [List.length_append, List.length_replicate, Nat.sub_add_cancel hle]

theorem toLower_of_isDigit {c : Char} (h : isDigit c = true) : c.toLower = c := by
  unfold isDigit at h
  rw [Bool.and_eq_true, decide_eq_true_eq, decide_eq_true_eq] at h
  unfold Char.toLower
  rw [dif_neg]
  intro hupper
  have hle : c.val.toNat ≤ 57 := UInt32.le_iff_toNat_le.mp h.2
  have hge : 65 ≤ c.val.toNat := UInt32.le_iff_toNat_le.mp hupper.1
  omega

theorem sign_digit {neg : Bool} {d : Char} (hd : isDigit d = true) (s : List Char) :
    sign ((if neg then ['-'] else []) ++ d :: s) = (neg, d :: s) := by
  cases neg with
  | true => rfl
  | false =>
      show sign (d :: s) = _
      unfold sign
      split
      · next heq =>
          rw [(List.cons.inj heq).1] at hd
          exact absurd hd (by decide)
      · next heq =>
          rw [(List.cons.inj heq).1] at hd
          exact absurd hd (by decide)
      · rfl

/-- A text that begins with a digit, a minus sign before it at most, is read digit by
digit. -/
theorem parseF64_digit {neg : Bool} {d : Char} (hd : isDigit d = true) (s : List Char) :
    parseF64 (.ofList ((if neg then ['-'] else []) ++ d :: s)) = parseDigits neg (d :: s) := by
  have hword : ∀ w : Char, ∀ ws : List Char, isDigit w = false →
      ((d :: s).map Char.toLower = w :: ws) = False := by
    intro w ws hw
    rw [List.map_cons, toLower_of_isDigit hd, List.cons.injEq]
    apply eq_false
    intro h
    rw [h.1, hw] at hd
    exact Bool.false_ne_true hd
  unfold parseF64
  rw [String.toList_ofList, sign_digit hd]
  simp only
  rw [show "inf".toList = ['i', 'n', 'f'] by decide,
    show "infinity".toList = ['i', 'n', 'f', 'i', 'n', 'i', 't', 'y'] by decide,
    show "nan".toList = ['n', 'a', 'n'] by decide]
  simp only [hword 'i' _ (by decide), hword 'n' _ (by decide), decide_false, Bool.or_self,
    Bool.false_eq_true, if_false]

/-- Digits, a point and digits read as the double nearest to what they say. -/
theorem parseF64_point {neg : Bool} {int frac : List Char} (hne : int ≠ [])
    (hint : ∀ c ∈ int, isDigit c = true) (hfrac : ∀ c ∈ frac, isDigit c = true) :
    parseF64 (.ofList ((if neg then ['-'] else []) ++ int ++ '.' :: frac)) =
      some (.ofRatio neg (ofDigits (int ++ frac)) (10 ^ frac.length)) := by
  obtain ⟨d, ds, rfl⟩ := List.exists_cons_of_ne_nil hne
  have hd : isDigit d = true := hint d List.mem_cons_self
  have htake : (d :: ds ++ '.' :: frac).takeWhile isDigit = d :: ds := by
    rw [List.takeWhile_append_of_pos hint, List.takeWhile_cons_of_neg (by decide),
      List.append_nil]
  have hdigits : parseDigits neg (d :: ds ++ '.' :: frac) =
      some (.ofRatio neg (ofDigits (d :: ds ++ frac)) (10 ^ frac.length)) := by
    unfold parseDigits
    have hrest : (d :: ds ++ '.' :: frac).drop (d :: ds).length = '.' :: frac :=
      List.drop_left' rfl
    have htail : frac.takeWhile isDigit = frac := List.takeWhile_eq_self_iff.mpr hfrac
    have hdrop : frac.dropWhile isDigit = [] := List.dropWhile_eq_nil_iff.mpr hfrac
    simp only [htake, hrest, htail, hdrop, reduceCtorEq, decide_false, Bool.false_and,
      Bool.false_eq_true, if_false, exponent, Option.map_some]
    by_cases hzero : frac = []
    · simp [hzero]
    · have hpos : 0 < frac.length := List.length_pos_iff.mpr hzero
      rw [if_neg (by omega)]
      congr 3
      omega
  rw [List.append_assoc, List.cons_append, parseF64_digit hd]
  exact hdigits

end Improv.Lib.Decimal
