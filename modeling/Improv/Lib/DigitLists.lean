import Mathlib.Data.List.Basic
import Mathlib.Data.List.Induction
import Mathlib.Tactic.Linarith
import Mathlib.Tactic.Ring
import Improv.Lib.Decimal
/-!
# Lists of decimal digits

The number some decimal digits write, the first of them weighing most: cutting
digits off divides, counting one up carries through nines, and the digits of a
number without leading zeros are its text.
-/

namespace Improv.Lib.DigitLists

/-- The number some digits write. -/
def number (ds : List Nat) : Nat := ds.foldl (fun n d => n * 10 + d) 0

/-- Every element is a decimal digit. -/
def Digits (ds : List Nat) : Prop := ∀ d ∈ ds, d < 10

@[simp] theorem number_nil : number [] = 0 := rfl

theorem foldl_number (n : Nat) (ds : List Nat) :
    ds.foldl (fun n d => n * 10 + d) n = n * 10 ^ ds.length + number ds := by
  unfold number
  induction ds generalizing n with
  | nil => simp
  | cons d ds ih =>
      rw [List.foldl_cons, List.foldl_cons, ih, ih (0 * 10 + d), List.length_cons, pow_succ]
      ring

@[simp] theorem number_cons (d : Nat) (ds : List Nat) :
    number (d :: ds) = d * 10 ^ ds.length + number ds := by
  unfold number
  rw [List.foldl_cons, Nat.zero_mul, Nat.zero_add]
  exact foldl_number d ds

theorem number_append (as bs : List Nat) :
    number (as ++ bs) = number as * 10 ^ bs.length + number bs := by
  unfold number
  rw [List.foldl_append]
  exact foldl_number _ bs

theorem number_replicate_zero (k : Nat) : number (List.replicate k 0) = 0 := by
  induction k with
  | zero => rfl
  | succ k ih => rw [List.replicate_succ, number_cons, ih, Nat.zero_mul]

theorem number_replicate_nine (k : Nat) : number (List.replicate k 9) + 1 = 10 ^ k := by
  induction k with
  | zero => rfl
  | succ k ih =>
      rw [List.replicate_succ, number_cons, List.length_replicate, pow_succ]
      omega

theorem Digits.of_cons {d : Nat} {ds : List Nat} (h : Digits (d :: ds)) : Digits ds :=
  fun x hx => h x (List.mem_cons_of_mem d hx)

theorem Digits.append {as bs : List Nat} (ha : Digits as) (hb : Digits bs) :
    Digits (as ++ bs) := by
  intro d hd
  cases List.mem_append.mp hd with
  | inl hmem => exact ha d hmem
  | inr hmem => exact hb d hmem

theorem digits_replicate {d : Nat} (h : d < 10) (k : Nat) : Digits (List.replicate k d) := by
  intro x hx
  rw [List.eq_of_mem_replicate hx]
  exact h

theorem number_lt {ds : List Nat} (h : Digits ds) : number ds < 10 ^ ds.length := by
  induction ds with
  | nil => exact Nat.one_pos
  | cons d ds ih =>
      have hd := h d List.mem_cons_self
      have hrest := ih h.of_cons
      rw [number_cons, List.length_cons, pow_succ]
      have hmul : d * 10 ^ ds.length ≤ 9 * 10 ^ ds.length := Nat.mul_le_mul_right _ (by omega)
      omega

/-- Cutting digits off divides by their power of ten. -/
theorem number_take_drop {as bs : List Nat} (hb : Digits bs) :
    number (as ++ bs) / 10 ^ bs.length = number as ∧
      number (as ++ bs) % 10 ^ bs.length = number bs := by
  have hlt := number_lt hb
  have hpos : 0 < 10 ^ bs.length := Nat.pow_pos (by norm_num)
  rw [number_append, Nat.mul_comm]
  exact ⟨by rw [Nat.mul_add_div hpos, Nat.div_eq_of_lt hlt, Nat.add_zero],
    by rw [Nat.mul_add_mod, Nat.mod_eq_of_lt hlt]⟩

/-- Whether what is cut off is at least half is its first digit's to say. -/
theorem half_le_number_iff {d : Nat} {ds : List Nat} (h : Digits (d :: ds)) :
    10 ^ (ds.length + 1) ≤ 2 * number (d :: ds) ↔ 5 ≤ d := by
  have hlt := number_lt h.of_cons
  rw [number_cons, pow_succ]
  constructor
  · intro hle
    by_contra hlow
    have hmul : d * 10 ^ ds.length ≤ 4 * 10 ^ ds.length := Nat.mul_le_mul_right _ (by omega)
    omega
  · intro hle
    have hmul : 5 * 10 ^ ds.length ≤ d * 10 ^ ds.length := Nat.mul_le_mul_right _ hle
    omega

theorem number_eq_zero_iff {ds : List Nat} : number ds = 0 ↔ ∀ d ∈ ds, d = 0 := by
  induction ds with
  | nil => simp
  | cons d ds ih =>
      have hpow : 0 < 10 ^ ds.length := Nat.pow_pos (by norm_num)
      rw [number_cons, Nat.add_eq_zero_iff, Nat.mul_eq_zero, ih, List.forall_mem_cons]
      exact and_congr_left fun _ => or_iff_left hpow.ne'

/-- Zeros in front change nothing. -/
theorem number_zeros_append (k : Nat) (ds : List Nat) :
    number (List.replicate k 0 ++ ds) = number ds := by
  rw [number_append, number_replicate_zero, Nat.zero_mul, Nat.zero_add]

/-! ## Rounding -/

/-- A quotient rounded to a whole number, half away from zero. -/
def halfAway (num den : Nat) : Nat := (2 * num + den) / (2 * den)

theorem halfAway_eq {num den q r : Nat} (hr : r < den) (h : num = q * den + r) :
    halfAway num den = if den ≤ 2 * r then q + 1 else q := by
  unfold halfAway
  have hden : 0 < 2 * den := by omega
  by_cases hup : den ≤ 2 * r
  · rw [if_pos hup]
    apply Nat.div_eq_of_lt_le
    · rw [h]
      linarith
    · rw [h]
      linarith
  · rw [if_neg hup]
    apply Nat.div_eq_of_lt_le
    · rw [h]
      linarith
    · rw [h]
      linarith

theorem halfAway_mul_right {num den k : Nat} (hk : 0 < k) :
    halfAway (num * k) (den * k) = halfAway num den := by
  unfold halfAway
  rw [← mul_assoc, ← mul_assoc, ← Nat.add_mul, Nat.mul_div_mul_right _ _ hk]

/-! ## As text -/

theorem digitChar_eq {d : Nat} (h : d < 10) : (Nat.digitChar d).toNat - 48 = d ∧
    Decimal.isDigit (Nat.digitChar d) = true := by
  have hall : ∀ d < 10, (Nat.digitChar d).toNat - 48 = d ∧
      Decimal.isDigit (Nat.digitChar d) = true := by decide
  exact hall d h

theorem ofDigits_map_digitChar {ds : List Nat} (h : Digits ds) :
    Decimal.ofDigits (ds.map Nat.digitChar) = number ds := by
  unfold Decimal.ofDigits number
  rw [List.foldl_map]
  apply List.foldl_ext _ _ 0
  intro n d hd
  rw [(digitChar_eq (h d hd)).1]

theorem isDigit_of_mem_map {ds : List Nat} (h : Digits ds) :
    ∀ c ∈ ds.map Nat.digitChar, Decimal.isDigit c = true := by
  intro c hc
  obtain ⟨d, hd, rfl⟩ := List.mem_map.mp hc
  exact (digitChar_eq (h d hd)).2

/-- Digits without a leading zero are the text of their number. -/
theorem map_digitChar_eq_toDigits {d : Nat} {ds : List Nat} (h : Digits (d :: ds))
    (hlead : d ≠ 0 ∨ ds = []) :
    (d :: ds).map Nat.digitChar = Nat.toDigits 10 (number (d :: ds)) := by
  induction ds using List.reverseRecOn with
  | nil =>
      have hd := h d List.mem_cons_self
      rw [number_cons, List.length_nil, pow_zero, mul_one, number_nil, Nat.add_zero,
        Nat.toDigits_of_lt_base hd]
      rfl
  | append_singleton ds e ih =>
      have hne : d ≠ 0 := hlead.resolve_right (by simp)
      have he : e < 10 := h e (by simp)
      have hrest : Digits (d :: ds) := fun x hx => h x (by
        cases List.mem_cons.mp hx with
        | inl heq => rw [heq]; exact List.mem_cons_self
        | inr hmem => exact List.mem_cons_of_mem d (List.mem_append_left [e] hmem))
      have hpos : 0 < number (d :: ds) := by
        have hpow : 0 < 10 ^ ds.length := Nat.pow_pos (by norm_num)
        have hmul := Nat.mul_pos (Nat.pos_of_ne_zero hne) hpow
        rw [number_cons]
        omega
      have hnumber : number (d :: (ds ++ [e])) = 10 * number (d :: ds) + e := by
        rw [← List.cons_append, number_append, List.length_singleton, pow_one, Nat.mul_comm]
        simp
      rw [hnumber, ← Nat.toDigits_append_toDigits (by norm_num) hpos he,
        ← ih hrest (Or.inl hne), Nat.toDigits_of_lt_base he]
      simp

/-- Some digits are the text of their number, padded to as many. -/
theorem map_digitChar_eq_leftpad {ds : List Nat} (h : Digits ds) (hne : ds ≠ []) :
    ds.map Nat.digitChar = (Nat.toDigits 10 (number ds)).leftpad ds.length '0' := by
  induction ds with
  | nil => exact absurd rfl hne
  | cons d ds ih =>
      by_cases hlead : d ≠ 0 ∨ ds = []
      · rw [← map_digitChar_eq_toDigits h hlead]
        unfold List.leftpad
        rw [List.length_map, Nat.sub_self, List.replicate_zero, List.nil_append]
      · have hd : d = 0 := not_ne_iff.mp fun hne => hlead (Or.inl hne)
        have hrest : ds ≠ [] := fun hnil => hlead (Or.inr hnil)
        have hlen : (Nat.toDigits 10 (number ds)).length ≤ ds.length :=
          (Nat.length_toDigits_le_iff (by norm_num) (List.length_pos_iff.mpr hrest)).mpr
            (number_lt h.of_cons)
        have hsucc : ds.length + 1 - (Nat.toDigits 10 (number ds)).length =
            ds.length - (Nat.toDigits 10 (number ds)).length + 1 := by omega
        rw [List.map_cons, ih h.of_cons hrest, hd, number_cons, Nat.zero_mul, Nat.zero_add]
        unfold List.leftpad
        rw [List.length_cons, hsucc, List.replicate_succ]
        rfl

/-- Digits from the first that is not zero, or the last, are the number's text. -/
theorem drop_leadingZeros {ds : List Nat} (h : Digits ds) (hne : ds ≠ []) :
    (ds.drop ((ds.findIdx? (· ≠ 0)).getD (ds.length - 1))).map Nat.digitChar =
      Nat.toDigits 10 (number ds) := by
  induction ds with
  | nil => exact absurd rfl hne
  | cons d ds ih =>
      by_cases hd : d = 0
      · by_cases hnil : ds = []
        · rw [hnil, hd]
          rfl
        · have hpos : 0 < ds.length := List.length_pos_iff.mpr hnil
          have hlead : ((d :: ds).findIdx? (· ≠ 0)).getD ((d :: ds).length - 1) =
              (ds.findIdx? (· ≠ 0)).getD (ds.length - 1) + 1 := by
            rw [List.findIdx?_cons, if_neg (by simp [hd])]
            cases ds.findIdx? (· ≠ 0) with
            | none =>
                simp only [Option.map_none, Option.getD_none, List.length_cons]
                omega
            | some i => rfl
          rw [hlead, List.drop_succ_cons, ih h.of_cons hnil, number_cons, hd, Nat.zero_mul,
            Nat.zero_add]
      · have hlead : (d :: ds).findIdx? (· ≠ 0) = some 0 := by
          rw [List.findIdx?_cons, if_pos (by simp [hd])]
        rw [hlead, Option.getD_some, List.drop_zero]
        exact map_digitChar_eq_toDigits h (Or.inl hd)

end Improv.Lib.DigitLists
