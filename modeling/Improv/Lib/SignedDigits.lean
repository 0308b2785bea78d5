import Mathlib.Algebra.Order.Ring.Abs
import Mathlib.Data.List.DropRight
import Mathlib.Tactic.Linarith
import Mathlib.Tactic.Ring
/-!
# Signed digits

Integers written in a radix with signed digits, least significant first.  A
digit is balanced when it lies in `[-h, h)` for the radix `2 * h`; the balanced
expansion of an integer in a given number of digits is unique, and the sign of
its value is the sign of its highest nonzero digit.
-/

namespace Improv.Lib.SignedDigits

/-- The integer that digits denote in radix `R`, least significant first. -/
def ofDigits (R : Int) : List Int → Int
  | [] => 0
  | x :: xs => x + R * ofDigits R xs

@[simp] theorem ofDigits_nil (R : Int) : ofDigits R [] = 0 := rfl

@[simp] theorem ofDigits_cons (R x : Int) (xs : List Int) :
    ofDigits R (x :: xs) = x + R * ofDigits R xs := rfl

theorem ofDigits_append (R : Int) (xs ys : List Int) :
    ofDigits R (xs ++ ys) = ofDigits R xs + R ^ xs.length * ofDigits R ys := by
  induction xs with
  | nil => simp
  | cons x xs ih =>
      simp only [List.cons_append, ofDigits_cons, ih, List.length_cons]
      ring

theorem ofDigits_eq_zero {R : Int} {xs : List Int} (h : ∀ x ∈ xs, x = 0) :
    ofDigits R xs = 0 := by
  induction xs with
  | nil => rfl
  | cons x xs ih =>
      rw [ofDigits_cons, h x List.mem_cons_self, ih fun y hy => h y (List.mem_cons_of_mem _ hy)]
      ring

theorem ofDigits_map_mul (R s : Int) (xs : List Int) :
    ofDigits R (xs.map (s * ·)) = s * ofDigits R xs := by
  induction xs with
  | nil => simp
  | cons x xs ih =>
      simp only [List.map_cons, ofDigits_cons, ih]
      ring

theorem ofDigits_foldr (R : Int) (xs : List Int) :
    xs.foldr (fun x w => w * R + x) 0 = ofDigits R xs := by
  induction xs with
  | nil => rfl
  | cons x xs ih =>
      rw [List.foldr_cons, ih, ofDigits_cons]
      ring

/-- Adding to one digit adds that many of the digit's weight. -/
theorem ofDigits_set (R w : Int) {xs : List Int} {i : Nat} {x : Int} (h : xs[i]? = some x) :
    ofDigits R (xs.set i (x + w)) = ofDigits R xs + w * R ^ i := by
  induction xs generalizing i with
  | nil => simp at h
  | cons y ys ih =>
      cases i with
      | zero =>
          have hx : y = x := by simpa using h
          rw [List.set_cons_zero, ofDigits_cons, ofDigits_cons, hx]
          ring
      | succ i =>
          have htail : ys[i]? = some x := by simpa using h
          rw [List.set_cons_succ, ofDigits_cons, ih htail, ofDigits_cons]
          ring

/-! ## Bounds -/

/-- Digits of magnitude at most `m` denote at most `m` times the largest
expansion of ones. -/
theorem abs_ofDigits_mul_le {R m : Int} (hR : 1 ≤ R) {xs : List Int} (h : ∀ x ∈ xs, |x| ≤ m) :
    |ofDigits R xs| * (R - 1) ≤ m * (R ^ xs.length - 1) := by
  induction xs with
  | nil => simp
  | cons x xs ih =>
      have hx := h x List.mem_cons_self
      have hxs := ih fun y hy => h y (List.mem_cons_of_mem _ hy)
      have htri : |x + R * ofDigits R xs| ≤ m + R * |ofDigits R xs| := by
        calc |x + R * ofDigits R xs| ≤ |x| + |R * ofDigits R xs| := abs_add_le _ _
          _ = |x| + R * |ofDigits R xs| := by rw [abs_mul, abs_of_nonneg (by omega : 0 ≤ R)]
          _ ≤ m + R * |ofDigits R xs| := by omega
      rw [ofDigits_cons, List.length_cons, pow_succ]
      calc |x + R * ofDigits R xs| * (R - 1)
          ≤ (m + R * |ofDigits R xs|) * (R - 1) :=
            mul_le_mul_of_nonneg_right htri (by omega)
        _ = m * (R - 1) + R * (|ofDigits R xs| * (R - 1)) := by ring
        _ ≤ m * (R - 1) + R * (m * (R ^ xs.length - 1)) := by
            have := mul_le_mul_of_nonneg_left hxs (by omega : 0 ≤ R)
            omega
        _ = m * (R ^ xs.length * R - 1) := by ring

/-- Digits of at most `m` denote at most `m` times the largest expansion of
ones. -/
theorem ofDigits_mul_le {R m : Int} (hR : 1 ≤ R) {xs : List Int} (h : ∀ x ∈ xs, x ≤ m) :
    ofDigits R xs * (R - 1) ≤ m * (R ^ xs.length - 1) := by
  induction xs with
  | nil => simp
  | cons x xs ih =>
      have hx := h x List.mem_cons_self
      have hxs := ih fun y hy => h y (List.mem_cons_of_mem _ hy)
      rw [ofDigits_cons, List.length_cons, pow_succ]
      calc (x + R * ofDigits R xs) * (R - 1)
          = x * (R - 1) + R * (ofDigits R xs * (R - 1)) := by ring
        _ ≤ m * (R - 1) + R * (m * (R ^ xs.length - 1)) := by
            have hhead := mul_le_mul_of_nonneg_right hx (by omega : 0 ≤ R - 1)
            have htail := mul_le_mul_of_nonneg_left hxs (by omega : 0 ≤ R)
            omega
        _ = m * (R ^ xs.length * R - 1) := by ring

/-! ## Balanced digits -/

/-- A digit of the radix `2 * h` in its balanced range. -/
def Balanced (h x : Int) : Prop := -h ≤ x ∧ x < h

theorem balanced_zero {h : Int} (hh : 0 < h) : Balanced h 0 := ⟨by omega, hh⟩

theorem abs_le_of_balanced {h x : Int} (hx : Balanced h x) : |x| ≤ h :=
  abs_le.mpr ⟨hx.1, hx.2.le⟩

/-- Digits of at most half the radix denote less than the weight of the next
digit. -/
theorem abs_ofDigits_lt {h : Int} (hh : 1 ≤ h) {xs : List Int} (hx : ∀ x ∈ xs, |x| ≤ h) :
    |ofDigits (2 * h) xs| < (2 * h) ^ xs.length := by
  have hbound := abs_ofDigits_mul_le (by omega : 1 ≤ 2 * h) hx
  have hpow : 1 ≤ (2 * h) ^ xs.length := one_le_pow₀ (by omega)
  by_contra hge
  have hle : (2 * h) ^ xs.length * (2 * h - 1) ≤ |ofDigits (2 * h) xs| * (2 * h - 1) :=
    mul_le_mul_of_nonneg_right (not_lt.mp hge) (by omega)
  nlinarith

/-- Two balanced digits congruent modulo the radix are equal. -/
theorem balanced_eq {h x y a b : Int} (hx : Balanced h x) (hy : Balanced h y)
    (heq : x + 2 * h * a = y + 2 * h * b) : x = y ∧ a = b := by
  have hdiff : x - y = 2 * h * (b - a) := by linarith
  have hab : b - a = 0 := by
    obtain ⟨hx1, hx2⟩ := hx
    obtain ⟨hy1, hy2⟩ := hy
    by_contra hne
    have hcases : 1 ≤ b - a ∨ b - a ≤ -1 := by omega
    cases hcases with
    | inl hpos => nlinarith
    | inr hneg => nlinarith
  rw [hab, mul_zero] at hdiff
  omega

/-- A balanced expansion of a given length is determined by its value; its last
digit may be any integer. -/
theorem eq_of_ofDigits_eq {h : Int} {xs ys : List Int} (hlen : xs.length = ys.length)
    (hx : ∀ x ∈ xs.dropLast, Balanced h x) (hy : ∀ y ∈ ys.dropLast, Balanced h y)
    (heq : ofDigits (2 * h) xs = ofDigits (2 * h) ys) : xs = ys := by
  induction xs generalizing ys with
  | nil => exact (List.length_eq_zero_iff.mp hlen.symm).symm
  | cons x xs ih =>
      cases ys with
      | nil => simp at hlen
      | cons y ys =>
          have hlen' : xs.length = ys.length := by simpa using hlen
          rw [ofDigits_cons, ofDigits_cons] at heq
          by_cases hnil : xs = []
          · have hnil' : ys = [] := List.length_eq_zero_iff.mp (by rw [← hlen', hnil]; rfl)
            rw [hnil, hnil', ofDigits_nil] at heq
            rw [hnil, hnil']
            simpa using heq
          · have hnil' : ys ≠ [] := fun hc =>
              hnil (List.length_eq_zero_iff.mp (by rw [hlen', hc]; rfl))
            rw [List.dropLast_cons_of_ne_nil hnil] at hx
            rw [List.dropLast_cons_of_ne_nil hnil'] at hy
            have hdigit := balanced_eq (hx x List.mem_cons_self) (hy y List.mem_cons_self) heq
            rw [hdigit.1, ih hlen' (fun z hz => hx z (List.mem_cons_of_mem _ hz))
              (fun z hz => hy z (List.mem_cons_of_mem _ hz)) hdigit.2]

/-- The value of digits of at most half the radix has the sign of the highest
nonzero one. -/
theorem sign_ofDigits {h : Int} (hh : 1 ≤ h) {xs : List Int} (hx : ∀ x ∈ xs, |x| ≤ h) :
    let r := (xs.reverse.find? (· ≠ 0)).getD 0
    (r < 0 ↔ ofDigits (2 * h) xs < 0) ∧ (r = 0 ↔ ofDigits (2 * h) xs = 0) := by
  induction xs using List.reverseRecOn with
  | nil => simp
  | append_singleton xs x ih =>
      have hlow : ∀ y ∈ xs, |y| ≤ h := fun y hy => hx y (List.mem_append_left _ hy)
      rw [ofDigits_append, List.reverse_append, List.reverse_singleton, List.singleton_append,
        ofDigits_cons, ofDigits_nil, mul_zero, add_zero]
      by_cases hzero : x = 0
      · simpa [hzero] using ih hlow
      · have habs := abs_lt.mp (abs_ofDigits_lt hh hlow)
        have hpow : 0 < (2 * h) ^ xs.length := pow_pos (by omega) _
        rw [List.find?_cons_of_pos (by simpa using hzero), Option.getD_some]
        have hcases : 1 ≤ x ∨ x ≤ -1 := by omega
        cases hcases with
        | inl hpos =>
            have hsum : 0 < ofDigits (2 * h) xs + (2 * h) ^ xs.length * x := by nlinarith
            constructor <;> constructor <;> intro hc <;> omega
        | inr hneg =>
            have hsum : ofDigits (2 * h) xs + (2 * h) ^ xs.length * x < 0 := by nlinarith
            constructor <;> constructor <;> intro hc <;> omega

/-! ## Leading and trailing zeros -/

/-- Digits without the zeros at either end, and the position of the first one
left; position 0 when none is. -/
def trim (lo : Nat) (xs : List Int) : Nat × List Int :=
  let digits := (xs.dropWhile (· == 0)).rdropWhile (· == 0)
  if digits = [] then (0, []) else (lo + (xs.takeWhile (· == 0)).length, digits)

theorem trim_snd (lo : Nat) (xs : List Int) :
    (trim lo xs).2 = (xs.dropWhile (· == 0)).rdropWhile (· == 0) := by
  unfold trim
  dsimp only
  split
  · next hnil => exact hnil.symm
  · rfl

theorem dropWhile_zeros (n : Nat) (xs : List Int) :
    (List.replicate n 0 ++ xs).dropWhile (· == 0) = xs.dropWhile (· == 0) := by
  induction n with
  | zero => simp
  | succ n ih => rw [List.replicate_succ, List.cons_append, List.dropWhile_cons_of_pos (by rfl), ih]

theorem length_takeWhile_zeros (n : Nat) (xs : List Int) :
    ((List.replicate n 0 ++ xs).takeWhile (· == 0)).length =
      n + (xs.takeWhile (· == 0)).length := by
  induction n with
  | zero => simp
  | succ n ih =>
      rw [List.replicate_succ, List.cons_append, List.takeWhile_cons_of_pos (by rfl),
        List.length_cons, ih]
      omega

theorem rdropWhile_zeros (n : Nat) (xs : List Int) :
    (xs ++ List.replicate n 0).rdropWhile (· == 0) = xs.rdropWhile (· == 0) := by
  unfold List.rdropWhile
  rw [List.reverse_append, List.reverse_replicate, dropWhile_zeros]

theorem trim_replicate (lo n : Nat) : trim lo (List.replicate n 0) = (0, []) := by
  have hzeros : (List.replicate n (0 : Int)).dropWhile (· == 0) = [] := by
    rw [List.dropWhile_eq_nil_iff]
    intro x hx
    simp [List.eq_of_mem_replicate hx]
  unfold trim
  rw [hzeros]
  rfl

/-- Zeros on either side of the digits change neither what is left nor where. -/
theorem trim_pad (lo k : Nat) (xs : List Int) :
    trim 0 (List.replicate lo 0 ++ xs ++ List.replicate k 0) = trim lo xs := by
  by_cases hall : ∀ x ∈ xs, x = 0
  · have hxs : xs = List.replicate xs.length 0 := List.eq_replicate_of_mem hall
    rw [hxs, List.replicate_append_replicate, List.replicate_append_replicate, trim_replicate,
      trim_replicate]
  · have hne : xs.dropWhile (· == 0) ≠ [] := fun hc => hall fun x hx => by
      simpa using List.dropWhile_eq_nil_iff.mp hc x hx
    have hdrop : (xs ++ List.replicate k 0).dropWhile (· == 0) =
        xs.dropWhile (· == 0) ++ List.replicate k 0 := by
      rw [List.dropWhile_append, if_neg (by simpa using hne)]
    have htake : (xs ++ List.replicate k 0).takeWhile (· == 0) = xs.takeWhile (· == 0) := by
      rw [List.takeWhile_append, if_neg]
      intro hlen
      apply hne
      have hsplit := congrArg List.length
        (List.takeWhile_append_dropWhile (p := (· == 0)) (l := xs))
      rw [List.length_append] at hsplit
      exact List.length_eq_zero_iff.mp (by omega)
    unfold trim
    rw [List.append_assoc, dropWhile_zeros, length_takeWhile_zeros, hdrop, htake, rdropWhile_zeros,
      Nat.zero_add]

/-- A map that keeps zero, and only it, at zero can be made before or after. -/
theorem trim_map {f : Int → Int} (hf : ∀ x, f x = 0 ↔ x = 0) (lo : Nat) (xs : List Int) :
    trim lo (xs.map f) = ((trim lo xs).1, (trim lo xs).2.map f) := by
  have hp : ((· == 0) ∘ f : Int → Bool) = (· == 0) := by
    funext x
    simp [hf]
  have hdrop : ((xs.map f).dropWhile (· == 0)).rdropWhile (· == 0) =
      ((xs.dropWhile (· == 0)).rdropWhile (· == 0)).map f := by
    unfold List.rdropWhile
    rw [List.dropWhile_map, ← List.map_reverse, List.dropWhile_map, ← List.map_reverse, hp]
  have htake : ((xs.map f).takeWhile (· == 0)).length = (xs.takeWhile (· == 0)).length := by
    rw [List.takeWhile_map, hp, List.length_map]
  unfold trim
  simp only [hdrop, htake, List.map_eq_nil_iff]
  split
  · rfl
  · rfl

theorem mem_of_mem_trim {lo : Nat} {xs : List Int} {x : Int} (h : x ∈ (trim lo xs).2) : x ∈ xs := by
  rw [trim_snd] at h
  exact (List.dropWhile_sublist _).subset ((List.rdropWhile_prefix _ _).subset h)

theorem getLast_trim_ne_zero {lo : Nat} {xs : List Int} {x : Int}
    (h : (trim lo xs).2.getLast? = some x) : x ≠ 0 := by
  rw [trim_snd] at h
  have hne : (xs.dropWhile (· == 0)).rdropWhile (· == 0) ≠ [] := by
    intro hc
    rw [hc] at h
    simp at h
  have hlast := List.rdropWhile_last_not _ _ hne
  rw [List.getLast?_eq_some_getLast hne] at h
  rw [← Option.some.inj h]
  simpa using hlast

/-- What trimming takes away is zeros on either side. -/
theorem exists_trim (lo : Nat) (xs : List Int) (hne : (trim lo xs).2 ≠ []) :
    ∃ n k, xs = List.replicate n 0 ++ (trim lo xs).2 ++ List.replicate k 0 ∧
      (trim lo xs).1 = lo + n := by
  refine ⟨(xs.takeWhile (· == 0)).length, ((xs.dropWhile (· == 0)).rtakeWhile (· == 0)).length,
    ?_, ?_⟩
  · have hfront : xs.takeWhile (· == 0) = List.replicate (xs.takeWhile (· == 0)).length 0 :=
      List.eq_replicate_of_mem fun x hx => by simpa using List.mem_takeWhile_imp hx
    have hback : (xs.dropWhile (· == 0)).rtakeWhile (· == 0) =
        List.replicate ((xs.dropWhile (· == 0)).rtakeWhile (· == 0)).length 0 :=
      List.eq_replicate_of_mem fun x hx => by simpa using List.mem_rtakeWhile_imp hx
    rw [← hfront, ← hback, trim_snd, List.append_assoc, List.rdropWhile_append_rtakeWhile,
      List.takeWhile_append_dropWhile]
  · rw [trim_snd] at hne
    unfold trim
    rw [if_neg hne]

/-- Trimming keeps the value the digits have at their position. -/
theorem ofDigits_trim (R : Int) (lo : Nat) (xs : List Int) :
    R ^ (trim lo xs).1 * ofDigits R (trim lo xs).2 = R ^ lo * ofDigits R xs := by
  have hzeros : ∀ n, ofDigits R (List.replicate n 0) = 0 := fun n =>
    ofDigits_eq_zero fun x hx => List.eq_of_mem_replicate hx
  by_cases hnil : (trim lo xs).2 = []
  · have hxs : ∀ x ∈ xs, x = 0 := by
      intro x hx
      rw [trim_snd, List.rdropWhile_eq_nil_iff] at hnil
      rw [← List.takeWhile_append_dropWhile (p := (· == 0)) (l := xs), List.mem_append] at hx
      cases hx with
      | inl hfront => simpa using List.mem_takeWhile_imp hfront
      | inr hback => simpa using hnil x hback
    rw [hnil, ofDigits_nil, ofDigits_eq_zero hxs, mul_zero, mul_zero]
  · obtain ⟨n, k, hxs, hlo⟩ := exists_trim lo xs hnil
    have hval : ofDigits R xs = R ^ n * ofDigits R (trim lo xs).2 := by
      conv_lhs => rw [hxs]
      rw [List.append_assoc, ofDigits_append, ofDigits_append, hzeros, hzeros,
        List.length_replicate]
      ring
    rw [hval, hlo, pow_add]
    ring

theorem length_trim_le (lo : Nat) (xs : List Int) (hne : (trim lo xs).2 ≠ []) :
    (trim lo xs).1 + (trim lo xs).2.length ≤ lo + xs.length := by
  obtain ⟨n, k, hxs, hlo⟩ := exists_trim lo xs hne
  have hlen := congrArg List.length hxs
  rw [List.length_append, List.length_append, List.length_replicate, List.length_replicate] at hlen
  omega

end Improv.Lib.SignedDigits
