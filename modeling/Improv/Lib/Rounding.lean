import Improv.Lib.Binary64
import Mathlib.Tactic.Linarith
import Mathlib.Tactic.Ring
/-!
# Rounding to a double

Facts about rounding a whole number of units to 53 significant bits, ties to
even: the result is the nearest such number, scaling by a power of two
commutes with rounding, and the bits far below the last place can be replaced
by one sticky bit before rounding.
-/

namespace Improv.Lib.F64

/-! ## Rounding a quotient -/

/-- `n / s` to the nearest whole number, ties to even. -/
def evenQuotient (n s : Nat) : Nat :=
  if s < 2 * (n % s) ∨ (2 * (n % s) = s ∧ n / s % 2 = 1) then n / s + 1 else n / s

theorem evenQuotient_mul_right {n s k : Nat} (hk : 0 < k) :
    evenQuotient (n * k) (s * k) = evenQuotient n s := by
  unfold evenQuotient
  simp only [Nat.mul_mod_mul_right, Nat.mul_div_mul_right _ _ hk, ← mul_assoc,
    Nat.mul_lt_mul_right hk, Nat.mul_left_inj (by omega : k ≠ 0)]

theorem evenQuotient_mul_self {n s : Nat} (hs : 0 < s) : evenQuotient (n * s) s = n := by
  unfold evenQuotient
  rw [Nat.mul_mod_left, Nat.mul_div_cancel _ hs, if_neg (by omega)]

/-- Setting the lowest bit. -/
theorem or_one (q : Nat) : q ||| 1 = 2 * (q / 2) + 1 := by
  have hdiv : (q ||| 1) / 2 = q / 2 := by
    rw [Nat.or_div_two, show (1 : Nat) / 2 = 0 from rfl, Nat.or_zero]
  have hmod : (q ||| 1) % 2 = 1 := by
    rw [Nat.or_mod_two_eq_one]
    exact Or.inr rfl
  omega

theorem evenQuotient_of_split {n s q r : Nat} (hr : r < s) (hn : n = s * q + r) :
    evenQuotient n s = if s < 2 * r ∨ (2 * r = s ∧ q % 2 = 1) then q + 1 else q := by
  have hpos : 0 < s := by omega
  have hdiv : n / s = q := by rw [hn, Nat.mul_add_div hpos, Nat.div_eq_of_lt hr, add_zero]
  have hmod : n % s = r := by rw [hn, Nat.mul_add_mod, Nat.mod_eq_of_lt hr]
  unfold evenQuotient
  rw [hdiv, hmod]

/-- The bits below a multiple of four places can be gathered in one sticky
bit. -/
theorem evenQuotient_sticky {q t r c : Nat} (hr : r < t) (hc : 4 ∣ c) (hpos : 0 < c) :
    evenQuotient (q * t + r) (c * t) = evenQuotient (q ||| (if r = 0 then 0 else 1)) c := by
  obtain ⟨h, hh⟩ : ∃ h, c = 4 * h := hc
  obtain ⟨a, b, hb, hq⟩ : ∃ a b, b < c ∧ q = c * a + b :=
    ⟨q / c, q % c, Nat.mod_lt _ hpos, (Nat.div_add_mod q c).symm⟩
  have hrest : b * t + r < c * t := by
    calc b * t + r < b * t + t := by omega
      _ = (b + 1) * t := by ring
      _ ≤ c * t := Nat.mul_le_mul_right _ hb
  have hsplit : q * t + r = c * t * a + (b * t + r) := by
    rw [hq]
    ring
  rw [evenQuotient_of_split hrest hsplit]
  by_cases hzero : r = 0
  · rw [if_pos hzero, Nat.or_zero, evenQuotient_of_split hb hq, hzero, add_zero]
    have ht : 0 < t := by omega
    simp only [← mul_assoc, Nat.mul_lt_mul_right ht, Nat.mul_left_inj (by omega : t ≠ 0)]
  · -- a remainder strictly inside a place: never a tie, and above half from `c / 2` on
    rw [if_neg hzero, or_one]
    have hsticky : 2 * (q / 2) + 1 = c * a + (2 * (b / 2) + 1) := by
      rw [hq, hh, show 4 * h * a = 2 * (2 * h * a) by ring]
      omega
    rw [evenQuotient_of_split (by omega) hsticky]
    have hiff : (c * t < 2 * (b * t + r) ∨ 2 * (b * t + r) = c * t ∧ a % 2 = 1) ↔
        2 * h ≤ b := by
      constructor
      · intro hup
        by_contra hlt
        have hle : (b + 1) * t ≤ 2 * h * t := Nat.mul_le_mul_right _ (by omega)
        rw [hh] at hup
        have heq : 4 * h * t = 2 * (2 * h * t) := by ring
        rw [add_mul, one_mul] at hle
        omega
      · intro hle
        have hmul : 2 * h * t ≤ b * t := Nat.mul_le_mul_right _ hle
        have heq : c * t = 2 * (2 * h * t) := by rw [hh]; ring
        omega
    have hiff' : (c < 2 * (2 * (b / 2) + 1) ∨ 2 * (2 * (b / 2) + 1) = c ∧ a % 2 = 1) ↔
        2 * h ≤ b := by omega
    simp only [hiff, hiff']

/-! ## Numbers of 53 significant bits -/

/-- At most 53 significant bits. -/
def Significand (x : Nat) : Prop := ∃ m k, m < 2 ^ 53 ∧ x = m * 2 ^ k

theorem roundUnits_one (n : Nat) :
    roundUnits n 1 = evenQuotient n (2 ^ (n.log2 - 52)) * 2 ^ (n.log2 - 52) := by
  unfold roundUnits evenQuotient
  simp only [Nat.div_one, one_mul, Bool.or_eq_true, decide_eq_true_eq, Bool.and_eq_true,
    beq_iff_eq]

theorem roundUnits_mul_den {n den : Nat} (hden : 0 < den) :
    roundUnits (n * den) den = roundUnits n 1 := by
  rw [roundUnits_one, ← evenQuotient_mul_right hden]
  unfold roundUnits evenQuotient
  simp only [Nat.mul_div_cancel _ hden, Bool.or_eq_true, decide_eq_true_eq, Bool.and_eq_true,
    beq_iff_eq, mul_comm]

/-- A common factor does not change a rounded quotient. -/
theorem roundUnits_mul_right {n den k : Nat} (hk : 0 < k) :
    roundUnits (n * k) (den * k) = roundUnits n den := by
  have hscale : ∀ scale : Nat, den * k * scale = den * scale * k := fun scale => by ring
  unfold roundUnits
  simp only [Nat.mul_div_mul_right _ _ hk, hscale, Nat.mul_mod_mul_right, ← mul_assoc]
  simp only [Nat.mul_lt_mul_right hk, Bool.or_eq_true, decide_eq_true_eq, Bool.and_eq_true,
    beq_iff_eq, Nat.mul_left_inj hk.ne']

theorem log2_eq {n k : Nat} (hlow : 2 ^ k ≤ n) (hhigh : n < 2 ^ (k + 1)) : n.log2 = k :=
  (Nat.log2_eq_iff (by have := Nat.two_pow_pos k; omega)).mpr ⟨hlow, hhigh⟩

theorem log2_mul_add {n k r : Nat} (hn : n ≠ 0) (hr : r < 2 ^ k) :
    (n * 2 ^ k + r).log2 = n.log2 + k := by
  have hlow := Nat.log2_self_le hn
  have hhigh := @Nat.lt_log2_self n
  apply log2_eq
  · calc 2 ^ (n.log2 + k) = 2 ^ n.log2 * 2 ^ k := pow_add _ _ _
      _ ≤ n * 2 ^ k := Nat.mul_le_mul_right _ hlow
      _ ≤ n * 2 ^ k + r := Nat.le_add_right _ _
  · calc n * 2 ^ k + r < n * 2 ^ k + 2 ^ k := by omega
      _ = (n + 1) * 2 ^ k := by ring
      _ ≤ 2 ^ (n.log2 + 1) * 2 ^ k := Nat.mul_le_mul_right _ hhigh
      _ = 2 ^ (n.log2 + k + 1) := by rw [← pow_add]; congr 1; omega

theorem log2_mul_pow {n k : Nat} (hn : n ≠ 0) : (n * 2 ^ k).log2 = n.log2 + k := by
  have h := @log2_mul_add n k 0 hn (Nat.two_pow_pos k)
  rwa [add_zero] at h

theorem log2_lt_of_lt {n k : Nat} (h : n < 2 ^ (k + 1)) : n.log2 ≤ k := by
  by_cases hn : n = 0
  · rw [hn]
    exact Nat.zero_le _
  · by_contra hlt
    have hpow : 2 ^ (k + 1) ≤ 2 ^ n.log2 := Nat.pow_le_pow_right (by omega) (by omega)
    have hle := Nat.log2_self_le hn
    omega

theorem le_log2_of_le {n k : Nat} (h : 2 ^ k ≤ n) : k ≤ n.log2 :=
  (Nat.le_log2 (by have := Nat.two_pow_pos k; omega)).mpr h

theorem Significand.dvd {x : Nat} (h : Significand x) : 2 ^ (x.log2 - 52) ∣ x := by
  obtain ⟨m, k, hm, rfl⟩ := h
  by_cases hzero : m = 0
  · simp [hzero]
  · have hlog := @log2_lt_of_lt m 52 hm
    rw [log2_mul_pow hzero]
    exact Dvd.dvd.mul_left (pow_dvd_pow _ (by omega)) _

theorem significand_iff {x : Nat} : Significand x ↔ 2 ^ (x.log2 - 52) ∣ x := by
  constructor
  · exact Significand.dvd
  · intro h
    refine ⟨x / 2 ^ (x.log2 - 52), x.log2 - 52, ?_, (Nat.div_mul_cancel h).symm⟩
    rw [Nat.div_lt_iff_lt_mul (Nat.two_pow_pos _), ← pow_add]
    calc x < 2 ^ (x.log2 + 1) := Nat.lt_log2_self
      _ ≤ 2 ^ (53 + (x.log2 - 52)) := Nat.pow_le_pow_right (by omega) (by omega)

theorem representable_iff {x : Nat} : representable x = true ↔ x < 2 ^ 2098 ∧ Significand x := by
  unfold representable
  rw [Bool.and_eq_true, decide_eq_true_eq, decide_eq_true_eq]
  exact and_congr_right fun _ => by rw [significand_iff, Nat.dvd_iff_mod_eq_zero]

theorem significand_of_lt {x : Nat} (h : x < 2 ^ 53) : Significand x :=
  ⟨x, 0, h, by omega⟩

theorem Significand.mul_pow {x : Nat} (h : Significand x) (j : Nat) :
    Significand (x * 2 ^ j) := by
  obtain ⟨m, k, hm, rfl⟩ := h
  exact ⟨m, k + j, hm, by ring⟩

/-! ## Rounding -/

/-- A number of 53 significant bits is its own rounding. -/
theorem roundUnits_of_significand {x : Nat} (h : Significand x) : roundUnits x 1 = x := by
  obtain ⟨q, hq⟩ := h.dvd
  rw [roundUnits_one]
  generalize 2 ^ (x.log2 - 52) = s at hq ⊢
  by_cases hs : s = 0
  · rw [hq, hs]
    omega
  · rw [hq, mul_comm s q, evenQuotient_mul_self (by omega)]

theorem evenQuotient_le (n s : Nat) : evenQuotient n s ≤ n / s + 1 := by
  unfold evenQuotient
  split <;> omega

theorem significand_roundUnits (n : Nat) : Significand (roundUnits n 1) := by
  rw [roundUnits_one]
  have hquot : evenQuotient n (2 ^ (n.log2 - 52)) ≤ 2 ^ 53 := by
    have hdiv : n / 2 ^ (n.log2 - 52) < 2 ^ 53 := by
      rw [Nat.div_lt_iff_lt_mul (Nat.two_pow_pos _), ← pow_add]
      calc n < 2 ^ (n.log2 + 1) := Nat.lt_log2_self
        _ ≤ 2 ^ (53 + (n.log2 - 52)) := Nat.pow_le_pow_right (by omega) (by omega)
    have hle := evenQuotient_le n (2 ^ (n.log2 - 52))
    omega
  by_cases hlt : evenQuotient n (2 ^ (n.log2 - 52)) < 2 ^ 53
  · exact ⟨_, _, hlt, rfl⟩
  · refine ⟨1, 53 + (n.log2 - 52), by norm_num, ?_⟩
    rw [show evenQuotient n (2 ^ (n.log2 - 52)) = 2 ^ 53 by omega]
    ring

/-- Rounding commutes with scaling by a power of two. -/
theorem roundUnits_mul_pow (n k : Nat) : roundUnits (n * 2 ^ k) 1 = roundUnits n 1 * 2 ^ k := by
  by_cases hsmall : n < 2 ^ 53
  · have hn := significand_of_lt hsmall
    rw [roundUnits_of_significand hn, roundUnits_of_significand (hn.mul_pow k)]
  · have hpos : n ≠ 0 := by omega
    have hlog : 53 ≤ n.log2 := le_log2_of_le (not_lt.mp hsmall)
    rw [roundUnits_one, roundUnits_one, log2_mul_pow hpos,
      show n.log2 + k - 52 = (n.log2 - 52) + k by omega, pow_add,
      evenQuotient_mul_right (Nat.two_pow_pos k), mul_assoc]

/-- Before rounding, what is left below `t` places can be one sticky bit, when
at least two places above it are rounded away too. -/
theorem roundUnits_sticky {q t r : Nat} (hq : 2 ^ 54 ≤ q) (hr : r < 2 ^ t) :
    roundUnits (q * 2 ^ t + r) 1 = roundUnits (q ||| (if r = 0 then 0 else 1)) 1 * 2 ^ t := by
  have hpos : q ≠ 0 := by omega
  have hlog : 54 ≤ q.log2 := le_log2_of_le hq
  have hstickyLog : (q ||| (if r = 0 then 0 else 1)).log2 = q.log2 := by
    split
    · rw [Nat.or_zero]
    · have hlow := Nat.log2_self_le hpos
      have hhigh := @Nat.lt_log2_self q
      have hpow : 2 ^ (q.log2 + 1) = 2 * 2 ^ q.log2 := by ring
      have heven : 2 ^ q.log2 = 2 * 2 ^ (q.log2 - 1) := by rw [← pow_succ']; congr 1; omega
      rw [or_one]
      apply log2_eq <;> omega
  have hfour : 4 ∣ 2 ^ (q.log2 - 52) := by
    have h4 : (2 : Nat) ^ 2 ∣ 2 ^ (q.log2 - 52) := pow_dvd_pow _ (by omega)
    simpa using h4
  rw [roundUnits_one, roundUnits_one, log2_mul_add hpos hr, hstickyLog,
    show q.log2 + t - 52 = (q.log2 - 52) + t by omega, pow_add,
    evenQuotient_sticky hr hfour (Nat.two_pow_pos _), mul_assoc]

/-! ## Nearest -/

/-- How far apart two magnitudes are. -/
def distance (n r : Nat) : Nat := (n - r) + (r - n)

/-- `r` has 53 significant bits and no such number is nearer to `n`; one as
near is odd in the last place and `r` is even. -/
def NearestEven (n r : Nat) : Prop :=
  Significand r ∧ ∀ y, Significand y → y ≠ r →
    distance n r < distance n y ∨
      (distance n r = distance n y ∧ r / 2 ^ (n.log2 - 52) % 2 = 0)

theorem distance_of_le {n r : Nat} (h : r ≤ n) : distance n r = n - r := by
  unfold distance
  omega

theorem distance_of_ge {n r : Nat} (h : n ≤ r) : distance n r = r - n := by
  unfold distance
  omega

/-- The rounded quotient is the nearest multiple, even on a tie. -/
theorem distance_evenQuotient_mul {n s k : Nat} (hs : 0 < s) (hk : k ≠ evenQuotient n s) :
    distance n (evenQuotient n s * s) < distance n (k * s) ∨
      (distance n (evenQuotient n s * s) = distance n (k * s) ∧ evenQuotient n s % 2 = 0) := by
  have hn := Nat.div_add_mod' n s
  have hr := Nat.mod_lt n hs
  have hsucc : (n / s + 1) * s = n / s * s + s := by ring
  have hbelow : ∀ j, j ≤ n / s → j * s ≤ n / s * s := fun j hj => Nat.mul_le_mul_right _ hj
  have habove : ∀ j, n / s + 1 ≤ j → n / s * s + s ≤ j * s := fun j hj =>
    hsucc ▸ Nat.mul_le_mul_right _ hj
  unfold evenQuotient at hk ⊢
  split at hk
  · next hup =>
      rw [if_pos hup, hsucc, distance_of_ge (by omega)]
      by_cases hlow : k ≤ n / s
      · have hle := hbelow k hlow
        rw [distance_of_le (by omega)]
        omega
      · have hle : (n / s + 2) * s ≤ k * s := Nat.mul_le_mul_right _ (by omega)
        have hsum : (n / s + 2) * s = n / s * s + 2 * s := by ring
        rw [distance_of_ge (by omega)]
        omega
  · next hup =>
      rw [if_neg hup, distance_of_le (by omega)]
      by_cases hlow : k < n / s
      · have hle : (k + 1) * s ≤ n / s * s := Nat.mul_le_mul_right _ hlow
        have hsum : (k + 1) * s = k * s + s := by ring
        rw [distance_of_le (by omega)]
        omega
      · have hle := habove k (by omega)
        rw [distance_of_ge (by omega)]
        omega

/-- Rounding gives the nearest number of 53 significant bits, ties to even. -/
theorem nearestEven_roundUnits (n : Nat) : NearestEven n (roundUnits n 1) := by
  refine ⟨significand_roundUnits n, fun y hy hne => ?_⟩
  by_cases hsmall : n < 2 ^ 53
  · rw [roundUnits_of_significand (significand_of_lt hsmall)] at hne ⊢
    left
    unfold distance
    omega
  · have hpos : n ≠ 0 := by omega
    have hscale := Nat.two_pow_pos (n.log2 - 52)
    have heven : evenQuotient n (2 ^ (n.log2 - 52)) * 2 ^ (n.log2 - 52) / 2 ^ (n.log2 - 52) =
        evenQuotient n (2 ^ (n.log2 - 52)) := Nat.mul_div_cancel _ hscale
    have hmultiple : ∀ k, k * 2 ^ (n.log2 - 52) ≠ roundUnits n 1 →
        distance n (roundUnits n 1) < distance n (k * 2 ^ (n.log2 - 52)) ∨
          (distance n (roundUnits n 1) = distance n (k * 2 ^ (n.log2 - 52)) ∧
            roundUnits n 1 / 2 ^ (n.log2 - 52) % 2 = 0) := by
      intro k hk
      rw [roundUnits_one] at hk ⊢
      rw [heven]
      exact distance_evenQuotient_mul hscale fun hc => hk (by rw [hc])
    by_cases hlog : n.log2 ≤ y.log2
    · have hdvd : 2 ^ (n.log2 - 52) ∣ y := (pow_dvd_pow 2 (by omega)).trans hy.dvd
      obtain ⟨k, hk⟩ := hdvd
      rw [mul_comm] at hk
      rw [hk] at hne ⊢
      exact hmultiple k hne
    · -- below the binade of `n`, whose least number is nearer and a multiple of the place
      have hlow := Nat.log2_self_le hpos
      have hyLow : y < 2 ^ n.log2 := by
        calc y < 2 ^ (y.log2 + 1) := Nat.lt_log2_self
          _ ≤ 2 ^ n.log2 := Nat.pow_le_pow_right (by omega) (by omega)
      have hlog53 : 53 ≤ n.log2 := le_log2_of_le (not_lt.mp hsmall)
      have hleast : 2 ^ 52 * 2 ^ (n.log2 - 52) = 2 ^ n.log2 := by
        rw [← pow_add]
        congr 1
        omega
      left
      have hcloser : distance n (2 ^ n.log2) < distance n y := by
        rw [distance_of_le hlow, distance_of_le (by omega)]
        omega
      by_cases heq : 2 ^ n.log2 = roundUnits n 1
      · rwa [← heq]
      · have h := hmultiple (2 ^ 52) (by rwa [hleast])
        rw [hleast] at h
        omega

theorem roundUnits_le {n y : Nat} (hy : Significand y) (h : n ≤ y) : roundUnits n 1 ≤ y := by
  by_contra hlt
  have hnear := (nearestEven_roundUnits n).2 y hy (by omega)
  rw [distance_of_ge (by omega), distance_of_ge h] at hnear
  omega

theorem le_roundUnits {n y : Nat} (hy : Significand y) (h : y ≤ n) : y ≤ roundUnits n 1 := by
  by_contra hlt
  have hnear := (nearestEven_roundUnits n).2 y hy (by omega)
  rw [distance_of_le (by omega), distance_of_le h] at hnear
  omega

theorem significand_pow (k : Nat) : Significand (2 ^ k) := ⟨1, k, by norm_num, by ring⟩

end Improv.Lib.F64
