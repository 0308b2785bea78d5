import Mathlib.Algebra.Order.Ring.Int
import Mathlib.Data.Fintype.Basic
import Improv.Engine.Kernels
/-!
# Working days

Working days counted between two days, and moved by from one.  Both skip whole
weeks by a division, since any seven days in a row hold the same number of
working days, and walk the rest.  The day numbers are whole numbers, far inside
a machine's integers as dates are.
-/

namespace Improv.Engine.Workdays

open Improv.Lib

/-- The days of the week that are free, Monday first. -/
abbrev Mask := Fin 7 → Bool

/-- The day of the week of serial day `k`, Monday first; day 0 was a Saturday. -/
def wd (k : Int) : Fin 7 := ⟨((k + 5) % 7).toNat, by omega⟩

/-- Serial day 0 in milliseconds. -/
def serialEpochMs : Int := -2209161600000

/-- The date of serial day `k`, or `#NUM!` out of range. -/
def okDn (k : Int) : Except Nat CellValue :=
  match Kernels.datePlusDays serialEpochMs (.ofInt k) with
  | .err c => .error c
  | v => .ok v

/-- A number cut to a whole one, smaller than a limit. -/
def int (x : F64) (limit : Nat) : Except Nat Int :=
  match x with
  | .finite s u _ =>
    let t := F64.signed s (u / F64.one)
    if t.natAbs < limit then .ok t else .error Err.NUM
  | _ => .error Err.NUM

/-- The mask that an argument gives: Saturday and Sunday where it is left out, a
text of seven zeros and ones, or the number of a pair of days or of one day. -/
def weekend (arg : Option CellValue) (bad : Nat) : Except Nat Mask :=
  match arg with
  | none => .ok fun j => j = 5 || j = 6
  | some (.text s) =>
    let b := s.toList
    if b.length ≠ 7 || !b.all (fun c => c = '0' || c = '1') then .error Err.VALUE
    else .ok fun j => b.getD j '0' = '1'
  | some (.num bits) =>
    match F64.ofBits bits with
    | .finite s u _ =>
      let k := F64.signed s (u / F64.one)
      if 1 ≤ k ∧ k ≤ 7 then .ok fun j => (j : Int) = (k + 4) % 7 || (j : Int) = (k + 5) % 7
      else if 11 ≤ k ∧ k ≤ 17 then .ok fun j => (j : Int) = (k - 5) % 7
      else .error bad
    | _ => .error bad
  | some _ => .error Err.VALUE

variable (wk : Mask)

/-- The working days of a week. -/
def perWeek : Nat := (List.finRange 7).countP fun j => !wk j

def isWorkday (k : Int) : Bool := !wk (wd k)

/-- The working days among the `n` days from `s`. -/
def countFrom (s : Int) (n : Nat) : Nat := (List.range n).countP fun i : Nat => isWorkday wk (s + i)

/-- The working days in `s..=e`. -/
def workdays (s e : Int) : Int :=
  let total := e - s + 1
  let tail := s + total.tdiv 7 * 7
  total.tdiv 7 * perWeek wk + countFrom wk tail (e - tail + 1).toNat

/-- The day on which the last of the `left` working days falls; `fuel` bounds the
days walked. -/
def advance (step : Int) : (fuel : Nat) → (cur : Int) → (left : Nat) → Int
  | _, cur, 0 => cur
  | 0, cur, _ + 1 => cur
  | fuel + 1, cur, left + 1 =>
    let cur := cur + step
    advance step fuel cur (if isWorkday wk cur then left else left + 1)

/-- So many working days after a day, or before it. -/
def workday (start : Int) (days : F64) : Except Nat CellValue :=
  if perWeek wk = 0 then .error Err.VALUE
  else do
    let days ← int days (10 ^ 9)
    let step := days.sign
    let left := days.natAbs
    if left = 0 then okDn start
    else
      let weeks := (left - 1) / perWeek wk
      let left := left - weeks * perWeek wk
      okDn (advance wk step (7 * left) (start + step * 7 * weeks) left)

/-! ## What they mean -/

/-- The working days in `s..=e`, counted one by one. -/
def freeDays (s e : Int) : Nat :=
  (List.range (e - s + 1).toNat).countP fun i : Nat => isWorkday wk (s + i)

/-- The working days among the first `j` days walked from a day. -/
def passed (step start : Int) (j : Nat) : Nat :=
  (List.range j).countP fun i : Nat => isWorkday wk (start + step * (i + 1))

/-- The day reached by walking from a day, itself excluded, until `n` working
days were passed. -/
def Reached (step start : Int) (n : Nat) (d : Int) : Prop :=
  ∃ j : Nat, d = start + step * j ∧ passed wk step start j = n ∧
    ∀ i < j, passed wk step start i < n

/-! ## Weeks -/

theorem wd_eq_iff {k l : Int} : wd k = wd l ↔ k % 7 = l % 7 := by
  unfold wd
  rw [Fin.mk.injEq]
  omega

theorem isWorkday_add_week (k w : Int) : isWorkday wk (k + 7 * w) = isWorkday wk k := by
  unfold isWorkday
  rw [wd_eq_iff.mpr (show (k + 7 * w) % 7 = k % 7 by omega)]

theorem countFrom_succ (s : Int) (n : Nat) :
    countFrom wk s (n + 1) = countFrom wk s n + if isWorkday wk (s + n) then 1 else 0 := by
  unfold countFrom
  rw [List.range_succ, List.countP_append, List.countP_singleton]

theorem countFrom_add (s : Int) (m n : Nat) :
    countFrom wk s (m + n) = countFrom wk s m + countFrom wk (s + m) n := by
  induction n with
  | zero => rfl
  | succ n ih =>
      rw [← Nat.add_assoc, countFrom_succ, ih, countFrom_succ, Nat.add_assoc, Nat.cast_add,
        add_assoc s]

theorem countFrom_week_succ (s : Int) : countFrom wk (s + 1) 7 = countFrom wk s 7 := by
  have hfirst : countFrom wk s 8 = countFrom wk s 1 + countFrom wk (s + 1) 7 :=
    countFrom_add wk s 1 7
  have hlast : countFrom wk s 8 = countFrom wk s 7 + if isWorkday wk (s + 7) then 1 else 0 :=
    countFrom_succ wk s 7
  have hone : countFrom wk s 1 = 0 + if isWorkday wk (s + 0) then 1 else 0 := countFrom_succ wk s 0
  rw [show s + 7 = s + 7 * 1 from rfl, isWorkday_add_week] at hlast
  rw [add_zero] at hone
  omega

/-- Any seven days in a row hold a week's working days. -/
theorem countFrom_week (s : Int) : countFrom wk s 7 = perWeek wk := by
  have hmonday : countFrom wk 2 7 = perWeek wk := rfl
  rw [← hmonday]
  induction s using Int.inductionOn' (b := 2) with
  | zero => rfl
  | succ k _ ih => rw [countFrom_week_succ, ih]
  | pred k _ ih => rw [← countFrom_week_succ, sub_add_cancel, ih]

theorem countFrom_weeks (s : Int) (w : Nat) : countFrom wk s (7 * w) = w * perWeek wk := by
  induction w with
  | zero => simp [countFrom]
  | succ w ih => rw [Nat.mul_succ, countFrom_add, ih, countFrom_week, Nat.succ_mul]

theorem countFrom_eq (s : Int) (n : Nat) : countFrom wk s n = freeDays wk s (s + n - 1) := by
  unfold freeDays
  rw [show (s + n - 1 - s + 1).toNat = n by omega]
  rfl

theorem freeDays_empty {s e : Int} (h : e < s) : freeDays wk s e = 0 := by
  unfold freeDays
  rw [show (e - s + 1).toNat = 0 by omega]
  rfl

theorem freeDays_succ {s e : Int} (h : s ≤ e + 1) :
    freeDays wk s (e + 1) = freeDays wk s e + if isWorkday wk (e + 1) then 1 else 0 := by
  have hlast := countFrom_succ wk s (e - s + 1).toNat
  rw [countFrom_eq, countFrom_eq, Nat.cast_succ, Int.toNat_of_nonneg (by omega)] at hlast
  rw [show s + (e - s + 1 + 1) - 1 = e + 1 by omega, show s + (e - s + 1) - 1 = e by omega,
    show s + (e - s + 1) = e + 1 by omega] at hlast
  exact hlast

theorem freeDays_pred {s e : Int} (h : s ≤ e) :
    freeDays wk s e = freeDays wk (s + 1) e + if isWorkday wk s then 1 else 0 := by
  have hfirst := countFrom_add wk s 1 (e - s).toNat
  have hone : countFrom wk s 1 = 0 + if isWorkday wk (s + 0) then 1 else 0 := countFrom_succ wk s 0
  rw [add_zero] at hone
  rw [hone, countFrom_eq, countFrom_eq, Nat.cast_add, Int.toNat_of_nonneg (by omega), Nat.cast_one,
    show s + (1 + (e - s)) - 1 = e by omega, show s + 1 + (e - s) - 1 = e by omega] at hfirst
  omega

/-- The count over whole weeks and a walk is the count of the days one by one. -/
theorem workdays_eq {s e : Int} (h : s ≤ e) : workdays wk s e = freeDays wk s e := by
  obtain ⟨n, hn⟩ : ∃ n : Nat, e - s + 1 = n := ⟨(e - s + 1).toNat, by omega⟩
  have hquot : (e - s + 1).tdiv 7 = (n / 7 : Nat) := by
    rw [hn]
    rfl
  have htail : e - (s + ((n / 7 : Nat) : Int) * 7) + 1 = (n % 7 : Nat) := by
    push_cast
    omega
  have hsplit := countFrom_add wk s (7 * (n / 7)) (n % 7)
  rw [countFrom_weeks, Nat.div_add_mod, countFrom_eq wk s n] at hsplit
  unfold workdays
  dsimp only
  rw [hquot, htail, Int.toNat_natCast, show e = s + n - 1 by omega, hsplit, Nat.mul_comm 7]
  push_cast
  rfl

/-! ## Walking -/

theorem passed_succ (step start : Int) (j : Nat) :
    passed wk step start (j + 1) =
      passed wk step start j + if isWorkday wk (start + step * (j + 1)) then 1 else 0 := by
  unfold passed
  rw [List.range_succ, List.countP_append, List.countP_singleton]

theorem passed_mono (step start : Int) {i j : Nat} (h : i ≤ j) :
    passed wk step start i ≤ passed wk step start j := by
  induction j, h using Nat.le_induction with
  | base => exact le_rfl
  | succ j _ ih =>
      rw [passed_succ]
      omega

theorem passed_add (step start : Int) (i j : Nat) :
    passed wk step start (i + j) =
      passed wk step start i + passed wk step (start + step * i) j := by
  induction j with
  | zero => rfl
  | succ j ih =>
      have hday : start + step * (((i + j : Nat) : Int) + 1) =
          start + step * i + step * (j + 1) := by
        rw [Nat.cast_add, add_assoc (i : Int), mul_add, add_assoc]
      rw [← Nat.add_assoc, passed_succ, ih, passed_succ, hday, Nat.add_assoc]

theorem passed_forward (start : Int) (j : Nat) :
    passed wk 1 start j = freeDays wk (start + 1) (start + j) := by
  have hcount : passed wk 1 start j = countFrom wk (start + 1) j := by
    unfold passed countFrom
    congr 1
    ext i
    rw [one_mul, add_right_comm, add_assoc]
  rw [hcount, countFrom_eq]
  congr 1
  omega

theorem passed_backward (start : Int) (j : Nat) :
    passed wk (-1) start j = freeDays wk (start - j) (start - 1) := by
  induction j with
  | zero =>
      rw [freeDays_empty wk (by omega)]
      rfl
  | succ j ih =>
      have hpred := freeDays_pred wk (show start - ((j + 1 : Nat) : Int) ≤ start - 1 by omega)
      rw [show start - ((j + 1 : Nat) : Int) + 1 = start - j by push_cast; omega, ← ih] at hpred
      have hday : start + -1 * ((j : Int) + 1) = start - ((j + 1 : Nat) : Int) := by
        push_cast
        omega
      rw [passed_succ, hpred, hday]

/-- The first day walked, and the days after it. -/
theorem passed_first (step start : Int) (j : Nat) :
    passed wk step start (j + 1) =
      (if isWorkday wk (start + step) then 1 else 0) + passed wk step (start + step) j := by
  have hone : passed wk step start 1 = 0 + if isWorkday wk (start + step * (0 + 1)) then 1 else 0 :=
    passed_succ wk step start 0
  rw [Nat.zero_add, Int.zero_add, mul_one] at hone
  rw [Nat.add_comm, passed_add, hone, Nat.cast_one, mul_one]

/-- The walk ends on the day it is to reach, given enough fuel. -/
theorem advance_eq {step cur : Int} {left fuel j : Nat} (hfuel : j ≤ fuel)
    (hpassed : passed wk step cur j = left) (hbefore : ∀ i < j, passed wk step cur i < left) :
    advance wk step fuel cur left = cur + step * j := by
  induction j generalizing cur left fuel with
  | zero =>
      have hnone : left = 0 := hpassed.symm
      rw [hnone, Nat.cast_zero, mul_zero, add_zero]
      unfold advance
      rfl
  | succ j ih =>
      obtain ⟨fuel, rfl⟩ : ∃ f, fuel = f + 1 := ⟨fuel - 1, by omega⟩
      obtain ⟨left, rfl⟩ : ∃ l, left = l + 1 :=
        ⟨left - 1, by have hfirst := hbefore 0 (by omega); omega⟩
      rw [passed_first] at hpassed
      have hrest : ∀ i < j, passed wk step (cur + step) i <
          if isWorkday wk (cur + step) then left else left + 1 := by
        intro i hi
        have h := hbefore (i + 1) (by omega)
        rw [passed_first] at h
        split at h <;> split <;> first | omega | contradiction
      have hlast : passed wk step (cur + step) j =
          if isWorkday wk (cur + step) then left else left + 1 := by
        split at hpassed <;> split <;> first | omega | contradiction
      unfold advance
      rw [ih (by omega) hlast hrest, Nat.cast_succ, mul_add, mul_one, add_assoc,
        add_comm step]

/-- A working day is passed on the way whenever few enough are asked for. -/
theorem exists_reached {step start : Int} {n j : Nat} (h : n ≤ passed wk step start j) :
    ∃ i ≤ j, passed wk step start i = n ∧ ∀ k < i, passed wk step start k < n := by
  induction j with
  | zero =>
      have hzero : passed wk step start 0 = 0 := rfl
      exact ⟨0, le_rfl, by omega, fun k hk => absurd hk (by omega)⟩
  | succ j ih =>
      by_cases hj : n ≤ passed wk step start j
      · obtain ⟨i, hi, hn, hk⟩ := ih hj
        exact ⟨i, by omega, hn, hk⟩
      · have hsucc := passed_succ wk step start j
        refine ⟨j + 1, le_rfl, by split at hsucc <;> omega, fun k hk => ?_⟩
        have hmono := passed_mono wk step start (show k ≤ j by omega)
        omega

theorem passed_week {step : Int} (hstep : step = 1 ∨ step = -1) (start : Int) (w : Nat) :
    passed wk step start (7 * w) = w * perWeek wk := by
  rcases hstep with rfl | rfl
  · have h := countFrom_eq wk (start + 1) (7 * w)
    rw [countFrom_weeks] at h
    rw [passed_forward, h]
    congr 1
    push_cast
    omega
  · have h := countFrom_eq wk (start - (7 * w : Nat)) (7 * w)
    rw [countFrom_weeks, sub_add_cancel] at h
    rw [passed_backward, h]

/-- The last day of a walk that passed a working day is one. -/
theorem isWorkday_of_reached {step start : Int} {n j : Nat} (hn : 0 < n)
    (hpassed : passed wk step start j = n) (hbefore : ∀ i < j, passed wk step start i < n) :
    0 < j ∧ isWorkday wk (start + step * j) = true := by
  cases j with
  | zero =>
      have hzero : passed wk step start 0 = 0 := rfl
      omega
  | succ j =>
      refine ⟨by omega, ?_⟩
      have hlt := hbefore j (by omega)
      rw [passed_succ] at hpassed
      rw [Nat.cast_succ]
      by_contra hfree
      rw [if_neg hfree] at hpassed
      omega

/-! ## The two agree -/

/-- The day that `workday` answers with. -/
theorem workday_reached {start n : Int} {days : F64} (hweek : perWeek wk ≠ 0)
    (hdays : int days (10 ^ 9) = .ok n) :
    ∃ j : Nat, workday wk start days = okDn (start + n.sign * j) ∧
      passed wk n.sign start j = n.natAbs ∧
      ∀ i < j, passed wk n.sign start i < n.natAbs := by
  unfold workday
  rw [if_neg hweek, hdays]
  show ∃ j : Nat, (if n.natAbs = 0 then okDn start
    else okDn (advance wk n.sign (7 * (n.natAbs - (n.natAbs - 1) / perWeek wk * perWeek wk))
      (start + n.sign * 7 * ((n.natAbs - 1) / perWeek wk : Nat))
      (n.natAbs - (n.natAbs - 1) / perWeek wk * perWeek wk))) = _ ∧ _
  by_cases hzero : n.natAbs = 0
  · rw [if_pos hzero]
    exact ⟨0, by rw [Nat.cast_zero, mul_zero, add_zero], by rw [hzero]; rfl,
      fun i hi => absurd hi (by omega)⟩
  rw [if_neg hzero]
  have hstep : n.sign = 1 ∨ n.sign = -1 := by
    rcases lt_trichotomy n 0 with hneg | heq | hpos
    · exact .inr (Int.sign_eq_neg_one_of_neg hneg)
    · omega
    · exact .inl (Int.sign_eq_one_of_pos hpos)
  generalize n.sign = step at hstep ⊢
  generalize n.natAbs = m at hzero ⊢
  obtain ⟨w, hw⟩ : ∃ w, w = (m - 1) / perWeek wk := ⟨_, rfl⟩
  have hdiv := Nat.div_add_mod' (m - 1) (perWeek wk)
  have hmod := Nat.mod_lt (m - 1) (Nat.pos_of_ne_zero hweek)
  rw [← hw] at hdiv ⊢
  have hskip := passed_week wk hstep start w
  have hcur : start + step * 7 * w = start + step * ((7 * w : Nat) : Int) := by
    rw [Nat.cast_mul, mul_assoc]
    rfl
  rw [hcur]
  obtain ⟨j, hj, hpassed, hbefore⟩ := exists_reached wk
    (show m - w * perWeek wk ≤ passed wk step (start + step * ((7 * w : Nat) : Int)) (7 * 1) by
      rw [passed_week wk hstep]
      omega)
  rw [advance_eq wk (by omega) hpassed hbefore]
  refine ⟨7 * w + j, by rw [Nat.cast_add, mul_add, add_assoc], ?_, fun i hi => ?_⟩
  · rw [passed_add, hskip, hpassed]
    omega
  · by_cases hlt : i < 7 * w
    · have hmono := passed_mono wk step start hlt.le
      omega
    · obtain ⟨k, rfl⟩ : ∃ k, i = 7 * w + k := ⟨i - 7 * w, by omega⟩
      have hk := hbefore k (by omega)
      rw [passed_add, hskip]
      omega

theorem freeDays_add {s e f : Int} (hse : s ≤ e + 1) (hef : e ≤ f) :
    freeDays wk s e + freeDays wk (e + 1) f = freeDays wk s f := by
  obtain ⟨n, rfl⟩ : ∃ n : Nat, f = e + n := ⟨(f - e).toNat, by omega⟩
  induction n with
  | zero =>
      have hnone : freeDays wk (e + 1) (e + (0 : Nat)) = 0 := freeDays_empty wk (by omega)
      rw [hnone, Nat.cast_zero, Nat.add_zero, Int.add_zero]
  | succ n ih =>
      have hlast := freeDays_succ wk (show e + 1 ≤ e + n + 1 by omega)
      have hlast' := freeDays_succ wk (show s ≤ e + n + 1 by omega)
      have hprev := ih (by omega)
      rw [Nat.cast_succ, ← add_assoc]
      omega

/-- Working-day arithmetic agrees with itself. -/
theorem workdays_agree (hweek : perWeek wk ≠ 0) :
    (∀ (start : Int) (days : F64) (n : Int), int days (10 ^ 9) = .ok n →
      ∃ d, workday wk start days = okDn d ∧ Reached wk n.sign start n.natAbs d ∧
        (0 < n → workdays wk (start + 1) d = n ∧ isWorkday wk d = true) ∧
        (n < 0 → workdays wk d (start - 1) = -n ∧ isWorkday wk d = true)) ∧
    (∀ s e, s ≤ e → workdays wk s e = freeDays wk s e) ∧
    ∀ s e f, s ≤ e → e < f →
      workdays wk s e + workdays wk (e + 1) f = workdays wk s f := by
  refine ⟨fun start days n hdays => ?_, fun s e h => workdays_eq wk h, fun s e f hse hef => ?_⟩
  · obtain ⟨j, hday, hpassed, hbefore⟩ := workday_reached wk hweek hdays
    refine ⟨_, hday, ⟨j, rfl, hpassed, hbefore⟩, fun hpos => ?_, fun hneg => ?_⟩
    · rw [Int.sign_eq_one_of_pos hpos] at hpassed hbefore ⊢
      obtain ⟨hj, hwork⟩ := isWorkday_of_reached wk (by omega) hpassed hbefore
      rw [one_mul] at hwork ⊢
      refine ⟨?_, hwork⟩
      rw [workdays_eq wk (by omega), ← passed_forward, hpassed]
      omega
    · rw [Int.sign_eq_neg_one_of_neg hneg] at hpassed hbefore ⊢
      obtain ⟨hj, hwork⟩ := isWorkday_of_reached wk (by omega) hpassed hbefore
      rw [neg_one_mul, ← sub_eq_add_neg] at hwork ⊢
      refine ⟨?_, hwork⟩
      rw [workdays_eq wk (by omega), ← passed_backward, hpassed]
      omega
  · rw [workdays_eq wk hse, workdays_eq wk (by omega), workdays_eq wk (by omega)]
    exact_mod_cast freeDays_add wk (by omega) hef.le

/-- Saturday and Sunday. -/
def saturdaySunday : Mask := fun j => j = 5 || j = 6

/-- Two weeks of five working days. -/
theorem workdays_agree_fortnight : perWeek saturdaySunday ≠ 0 ∧
    workdays saturdaySunday 2 15 = freeDays saturdaySunday 2 15 :=
  ⟨by decide, (workdays_agree saturdaySunday (by decide)).2.1 2 15 (by decide)⟩

end Improv.Engine.Workdays
