import Mathlib.Algebra.Order.BigOperators.Group.List
import Improv.Engine.ExactTotals
import Improv.PgModel.FoldTally
/-!
# The cell of a fold

A fold that holds its rows' tally makes the cell their aggregate says, and a
`min` or `max` it has kept is found again.
-/

namespace Improv.PgModel

open Improv.Lib Improv.Lib.F64 Improv.CoreModel Improv.Engine Exact

/-! ## The tally of rows -/

@[simp] theorem Part.weight_rows (p : Part) : p.weight .rows = 1 := by
  cases p <;> rfl

theorem tally_rows (parts : List Part) : tally parts .rows = parts.length := by
  induction parts with
  | nil => rfl
  | cons p parts ih =>
      rw [tally_cons, Part.weight_rows, ih, List.length_cons]
      push_cast
      ring

theorem Part.weight_present (p : Part) :
    p.weight .present = if p = .null then 0 else 1 := by
  cases p <;> rfl

theorem tally_present_nonneg (parts : List Part) : 0 ≤ tally parts .present := by
  apply List.sum_nonneg
  intro x hx
  obtain ⟨p, _, rfl⟩ := List.mem_map.mp hx
  rw [Part.weight_present]
  split <;> omega

theorem Part.weight_key (p : Part) (k : Key) :
    p.weight (.key k) = if p = .key k then 1 else 0 := by
  cases p with
  | null => rfl
  | count => rfl
  | total x => exact x.weight_key k
  | key j =>
      change (if k = j then (1 : Int) else 0) = _
      by_cases h : k = j
      · rw [if_pos h, if_pos (by rw [h])]
      · rw [if_neg h, if_neg (fun heq => h (Part.key.inj heq).symm)]

theorem tally_key (parts : List Part) (k : Key) :
    tally parts (.key k) = (parts.count (.key k) : Nat) := by
  induction parts with
  | nil => rfl
  | cons p parts ih =>
      rw [tally_cons, ih, Part.weight_key, List.count_cons]
      by_cases h : p = .key k <;> simp [h, add_comm]

theorem tally_key_eq_zero_iff {parts : List Part} {k : Key} :
    tally parts (.key k) = 0 ↔ k ∉ keysOf parts := by
  rw [tally_key, Nat.cast_eq_zero, List.count_eq_zero, mem_keysOf_iff]

theorem tally_present_pos_of_key {parts : List Part} {k : Key} (h : k ∈ keysOf parts) :
    0 < tally parts .present := by
  rw [mem_keysOf_iff] at h
  have hperm := List.perm_cons_erase h
  rw [tally_perm hperm, tally_cons]
  have hone : (Part.key k).weight .present = 1 := rfl
  have hrest := tally_present_nonneg (parts.erase (.key k))
  omega

theorem abs_units_le (p : Part) : |p.weight .units| ≤ 2 ^ 2098 := by
  have hzero : |(0 : Int)| ≤ 2 ^ 2098 := by
    rw [abs_zero]
    positivity
  cases p with
  | total x =>
      cases x using Num.kinds with
      | hfinite s u h => exact (abs_unitsOf_lt (.finite s u h)).le
      | _ => exact hzero
  | _ => exact hzero

theorem abs_tally_units_le (parts : List Part) :
    |tally parts .units| ≤ parts.length * 2 ^ 2098 := by
  induction parts with
  | nil => simp
  | cons p parts ih =>
      rw [tally_cons, List.length_cons]
      calc |p.weight .units + tally parts .units|
          ≤ |p.weight .units| + |tally parts .units| := abs_add_le _ _
        _ ≤ 2 ^ 2098 + parts.length * 2 ^ 2098 := add_le_add (abs_units_le p) ih
        _ = ((parts.length + 1 : Nat) : Int) * 2 ^ 2098 := by push_cast; ring

/-- The floats of fewer than 2⁶³ rows leave the accumulator room. -/
theorem abs_tally_units_lt {parts : List Part} (h : parts.length < 2 ^ 63) :
    |tally parts .units| < room := by
  have hlen : ((parts.length : Nat) : Int) ≤ 2 ^ 63 := by exact_mod_cast h.le
  have hroom : (2 : Int) ^ 63 * 2 ^ 2098 < room := by
    rw [← pow_add, room]
    push_cast
    exact pow_lt_pow_right₀ (by norm_num) (by decide)
  calc |tally parts .units| ≤ parts.length * 2 ^ 2098 := abs_tally_units_le parts
    _ ≤ 2 ^ 63 * 2 ^ 2098 := mul_le_mul_of_nonneg_right hlen (by positivity)
    _ < room := hroom

/-! ## What is read of a fold -/

theorem Total.value_eq (t : Total) : t.value =
    if 0 < t.nan then .nan
    else if 0 < t.posInf ∧ 0 < t.negInf then .nan
    else if 0 < t.posInf then .inf false
    else if 0 < t.negInf then .inf true
    else
      t.float.elim (.ofRatio (t.nanos < 0) t.nanos.natAbs NANOS) fun f =>
        (F64.ofRatio (t.nanos < 0) t.nanos.natAbs NANOS).add f.value := by
  have htext := parseF64_nanos t.nanos
  unfold Total.value
  dsimp only at htext ⊢
  rw [htext, Option.getD_some]

theorem value_default : Exact.default.value = .zero := by
  rw [denotes_default.value_eq (by rw [abs_zero, room]; positivity)]
  unfold nearest
  rw [Int.natAbs_zero, roundUnits_zero]
  exact ofUnits_of_representable representable_zero

namespace Fold.Holds

variable {agg : Agg} {f : Fold} {t : Stat → Int} {parts : List Part}

theorem value_eq (h : f.Holds agg t) (hunits : |t .units| < room) : f.total.value = sumOf t := by
  have hfloat : ∀ x, x = F64.ofRatio (t .nanos < 0) (t .nanos).natAbs NANOS →
      f.total.float.elim x (fun a => x.add a.value) = x.add (nearest (t .units)) := by
    intro x hx
    have hdenotes := h.float
    cases hsum : f.total.float with
    | some a =>
        rw [hsum, Option.getD_some] at hdenotes
        rw [Option.elim_some, hdenotes.value_eq hunits]
    | none =>
        rw [hsum, Option.getD_none] at hdenotes
        have hzero : nearest (t .units) = .zero := by
          rw [← hdenotes.value_eq hunits]
          exact value_default
        rw [Option.elim_none, hzero, hx]
        exact (decimal_add_zero _).symm
  rw [Total.value_eq, h.nan, h.posInf, h.negInf, h.nanos, hfloat _ rfl]
  rfl

theorem avg_eq (h : f.Holds .avg t) (hunits : |t .units| < room) (float : Bool) :
    f.total.avg f.n float = avgOf float t := by
  unfold Total.avg avgOf
  simp only [h.value_eq hunits, h.nan, h.posInf, h.negInf, h.nanos, h.n, h.floats rfl,
    h.scales rfl]

theorem mem_keys_iff (h : f.Holds agg (tally parts)) {k : Key} :
    k ∈ f.values.keys ↔ k ∈ keysOf parts := by
  rw [SortedMap.mem_keys_iff, SortedMap.contains, h.values, ← not_iff_not,
    ← tally_key_eq_zero_iff]
  by_cases hzero : tally parts (.key k) = 0 <;> simp [hzero]

theorem size_values (h : f.Holds agg (tally parts)) :
    f.values.size = (keysOf parts).dedup.length := by
  rw [← SortedMap.length_keys]
  apply List.Perm.length_eq
  rw [List.perm_ext_iff_of_nodup f.values.nodup_keys (List.nodup_dedup _)]
  intro k
  rw [h.mem_keys_iff, List.mem_dedup]

theorem best_keys (h : f.Holds agg (tally parts)) {r : Key → Key → Bool} (hr : Beats r) :
    Lib.best r f.values.keys = Lib.best r (keysOf parts) :=
  hr.best_congr fun _ => h.mem_keys_iff

end Fold.Holds

/-! ## A best that is kept -/

theorem bestOf_eq (agg : Agg) (cmp : TextCmp) (keys : List Key) :
    Fold.bestOf agg cmp keys = best (beats agg cmp) keys := by
  cases keys <;> rfl

/-- Where a `min` or `max` under a collation is known, no value beats it unless
it went with the last one. -/
def Kept (agg : Agg) (cmp : Option TextCmp) (b : Option Key) (keys : List Key) : Prop :=
  agg = .min ∨ agg = .max → ∀ c, cmp = some c → ∀ k, b = some k →
    keys = [] ∨ IsBest (beats agg c) keys k

/-- Where a `min` or `max` under a collation is known and has not gone, no value
beats it. -/
def Offered (agg : Agg) (cmp : Option TextCmp) (b : Option Key) (keys : List Key) : Prop :=
  agg = .min ∨ agg = .max → ∀ c, cmp = some c → ∀ k, b = some k →
    k ∈ keys → IsBest (beats agg c) keys k

theorem Kept.offered {agg : Agg} {cmp : Option TextCmp} {b : Option Key} {keys : List Key}
    (h : Kept agg cmp b keys) : Offered agg cmp b keys := by
  intro hagg c hc k hk hmem
  rcases h hagg c hc k hk with hnil | hbest
  · rw [hnil] at hmem
    cases hmem
  · exact hbest

section Cells

variable {cal : Calendar} {agg : Agg} {oid : Nat} {cmp : Option TextCmp} {f : Fold}
  {parts : List Part}

/-- A fold whose best was looked for, where it was not known or had gone. -/
def Fold.look (f : Fold) (agg : Agg) (c : TextCmp) : Fold :=
  if f.best.any f.values.contains then f
  else { f with best := Fold.bestOf agg c f.values.keys }

theorem look_best (h : f.Holds agg (tally parts)) {c : TextCmp} (hcmp : Lawful (some c))
    (hagg : agg = .min ∨ agg = .max)
    (hoffered : Offered agg (some c) f.best (keysOf parts)) :
    (f.look agg c).best = best (betterKey agg (some c)) (keysOf parts) := by
  have hstrict : Beats (beats agg c) := betterKey_strict agg hcmp
  change _ = best (beats agg c) (keysOf parts)
  unfold Fold.look
  split
  · next hany =>
      cases hk : f.best with
      | none =>
          rw [hk] at hany
          cases hany
      | some k =>
          rw [hk] at hany
          have hmem := h.mem_keys_iff.mp (SortedMap.mem_keys_iff.mpr hany)
          rw [eq_comm, hstrict.best_eq_some_iff]
          exact hoffered hagg c rfl k hk hmem
  · rw [← h.best_keys hstrict]
    exact bestOf_eq agg c _

theorem head?_keys {keys : List Key} (hsorted : keys.Pairwise (· < ·)) :
    keys.head? = best (betterKey .min none) keys := by
  cases keys with
  | nil => rfl
  | cons k ks =>
      rw [eq_comm, List.head?_cons, (betterKey_strict .min lawful_none).best_eq_some_iff]
      refine ⟨List.mem_cons_self, fun j hj => ?_⟩
      have hle : k ≤ j := by
        rcases List.mem_cons.mp hj with rfl | hj
        · exact le_rfl
        · exact (List.rel_of_pairwise_cons hsorted hj).le
      simpa [betterKey] using hle

theorem getLast?_keys {keys : List Key} (hsorted : keys.Pairwise (· < ·)) :
    keys.getLast? = best (betterKey .max none) keys := by
  rcases List.eq_nil_or_concat keys with rfl | ⟨ks, k, rfl⟩
  · rfl
  · rw [eq_comm, List.concat_eq_append, List.getLast?_append, List.getLast?_singleton,
      Option.some_or, (betterKey_strict .max lawful_none).best_eq_some_iff]
    rw [List.concat_eq_append, List.pairwise_append] at hsorted
    refine ⟨by simp, fun j hj => ?_⟩
    have hle : j ≤ k := by
      rcases List.mem_append.mp hj with hj | hj
      · exact (hsorted.2.2 j hj k (List.mem_singleton_self k)).le
      · exact (List.mem_singleton.mp hj).le
    simpa [betterKey] using hle

/-- The cell of a fold is the aggregate of its rows. -/
theorem Fold.cell_eq (h : f.Holds agg (tally parts))
    (hoffered : Offered agg cmp f.best (keysOf parts))
    (hcmp : Lawful cmp) (hlen : parts.length < 2 ^ 63) :
    (f.cell cal agg oid cmp).1 = aggregate cal agg oid cmp parts := by
  have hunits := abs_tally_units_lt hlen
  have hrows : f.rows ≤ 0 ↔ parts = [] := by
    rw [h.rows, tally_rows, ← List.length_eq_zero_iff]
    omega
  have hn : f.n ≤ 0 ↔ tally parts .present = 0 := by
    have hnonneg := tally_present_nonneg parts
    rw [h.n]
    omega
  unfold Fold.cell aggregate
  by_cases hnil : parts = []
  · rw [if_pos (hrows.mpr hnil), if_pos hnil]
  · rw [if_neg (fun hle => hnil (hrows.mp hle)), if_neg hnil]
    cases agg with
    | count => simp only [h.n]
    | countDistinct => simp only [h.size_values]
    | sum =>
        simp only [hn]
        split
        · rfl
        · simp only [h.value_eq hunits]
    | avg =>
        simp only [hn]
        split
        · rfl
        · simp only [h.avg_eq hunits]
    | min =>
        simp only [hn]
        split
        · rfl
        · cases cmp with
          | some c => exact congrArg (·.bind (Key.value cal)) (look_best h hcmp (.inl rfl) hoffered)
          | none =>
              have hbest := (head?_keys f.values.sorted_keys).trans
                (h.best_keys (betterKey_strict .min lawful_none))
              exact congrArg (·.bind (Key.value cal)) hbest
    | max =>
        simp only [hn]
        split
        · rfl
        · cases cmp with
          | some c => exact congrArg (·.bind (Key.value cal)) (look_best h hcmp (.inr rfl) hoffered)
          | none =>
              have hbest := (getLast?_keys f.values.sorted_keys).trans
                (h.best_keys (betterKey_strict .max lawful_none))
              exact congrArg (·.bind (Key.value cal)) hbest

theorem cell_look (hagg : agg = .min ∨ agg = .max) (f : Fold) (c : TextCmp) :
    (f.cell cal agg oid (some c)).1 =
      if f.rows ≤ 0 ∨ f.n ≤ 0 then none else (f.look agg c).best.bind (Key.value cal) := by
  unfold Fold.cell
  by_cases hrows : f.rows ≤ 0
  · rw [if_pos hrows, if_pos (.inl hrows)]
  · by_cases hn : f.n ≤ 0
    · rw [if_neg hrows, if_pos (.inr hn)]
      rcases hagg with rfl | rfl <;> simp [hn]
    · rw [if_neg hrows, if_neg (by simp [hrows, hn])]
      rcases hagg with rfl | rfl <;> simp only [hn, if_false] <;> rfl

theorem look_eq (f : Fold) (agg : Agg) (c : TextCmp) :
    ∃ b, f.look agg c = { f with best := b } := by
  unfold Fold.look
  split
  · exact ⟨f.best, rfl⟩
  · exact ⟨_, rfl⟩

/-- Making the cell looks a `min` or `max` up, and changes nothing else. -/
theorem cell_snd (cal : Calendar) (agg : Agg) (oid : Nat) (cmp : Option TextCmp) (f : Fold) :
    (f.cell cal agg oid cmp).2 = f ∧
        (f.rows ≤ 0 ∨ f.n ≤ 0 ∨ cmp = none ∨ ¬(agg = .min ∨ agg = .max)) ∨
      ∃ c, cmp = some c ∧ (agg = .min ∨ agg = .max) ∧
        (f.cell cal agg oid cmp).2 = f.look agg c := by
  unfold Fold.cell
  by_cases hrows : f.rows ≤ 0
  · rw [if_pos hrows]
    exact .inl ⟨rfl, .inl hrows⟩
  · rw [if_neg hrows]
    by_cases hn : f.n ≤ 0
    · left
      refine ⟨?_, .inr (.inl hn)⟩
      cases agg <;> simp [hn]
    · cases agg with
      | min =>
          cases cmp with
          | none => exact .inl ⟨by simp [hn], by simp⟩
          | some c => exact .inr ⟨c, rfl, .inl rfl, by simp only [hn, if_false]; rfl⟩
      | max =>
          cases cmp with
          | none => exact .inl ⟨by simp [hn], by simp⟩
          | some c => exact .inr ⟨c, rfl, .inr rfl, by simp only [hn, if_false]; rfl⟩
      | _ => exact .inl ⟨by simp [hn], by simp⟩

theorem Fold.Holds.setBest {t : Stat → Int} (h : f.Holds agg t) (b : Option Key) :
    ({ f with best := b } : Fold).Holds agg t :=
  ⟨h.rows, h.n, h.nanos, h.float, h.posInf, h.negInf, h.nan, h.values, h.scales, h.floats⟩

theorem cell_holds (cal : Calendar) (oid : Nat) (cmp : Option TextCmp) {t : Stat → Int}
    (h : f.Holds agg t) : (f.cell cal agg oid cmp).2.Holds agg t := by
  rcases cell_snd cal agg oid cmp f with
    ⟨heq, _⟩ | ⟨c, _, _, heq⟩
  · rw [heq]
    exact h
  · obtain ⟨b, hb⟩ := look_eq f agg c
    rw [heq, hb]
    exact h.setBest b

theorem keysOf_eq_nil (h : f.Holds agg (tally parts)) (hn : f.rows ≤ 0 ∨ f.n ≤ 0) :
    keysOf parts = [] := by
  rw [List.eq_nil_iff_forall_not_mem]
  intro k hk
  have hpos := tally_present_pos_of_key hk
  have hrows := tally_rows parts
  have hmem := List.length_pos_of_mem (mem_keysOf_iff.mp hk)
  rw [h.rows, h.n] at hn
  omega

theorem cell_kept (cal : Calendar) (oid : Nat) (h : f.Holds agg (tally parts)) (hcmp : Lawful cmp)
    (hoffered : Offered agg cmp f.best (keysOf parts)) :
    Kept agg cmp (f.cell cal agg oid cmp).2.best (keysOf parts) := by
  intro hagg c hc k hk
  rcases cell_snd cal agg oid cmp f with
    ⟨_, hrows | hn | hnone | hother⟩ | ⟨c', hc', _, heq⟩
  · exact .inl (keysOf_eq_nil h (.inl hrows))
  · exact .inl (keysOf_eq_nil h (.inr hn))
  · rw [hnone] at hc
    cases hc
  · exact absurd hagg hother
  · obtain rfl : c' = c := Option.some.inj (hc'.symm.trans hc)
    subst hc
    rw [heq, look_best h hcmp hagg hoffered] at hk
    exact .inr ((betterKey_strict agg hcmp).best_eq_some_iff.mp hk)

/-- The cell is made again the same. -/
theorem cell_stable (h : f.Holds agg (tally parts)) (hcmp : Lawful cmp)
    (hoffered : Offered agg cmp f.best (keysOf parts)) :
    ((f.cell cal agg oid cmp).2.cell cal agg oid cmp).1 = (f.cell cal agg oid cmp).1 := by
  rcases cell_snd cal agg oid cmp f with
    ⟨heq, _⟩ | ⟨c, rfl, hagg, heq⟩
  · rw [heq]
  · have hholds := cell_holds cal oid (some c) h
    have hkept := cell_kept cal oid h hcmp hoffered
    rw [heq] at hholds hkept ⊢
    have hbest := (look_best hholds hcmp hagg hkept.offered).trans
      (look_best h hcmp hagg hoffered).symm
    obtain ⟨b, hb⟩ := look_eq f agg c
    rw [cell_look hagg, cell_look hagg, hbest, hb]

end Cells

/-! ## A row in, a row out -/

/-- A fold of some rows: it holds their tally, and a best it has kept is theirs. -/
structure Fold.Of (agg : Agg) (cmp : Option TextCmp) (f : Fold) (parts : List Part) : Prop where
  holds : f.Holds agg (tally parts)
  kept : Kept agg cmp f.best (keysOf parts)

section Rows

variable {agg : Agg} {cmp : Option TextCmp} {f : Fold} {p : Part} {parts : List Part}

theorem Fold.Of.perm {others : List Part} (h : f.Of agg cmp parts) (hperm : parts.Perm others) :
    f.Of agg cmp others := by
  have hkeys : (keysOf parts).Perm (keysOf others) := hperm.filterMap _
  refine ⟨tally_perm hperm ▸ h.holds, fun hagg c hc k hk => ?_⟩
  rcases h.kept hagg c hc k hk with hnil | hbest
  · exact .inl (List.nil_perm.mp (hnil ▸ hkeys))
  · exact .inr ⟨hkeys.mem_iff.mp hbest.1, fun a ha => hbest.2 a (hkeys.mem_iff.mpr ha)⟩

theorem Fold.Of.empty (agg : Agg) (cmp : Option TextCmp) : Fold.default.Of agg cmp [] :=
  ⟨.empty agg, fun _ _ _ _ _ => .inl rfl⟩

theorem add_best (f : Fold) (p : Part) (k : Int) : (f.add p k).1.best = f.best := by
  cases p with
  | key j =>
      unfold Fold.add
      simp only
      split
      · rfl
      · split <;> rfl
  | _ => rfl

theorem keysOf_cons_key (k : Key) (parts : List Part) :
    keysOf (.key k :: parts) = k :: keysOf parts := rfl

theorem keysOf_cons_of_ne (hp : ∀ k, p ≠ .key k) : keysOf (p :: parts) = keysOf parts := by
  cases p with
  | key k => exact absurd rfl (hp k)
  | _ => rfl

theorem isFinite_le_one {k : Int} (hk : k = 1 ∨ k = -1) : k.natAbs ≤ 2 ^ 63 := by
  rcases hk with rfl | rfl <;> norm_num

/-- A row taken out of the fold of some rows leaves the fold of the others. -/
theorem remove_row (h : f.Of agg cmp (p :: parts)) :
    (f.add p (-1)).2 = true ∧ (f.add p (-1)).1.Holds agg (tally parts) ∧
      Offered agg cmp (f.add p (-1)).1.best (keysOf parts) := by
  have hrows := tally_rows parts
  have hpresent := tally_present_nonneg parts
  have hone := p.weight_rows
  have hadd := h.holds.add (p := p) (k := -1)
    (by rw [tally_cons]; omega) (by rw [tally_cons]; omega)
    (fun j hj => by
      have hkey := tally_key parts j
      have hweight := p.weight_key j
      rw [if_pos hj] at hweight
      rw [tally_cons]
      omega)
    (fun _ _ _ => isFinite_le_one (.inr rfl))
  refine ⟨hadd.1, hadd.2.congr fun s => ?_, ?_⟩
  · rw [tally_cons]
    ring
  · rw [add_best]
    intro hagg c hc k hk hmem
    by_cases hp : ∃ j, p = .key j
    · obtain ⟨j, rfl⟩ := hp
      rcases h.kept hagg c hc k hk with hnil | hbest
      · rw [keysOf_cons_key] at hnil
        cases hnil
      · exact ⟨hmem, fun a ha => hbest.2 a (List.mem_cons_of_mem j ha)⟩
    · have hkept := h.kept.offered hagg c hc k hk
      rw [keysOf_cons_of_ne (fun j hj => hp ⟨j, hj⟩)] at hkept
      exact hkept hmem

theorem offer_eq (f : Fold) (p : Part) (agg : Agg) (cmp : Option TextCmp) :
    ∃ b, f.offer p agg cmp = { f with best := b } := by
  unfold Fold.offer
  split
  · split
    · exact ⟨_, rfl⟩
    · exact ⟨f.best, rfl⟩
  · exact ⟨f.best, rfl⟩

theorem offer_best_key {c : TextCmp} {k b : Key} (hb : f.best = some b) :
    (f.offer (.key k) agg (some c)).best = some (better (beats agg c) b k) := by
  unfold Fold.offer better
  simp only [hb]
  split
  · rfl
  · exact hb

theorem offer_best_none (hb : f.best = none) : (f.offer p agg cmp).best = none := by
  unfold Fold.offer
  simp only [hb]

theorem offer_of_not_key (hp : ∀ k, p ≠ .key k) : f.offer p agg cmp = f := by
  cases p with
  | key k => exact absurd rfl (hp k)
  | _ => rfl

/-- What is offered is the best where it beats the best so far. -/
theorem offered_insert (hcmp : Lawful cmp) (hkept : Kept agg cmp f.best (keysOf parts)) :
    Offered agg cmp (f.offer p agg cmp).best (keysOf (p :: parts)) := by
  intro hagg c hc b' hb' hmem
  subst hc
  have hstrict : Beats (beats agg c) := betterKey_strict agg hcmp
  by_cases hp : ∃ k, p = .key k
  · obtain ⟨k, rfl⟩ := hp
    cases hb : f.best with
    | none =>
        rw [offer_best_none hb] at hb'
        cases hb'
    | some b =>
        rw [offer_best_key hb, Option.some.injEq] at hb'
        rw [keysOf_cons_key] at hmem ⊢
        rcases hkept hagg c rfl b hb with hnil | hbest
        · rw [hnil, List.mem_singleton] at hmem
          rw [hnil, hmem]
          exact hstrict.isBest_foldl k []
        · have hall := hstrict.isBest_foldl b [k]
          rw [List.foldl_cons, List.foldl_nil, hb'] at hall
          refine ⟨hmem, fun a ha => ?_⟩
          rcases List.mem_cons.mp ha with rfl | ha
          · exact hall.2 a (by simp)
          · exact hstrict.trans a b b' (hbest.2 a ha) (hall.2 b (by simp))
  · have hne : ∀ k, p ≠ .key k := fun k hk => hp ⟨k, hk⟩
    rw [offer_of_not_key hne] at hb'
    rw [keysOf_cons_of_ne hne] at hmem ⊢
    exact hkept.offered hagg c rfl b' hb' hmem

/-- A row put into the fold of some rows makes the fold of them all. -/
theorem insert_row (hcmp : Lawful cmp) (h : f.Of agg cmp parts) :
    (f.add p 1).2 = true ∧ ((f.add p 1).1.offer p agg cmp).Holds agg (tally (p :: parts)) ∧
      Offered agg cmp ((f.add p 1).1.offer p agg cmp).best (keysOf (p :: parts)) := by
  have hrows := tally_rows parts
  have hpresent := tally_present_nonneg parts
  have hweight := p.weight_present
  have hadd := h.holds.add (p := p) (k := 1) (by omega) (by split at hweight <;> omega)
    (fun j _ => by
      have hkey := tally_key parts j
      omega)
    (fun _ _ _ => isFinite_le_one (.inl rfl))
  refine ⟨hadd.1, ?_, offered_insert hcmp (by rw [add_best]; exact h.kept)⟩
  obtain ⟨b, hb⟩ := offer_eq (f.add p 1).1 p agg cmp
  rw [hb]
  apply Fold.Holds.setBest
  refine hadd.2.congr fun s => ?_
  rw [tally_cons]
  ring

end Rows

end Improv.PgModel
