import Mathlib.Data.List.ReduceOption
import Improv.PgModel.Live
import Improv.PgModel.FoldCell
import Improv.PgModel.Tables
/-!
# Seeding the folds

An aggregated measure's fold state loaded from one query's grouped rows, with
the snapshot the query saw, and the measure's cells set to the folds'.
-/

namespace Improv.PgModel

open Improv.Lib Improv.CoreModel Improv.Engine

/-- One row of the seed query: dimension names, a value's text, how many rows
with a value it stands for, and how many rows in all. -/
structure FoldRow where
  dims : List (Option String)
  value : Option String
  n : Int
  all : Int
deriving DecidableEq

/-- Adds a group's part to a fold; a finite sum stands for its `n` rows at
once. -/
def Fold.addGroup (f : Fold) (p : Part) (n : Int) : Fold × Bool :=
  match p with
  | .total x =>
    if x.isFinite then
      let f := { f with total := f.total.count x (n - 1) }
      let (f, ok) := f.add (.total x) 1
      if ok then f.add .count (n - 1) else (f, false)
    else f.add p n
  | p => f.add p n

/-- One row of the seed query added to its coordinate's fold. -/
def seedRow (cal : Calendar) (items : Items) (b : Binding) (agg : Agg) (vt : ValueType)
    (oid : Nat) (folds : SortedMap Coordinate Fold) (row : FoldRow) :
    Except Rebuild (SortedMap Coordinate Fold) := do
  match ← coordOf items b row.dims with
  | none => .ok folds
  | some c =>
    let f := (folds.get? c).getD .default
    let f := { f with rows := f.rows + (row.all - row.n) }
    let (f, ok) ←
      match row.value with
      | none => .ok (f.add .count row.n)
      | some s => (partOf cal agg vt oid s).map fun p => f.addGroup p row.n
    if ok then .ok (folds.insert c f) else .error ⟨"a fold went out of step"⟩

namespace Mapper

variable (cal : Calendar)

/-- The cells of seeded folds. -/
def seedCells (agg : Agg) (oid : Nat) (cmp : Option TextCmp) (measure : MeasureId)
    (folds : SortedMap Coordinate Fold) (inputs : SortedMap Cell Value) :
    SortedMap Cell Value :=
  let others := inputs.filter fun k _ => k.measure ≠ measure
  folds.entries.foldl (fun inputs p =>
    match (p.2.cell cal agg oid cmp).1 with
    | some v => inputs.insert ⟨measure, p.1⟩ v
    | none => inputs) others

/-- An aggregated measure's fold state loaded from the rows of its seed query,
its value column being of Postgres type `oid`, and its cells set to the folds'.
An aggregate that keeps no fold leaves everything as it is. -/
def seed (mp : Mapper) (m : Model) (measure : MeasureId) (oid : Nat) (rows : List FoldRow)
    (snap : Snap) : Except Rebuild (Mapper × Model) := do
  let b ← ((mp.bindings.values.flatten).find? fun b => b.measure = measure).elim
    (.error ⟨"unknown binding"⟩) .ok
  let agg ← b.agg.elim (.error ⟨"not an aggregated binding"⟩) .ok
  let vt ← valueType m measure
  let coll := mp.collations.get? measure
  if (unfoldable agg vt coll).isSome then .ok (mp, m)
  else do
    let cmp := textCmp coll
    let folds ← rows.foldlM (seedRow cal mp.items b agg vt oid)
      ((mp.folds.get? measure).getD .empty)
    let looked := folds.map fun _ f => (f.cell cal agg oid cmp).2
    .ok ({ mp with
        folds := mp.folds.insert measure looked
        seeded := mp.seeded.insert measure snap },
      { m with inputs := seedCells cal agg oid cmp measure folds m.inputs })

end Mapper

end Improv.PgModel

/-!
## What the seed query says of a table's rows

The seed query groups the rows of a table and sums each group's finite values.
Where its sums are the values' exact totals, a fold to which a group's row is
added holds the tally of the group's rows.
-/

namespace Improv.PgModel

open Improv.Lib Improv.Lib.F64 Improv.CoreModel Improv.Engine Exact

/-! ## The query -/

/-- A value cast to text. -/
def castText (oid : Nat) (s : String) : String :=
  if oid = BOOL ∧ s = "t" then "true"
  else if oid = BOOL ∧ s = "f" then "false"
  else if oid = BPCHAR then trimEndMatches ' ' s
  else s

def Special (s : String) : Prop := s = "Infinity" ∨ s = "-Infinity" ∨ s = "NaN"

/-- How the database sums some finite numbers. -/
abbrev Sums := List Num → Num → Prop

/-- The value one row of the query has for a group of value texts: none for a
`count`; a sum of the finite ones, or an infinity or NaN they all are; else the
text they all have. -/
def ValueOf (sums : Sums) (agg : Agg) (oid : Nat) (texts : List (Option String))
    (value : Option String) : Prop :=
  match agg with
  | .count => value = none
  | .sum | .avg =>
    (∃ s, Special s ∧ value = some s ∧ ∀ x ∈ texts, x = some s) ∨
      (value = none ∧ ∀ x ∈ texts, x = none) ∨
      ∃ s xs x, value = some s ∧ (∀ v ∈ texts.reduceOption, ¬Special v) ∧
        List.Forall₂ (fun v y => Num.parse v (isFloat oid) = .ok y) texts.reduceOption xs ∧
        xs ≠ [] ∧ Num.parse s (isFloat oid) = .ok x ∧ sums xs x
  | _ => ∀ x ∈ texts, x.map (castText oid) = value

/-- The value texts of some rows. -/
def Texts (r : Relation) (b : Binding) (rows : List Tuple) (texts : List (Option String)) : Prop :=
  List.Forall₂ (fun t x => text r b t = .ok x) rows texts

/-- What one row of the query says of a group of rows. -/
structure GroupOf (sums : Sums) (r : Relation) (b : Binding) (agg : Agg) (rows : List Tuple)
    (out : FoldRow) : Prop where
  dims : ∀ t ∈ rows, (b.dims.mapM fun d => dimName r d.2 t) = .ok out.dims
  all : out.all = rows.length
  value : ∃ texts, Texts r b rows texts ∧ out.n = texts.reduceOption.length ∧
    ValueOf sums agg (valueOid r b) texts out.value

/-- What the query says of a table's rows: each is in one group. -/
def SeedRows (sums : Sums) (r : Relation) (b : Binding) (agg : Agg) (rows : List Tuple)
    (outs : List FoldRow) : Prop :=
  ∃ groups : List (List Tuple), groups.flatten.Perm rows ∧
    List.Forall₂ (GroupOf sums r b agg) groups outs

/-! ## Exact sums -/

/-- Two numbers are summed alike: both in nanos, of one scale for an `avg`, or
both as finite floats. -/
def Num.Like (agg : Agg) : Num → Num → Prop
  | .nanos _ i, .nanos _ j => agg = .avg → i = j
  | .float f, .float g => f.isFinite = true ∧ g.isFinite = true
  | _, _ => False

/-- A sum is the exact total of some numbers, and summed like each of them. -/
structure SumsExactly (agg : Agg) (xs : List Num) (x : Num) : Prop where
  like : ∀ y ∈ xs, y.Like agg x
  nanos : (xs.map fun y => y.weight .nanos).sum = x.weight .nanos
  units : (xs.map fun y => y.weight .units).sum = x.weight .units

/-! ## Reading the rows of a group -/

section Groups

variable {cal : Calendar} {agg : Agg} {r : Relation} {b : Binding} {vt : ValueType} {oid : Nat}
  {rows : List Tuple} {texts : List (Option String)} {parts : List Part}

/-- What a value's text, or NULL, adds to a fold. -/
def partText (cal : Calendar) (agg : Agg) (vt : ValueType) (oid : Nat) :
    Option String → Except Rebuild Part
  | none => .ok .null
  | some s => partOf cal agg vt oid s

theorem part_of_text {t : Tuple} {x : Option String} (h : text r b t = .ok x) :
    part cal agg r b t vt = partText cal agg vt (valueOid r b) x := by
  unfold part
  rw [h]
  cases x <;> rfl

/-- The parts of some rows. -/
def Parts (cal : Calendar) (agg : Agg) (r : Relation) (b : Binding) (vt : ValueType)
    (rows : List Tuple) (parts : List Part) : Prop :=
  List.Forall₂ (fun t p => part cal agg r b t vt = .ok p) rows parts

theorem parts_of_texts (h : Texts r b rows texts)
    (hp : List.Forall₂ (fun x p => partText cal agg vt (valueOid r b) x = .ok p) texts parts) :
    Parts cal agg r b vt rows parts := by
  induction h generalizing parts with
  | nil =>
      cases hp
      exact .nil
  | cons hx _ ih =>
      cases hp with
      | cons hfirst hrest => exact .cons ((part_of_text hx).trans hfirst) (ih hrest)

/-- Which parts an aggregate makes of a value's text. -/
theorem partOf_cases {s : String} {p : Part} (h : partOf cal agg vt oid s = .ok p) :
    agg = .count ∧ p = .count ∨
      ((agg = .sum ∨ agg = .avg) ∧ ∃ x, Num.parse s (isFloat oid) = .ok x ∧ p = .total x) ∨
      (agg = .min ∨ agg = .max ∨ agg = .countDistinct) ∧ ∃ k, p = .key k := by
  have hsum : (Num.parse s (isFloat oid)).map Part.total = .ok p →
      ∃ x, Num.parse s (isFloat oid) = .ok x ∧ p = .total x := by
    intro hmap
    cases hx : Num.parse s (isFloat oid) with
    | error e =>
        rw [hx] at hmap
        cases hmap
    | ok x =>
        rw [hx] at hmap
        exact ⟨x, rfl, (Except.ok.inj hmap).symm⟩
  have hkey : (do
      let v ← parse cal vt s (decide (oid = BPCHAR))
      let k ← Key.order v
      .ok (.key k) : Except Rebuild Part) = .ok p → ∃ k, p = .key k := by
    intro hdo
    rw [bind_eq_ok_iff] at hdo
    obtain ⟨v, _, hdo⟩ := hdo
    rw [bind_eq_ok_iff] at hdo
    obtain ⟨k, _, hdo⟩ := hdo
    exact ⟨k, (Except.ok.inj hdo).symm⟩
  cases agg with
  | count => exact .inl ⟨rfl, (Except.ok.inj h).symm⟩
  | sum => exact .inr (.inl ⟨.inl rfl, hsum h⟩)
  | avg => exact .inr (.inl ⟨.inr rfl, hsum h⟩)
  | min => exact .inr (.inr ⟨.inl rfl, hkey h⟩)
  | max => exact .inr (.inr ⟨.inr (.inl rfl), hkey h⟩)
  | countDistinct => exact .inr (.inr ⟨.inr (.inr rfl), _, (Except.ok.inj h).symm⟩)

theorem partText_present {x : Option String} {p : Part} (h : partText cal agg vt oid x = .ok p) :
    p.weight .present = if x = none then 0 else 1 := by
  cases x with
  | none =>
      cases h
      rfl
  | some s =>
      rw [if_neg (Option.some_ne_none s)]
      rcases partOf_cases h with ⟨_, rfl⟩ | ⟨_, x, _, rfl⟩ | ⟨_, k, rfl⟩ <;> rfl

theorem tally_present_texts
    (hp : List.Forall₂ (fun x p => partText cal agg vt oid x = .ok p) texts parts) :
    tally parts .present = texts.reduceOption.length := by
  induction hp with
  | nil => rfl
  | @cons x p texts parts hx _ ih =>
      rw [tally_cons, ih, partText_present hx]
      cases x with
      | none => simp
      | some s =>
          rw [List.reduceOption_cons_of_some, List.length_cons]
          simp [add_comm]

theorem tally_eq_zero {s : Stat} (h : ∀ p ∈ parts, p.weight s = 0) : tally parts s = 0 := by
  apply List.sum_eq_zero
  intro x hx
  obtain ⟨p, hp, rfl⟩ := List.mem_map.mp hx
  exact h p hp

theorem tally_replicate (n : Nat) (p : Part) (s : Stat) :
    tally (.replicate n p) s = p.weight s * n := by
  unfold tally
  rw [List.map_replicate, List.sum_replicate, nsmul_eq_mul, mul_comm]

theorem forall₂_replicate {α β : Type} {R : α → β → Prop} {as : List α} {c : β}
    (h : ∀ a ∈ as, R a c) : List.Forall₂ R as (.replicate as.length c) := by
  induction as with
  | nil => exact .nil
  | cons a as ih =>
      exact .cons (h a List.mem_cons_self) (ih fun x hx => h x (List.mem_cons_of_mem a hx))

/-! ### Casts -/

theorem trimEndMatches_idem (c : Char) (s : String) :
    trimEndMatches c (trimEndMatches c s) = trimEndMatches c s := by
  unfold trimEndMatches
  rw [String.toList_ofList, List.reverse_reverse, List.dropWhile_idempotent]

/-- A value's type is that of its column, where an aggregate keeps its values. -/
def ColumnType (vt : ValueType) (oid : Nat) : Prop :=
  (oid = BOOL → vt = .boolean) ∧ (oid = BPCHAR → vt = .text)

/-- A value's text cast to text adds the same to a fold. -/
theorem partOf_castText (hagg : agg = .min ∨ agg = .max ∨ agg = .countDistinct)
    (htype : agg ≠ .countDistinct → ColumnType vt oid) (s : String) :
    partOf cal agg vt oid (castText oid s) = partOf cal agg vt oid s := by
  have hkept : (agg ≠ .countDistinct → parse cal vt (castText oid s) (decide (oid = BPCHAR)) =
        parse cal vt s (decide (oid = BPCHAR))) →
      distinctText oid (castText oid s) = distinctText oid s →
      partOf cal agg vt oid (castText oid s) = partOf cal agg vt oid s := by
    intro hparse hdistinct
    rcases hagg with rfl | rfl | rfl
    · unfold partOf
      rw [hparse (by decide)]
    · unfold partOf
      rw [hparse (by decide)]
    · unfold partOf
      rw [hdistinct]
  by_cases hbool : oid = BOOL
  · have hboolean : agg ≠ .countDistinct → vt = .boolean := fun h => (htype h).1 hbool
    subst hbool
    by_cases ht : s = "t"
    · subst ht
      exact hkept (fun h => by rw [hboolean h]; rfl) (by decide)
    · by_cases hf : s = "f"
      · subst hf
        exact hkept (fun h => by rw [hboolean h]; rfl) (by decide)
      · have hcast : castText BOOL s = s := by
          unfold castText
          rw [if_neg (fun h => ht h.2), if_neg (fun h => hf h.2), if_neg (by decide)]
        rw [hcast]
  · by_cases hchar : oid = BPCHAR
    · have htext : agg ≠ .countDistinct → vt = .text := fun h => (htype h).2 hchar
      subst hchar
      have hcast : castText BPCHAR s = trimEndMatches ' ' s := by
        unfold castText
        rw [if_neg (fun h => hbool h.1), if_neg (fun h => hbool h.1), if_pos rfl]
      rw [hcast] at hkept ⊢
      apply hkept
      · intro h
        rw [htext h]
        unfold parse
        simp only [decide_true, if_true, trimEndMatches_idem]
      · unfold distinctText
        simp only [if_true, trimEndMatches_idem]
    · have hcast : castText oid s = s := by
        unfold castText
        rw [if_neg (fun h => hbool h.1), if_neg (fun h => hbool h.1), if_neg hchar]
      rw [hcast]

end Groups

/-! ## A group's row added to a fold -/

section Seeding

variable {cal : Calendar} {agg : Agg} {vt : ValueType} {oid : Nat} {f : Fold}
  {before parts : List Part}

/-- A row of the seed query added to a fold, and whether the fold is in step. -/
def seedFold (cal : Calendar) (agg : Agg) (vt : ValueType) (oid : Nat) (f : Fold)
    (row : FoldRow) : Except Rebuild (Fold × Bool) :=
  let f := { f with rows := f.rows + (row.all - row.n) }
  match row.value with
  | none => .ok (f.add .count row.n)
  | some s => (partOf cal agg vt oid s).map fun p => f.addGroup p row.n

theorem tally_key_nonneg (parts : List Part) (k : Key) : 0 ≤ tally parts (.key k) := by
  rw [tally_key]
  omega

theorem tally_present_le (parts : List Part) : tally parts .present ≤ tally parts .rows := by
  induction parts with
  | nil => exact le_rfl
  | cons p parts ih =>
      have hpresent := p.weight_present
      rw [tally_cons, tally_cons, Part.weight_rows]
      split at hpresent <;> omega

/-- Rows whose presence alone matters. -/
theorem seed_counted (hf : f.Holds agg (tally before)) {n all : Int}
    (hall : all = parts.length) (hn : n = tally parts .present)
    (hp : ∀ p ∈ parts, p = .null ∨ p = .count) :
    (({ f with rows := f.rows + (all - n) } : Fold).add .count n).2 = true ∧
      (({ f with rows := f.rows + (all - n) } : Fold).add .count n).1.Holds agg
        (tally (parts ++ before)) := by
  have hbefore := tally_rows before
  have hpresent := tally_present_nonneg before
  have hnonneg := tally_present_nonneg parts
  have hadd := (hf.addRows (all - n)).add (p := .count) (k := n)
    (by rw [Function.update_self]; omega)
    (by
      rw [Function.update_of_ne (by decide), show Part.count.weight .present = 1 from rfl]
      omega)
    nofun nofun
  refine ⟨hadd.1, hadd.2.congr fun s => ?_⟩
  rw [tally_append]
  have hzero : s ≠ .rows → s ≠ .present → tally parts s = 0 := by
    intro hrows hpresent
    apply tally_eq_zero
    intro p hmem
    rcases hp p hmem with rfl | rfl
    · cases s <;> first | rfl | exact absurd rfl hrows
    · cases s <;> first | rfl | exact absurd rfl hrows | exact absurd rfl hpresent
  cases s with
  | rows =>
      rw [Function.update_self, Part.weight_rows, tally_rows parts]
      omega
  | present =>
      rw [Function.update_of_ne (by decide), show Part.count.weight .present = 1 from rfl]
      omega
  | _ =>
      rw [Function.update_of_ne (by simp), hzero (by simp) (by simp)]
      simp [Part.weight]

/-- Rows that are all of one part, added at once. -/
theorem seed_same (hf : f.Holds agg (tally before)) {p : Part} (hp : p ≠ .null)
    (hfinite : ∀ x, p = .total x → x.isFinite = false) (n : Nat) :
    (f.add p n).2 = true ∧ (f.add p n).1.Holds agg (tally (.replicate n p ++ before)) := by
  have hbefore := tally_rows before
  have hpresent := tally_present_nonneg before
  have hadd := hf.add (p := p) (k := n) (by omega)
    (by rw [Part.weight_present, if_neg hp]; omega)
    (fun j _ => by have hkey := tally_key_nonneg before j; omega)
    (fun x hx htrue => by rw [hfinite x hx] at htrue; cases htrue)
  refine ⟨hadd.1, hadd.2.congr fun s => ?_⟩
  rw [tally_append, tally_replicate, add_comm]

/-! ### A finite sum -/

/-- What counting a number's kind counts. -/
def Num.counted (x : Num) : Stat → Int
  | .scale i => x.weight (.scale i)
  | .floats => x.weight .floats
  | _ => 0

theorem Fold.Holds.addCount {t : Stat → Int} (h : f.Holds agg t) {x : Num}
    (hx : x.isFinite = true) (k : Int) :
    ({ f with total := f.total.count x k } : Fold).Holds agg fun s => t s + x.counted s * k := by
  have hother : ∀ s, x.counted s = 0 → t s + x.counted s * k = t s := by
    intro s hs
    rw [hs, zero_mul, add_zero]
  have htotal : (f.total.count x k).nanos = f.total.nanos ∧
      (f.total.count x k).float = f.total.float ∧ (f.total.count x k).posInf = f.total.posInf ∧
      (f.total.count x k).negInf = f.total.negInf ∧ (f.total.count x k).nan = f.total.nan := by
    cases x <;> exact ⟨rfl, rfl, rfl, rfl, rfl⟩
  obtain ⟨hnanos, hfloat, hposInf, hnegInf, hnan⟩ := htotal
  constructor
  · rw [hother _ rfl]
    exact h.rows
  · rw [hother _ rfl]
    exact h.n
  · rw [hother _ rfl, hnanos]
    exact h.nanos
  · rw [hother _ rfl, hfloat]
    exact h.float
  · rw [hother _ rfl, hposInf]
    exact h.posInf
  · rw [hother _ rfl, hnegInf]
    exact h.negInf
  · rw [hother _ rfl, hnan]
    exact h.nan
  · intro j
    rw [hother _ rfl]
    exact h.values j
  · intro havg i
    rw [← h.scales havg]
    cases x with
    | nanos n j =>
        simp only [Total.count, Num.counted, Num.weight, Function.update_apply]
        split
        · next hij => rw [hij, one_mul]
        · rw [zero_mul, add_zero]
    | float y => cases y <;> simp_all [Total.count, Num.counted, Num.weight]
  · intro havg
    rw [← h.floats havg]
    cases x with
    | nanos n j => simp [Total.count, Num.counted, Num.weight]
    | float y => cases y <;>
        simp_all [Total.count, Num.counted, Num.weight, Num.isFinite, F64.isFinite]

theorem Num.Like.finite {x y : Num} (h : y.Like agg x) : x.isFinite = true ∧ y.isFinite = true := by
  cases x with
  | nanos n i =>
      cases y with
      | nanos m j => exact ⟨rfl, rfl⟩
      | float g => exact absurd h id
  | float f =>
      cases y with
      | nanos m j => exact absurd h id
      | float g => exact ⟨h.2, h.1⟩

theorem Num.weight_special {x : Num} (hx : x.isFinite = true) :
    x.weight .posInf = 0 ∧ x.weight .negInf = 0 ∧ x.weight .nan = 0 := by
  cases x using Num.kinds with
  | hnanos n i => exact ⟨rfl, rfl, rfl⟩
  | hfinite s u h => exact ⟨rfl, rfl, rfl⟩
  | _ => cases hx

/-- Numbers summed alike are counted alike. -/
theorem Num.Like.weight_eq {x y : Num} (h : y.Like agg x) {s : Stat} (hnanos : s ≠ .nanos)
    (hunits : s ≠ .units) (hscale : ∀ i, s = .scale i → agg = .avg) : y.weight s = x.weight s := by
  cases x with
  | nanos n i =>
      cases y with
      | float g => exact absurd h id
      | nanos m j =>
          cases s with
          | scale l =>
              have hji : j = i := h (hscale l rfl)
              rw [hji]
              rfl
          | nanos => exact absurd rfl hnanos
          | _ => rfl
  | float f =>
      cases y with
      | nanos m j => exact absurd h id
      | float g =>
          obtain ⟨hg, hf⟩ := h
          cases f with
          | finite s₁ u₁ h₁ =>
              cases g with
              | finite s₂ u₂ h₂ =>
                  cases s with
                  | units => exact absurd rfl hunits
                  | _ => rfl
              | _ => cases hg
          | _ => cases hf

theorem sum_weight_of_like {xs : List Num} {x : Num} (h : ∀ y ∈ xs, y.Like agg x) {s : Stat}
    (hnanos : s ≠ .nanos) (hunits : s ≠ .units) (hscale : ∀ i, s = .scale i → agg = .avg) :
    (xs.map fun y => y.weight s).sum = x.weight s * xs.length := by
  have heq : xs.map (fun y => y.weight s) = .replicate xs.length (x.weight s) := by
    rw [List.eq_replicate_iff]
    refine ⟨List.length_map _, fun w hw => ?_⟩
    obtain ⟨y, hy, rfl⟩ := List.mem_map.mp hw
    exact (h y hy).weight_eq hnanos hunits hscale
  rw [heq, List.sum_replicate, nsmul_eq_mul, mul_comm]

theorem Fold.Holds.congr_of {t u : Stat → Int} (h : f.Holds agg t)
    (heq : ∀ s, (∀ i, s = .scale i → agg = .avg) → t s = u s) : f.Holds agg u := by
  have hother : ∀ s, (∀ i, s ≠ .scale i) → t s = u s := fun s hs =>
    heq s fun i hi => absurd hi (hs i)
  constructor
  · rw [← hother _ (by simp)]
    exact h.rows
  · rw [← hother _ (by simp)]
    exact h.n
  · rw [← hother _ (by simp)]
    exact h.nanos
  · rw [← hother _ (by simp)]
    exact h.float
  · rw [← hother _ (by simp)]
    exact h.posInf
  · rw [← hother _ (by simp)]
    exact h.negInf
  · rw [← hother _ (by simp)]
    exact h.nan
  · intro k
    rw [← hother _ (by simp)]
    exact h.values k
  · intro havg i
    rw [← heq _ fun _ _ => havg]
    exact h.scales havg i
  · intro havg
    rw [← hother _ (by simp)]
    exact h.floats havg

/-- The finite numbers of a group, and its NULLs. -/
theorem parts_of_nums (cal : Calendar) (vt : ValueType) (hagg : agg = .sum ∨ agg = .avg)
    {texts : List (Option String)} {xs : List Num}
    (h : List.Forall₂ (fun v y => Num.parse v (isFloat oid) = .ok y) texts.reduceOption xs) :
    ∃ parts, List.Forall₂ (fun x p => partText cal agg vt oid x = .ok p) texts parts ∧
      ∀ s, s ≠ .rows → s ≠ .present → tally parts s = (xs.map fun y => y.weight s).sum := by
  induction texts generalizing xs with
  | nil =>
      cases h
      exact ⟨[], .nil, fun _ _ _ => rfl⟩
  | cons x texts ih =>
      cases x with
      | none =>
          obtain ⟨parts, hparts, htally⟩ := ih h
          refine ⟨.null :: parts, .cons rfl hparts, fun s hrows hpresent => ?_⟩
          rw [tally_cons, htally s hrows hpresent]
          have hzero : Part.null.weight s = 0 := by
            cases s <;> first | rfl | exact absurd rfl hrows
          rw [hzero, zero_add]
      | some v =>
          rw [List.reduceOption_cons_of_some] at h
          cases h with
          | @cons _ y _ ys hy hys =>
              obtain ⟨parts, hparts, htally⟩ := ih hys
              refine ⟨.total y :: parts, .cons ?_ hparts, fun s hrows hpresent => ?_⟩
              · rcases hagg with rfl | rfl
                · exact congrArg (·.map Part.total) hy
                · exact congrArg (·.map Part.total) hy
              · rw [tally_cons, htally s hrows hpresent, List.map_cons, List.sum_cons]
                have hweight : (Part.total y).weight s = y.weight s := by
                  cases s <;> first | rfl | exact absurd rfl hrows | exact absurd rfl hpresent
                rw [hweight]

/-- The exact sum of a group's finite values, which stands for them all. -/
theorem seed_finite (hf : f.Holds agg (tally before)) {x : Num} {xs : List Num} {n all : Int}
    (hxs : xs ≠ []) (hsum : SumsExactly agg xs x) (hall : all = parts.length)
    (hn : n = tally parts .present) (hlen : n = xs.length)
    (htally : ∀ s, s ≠ .rows → s ≠ .present → tally parts s = (xs.map fun y => y.weight s).sum) :
    (({ f with rows := f.rows + (all - n) } : Fold).addGroup (.total x) n).2 = true ∧
      (({ f with rows := f.rows + (all - n) } : Fold).addGroup (.total x) n).1.Holds agg
        (tally (parts ++ before)) := by
  obtain ⟨y, ys, rfl⟩ := List.exists_cons_of_ne_nil hxs
  have hx : x.isFinite = true := (hsum.like y List.mem_cons_self).finite.1
  have hbefore := tally_rows before
  have hpresent := tally_present_nonneg before
  have hle : tally parts .present ≤ tally parts .rows := tally_present_le parts
  have hrows := tally_rows parts
  have hpos : 1 ≤ n := by
    rw [hlen, List.length_cons]
    omega
  have hspecial := Num.weight_special hx
  have hcount := (hf.addRows (all - n)).addCount hx (n - 1)
  have htotal := hcount.add (p := .total x) (k := 1)
    (by rw [Function.update_self]; simp only [Num.counted]; omega)
    (by
      rw [Function.update_of_ne (by decide), show (Part.total x).weight .present = 1 from rfl]
      simp only [Num.counted]
      omega)
    nofun (fun _ _ _ => isFinite_le_one (.inl rfl))
  have hlast := htotal.2.add (p := .count) (k := n - 1)
    (by rw [Function.update_self, Part.weight_rows]; simp only [Num.counted]; omega)
    (by
      rw [Function.update_of_ne (by decide), show (Part.total x).weight .present = 1 from rfl,
        show Part.count.weight .present = 1 from rfl]
      simp only [Num.counted]
      omega)
    nofun nofun
  unfold Fold.addGroup
  simp only [hx, if_true, htotal.1]
  refine ⟨hlast.1, hlast.2.congr_of fun s hscale => ?_⟩
  rw [tally_append]
  have hweight : s ≠ .rows → s ≠ .present → s ≠ .nanos → s ≠ .units →
      tally parts s = x.weight s * n := by
    intro h1 h2 h3 h4
    rw [htally s h1 h2, sum_weight_of_like hsum.like h3 h4 hscale, hlen]
  cases s with
  | rows =>
      rw [Function.update_self, Part.weight_rows, Part.weight_rows]
      simp only [Num.counted]
      omega
  | present =>
      rw [Function.update_of_ne (by decide), show (Part.total x).weight .present = 1 from rfl,
        show Part.count.weight .present = 1 from rfl]
      simp only [Num.counted]
      omega
  | nanos =>
      rw [htally _ (by simp) (by simp), hsum.nanos]
      simp [Num.counted, Part.weight, Function.update, add_comm]
  | units =>
      rw [htally _ (by simp) (by simp), hsum.units]
      simp [Num.counted, Part.weight, Function.update, add_comm]
  | scale i =>
      rw [hweight (by simp) (by simp) (by simp) (by simp)]
      simp only [Num.counted, Part.weight, Function.update, reduceCtorEq, dite_false]
      ring
  | floats =>
      rw [hweight (by simp) (by simp) (by simp) (by simp)]
      simp only [Num.counted, Part.weight, Function.update, reduceCtorEq, dite_false]
      ring
  | key k =>
      rw [hweight (by simp) (by simp) (by simp) (by simp)]
      simp [Num.counted, Part.weight, Function.update]
  | posInf =>
      rw [hweight (by simp) (by simp) (by simp) (by simp)]
      simp [Num.counted, Part.weight, Function.update, hspecial.1]
  | negInf =>
      rw [hweight (by simp) (by simp) (by simp) (by simp)]
      simp [Num.counted, Part.weight, Function.update, hspecial.2.1]
  | nan =>
      rw [hweight (by simp) (by simp) (by simp) (by simp)]
      simp [Num.counted, Part.weight, Function.update, hspecial.2.2]

/-! ### Any group -/

theorem parse_special {s : String} (hs : Special s) {float : Bool} {x : Num}
    (h : Num.parse s float = .ok x) : x.isFinite = false := by
  have heq : Num.parse s float = .ok (.float .nan) ∨
      ∃ neg, Num.parse s float = .ok (.float (.inf neg)) := by
    rcases hs with rfl | rfl | rfl
    · exact .inr ⟨false, by cases float <;> decide +kernel⟩
    · exact .inr ⟨true, by cases float <;> decide +kernel⟩
    · exact .inl (by cases float <;> decide +kernel)
  rcases heq with hnan | ⟨neg, hinf⟩
  · rw [h] at hnan
    cases hnan
    rfl
  · rw [h] at hinf
    cases hinf
    rfl

variable {r : Relation} {b : Binding} {rows : List Tuple} {out : FoldRow}

theorem addGroup_eq {p : Part} (hp : ∀ x, p = .total x → x.isFinite = false) (f : Fold) (n : Int) :
    f.addGroup p n = f.add p n := by
  cases p with
  | total x =>
      unfold Fold.addGroup
      simp only [hp x rfl, Bool.false_eq_true, if_false]
  | _ => rfl

/-- Texts whose presence alone matters. -/
theorem parts_counted (cal : Calendar) (vt : ValueType) (oid : Nat) {texts : List (Option String)}
    (h : agg = .count ∨ ∀ x ∈ texts, x = none) :
    ∃ parts, List.Forall₂ (fun x p => partText cal agg vt oid x = .ok p) texts parts ∧
      ∀ p ∈ parts, p = .null ∨ p = .count := by
  induction texts with
  | nil => exact ⟨[], .nil, fun _ hp => (by cases hp)⟩
  | cons x texts ih =>
      obtain ⟨parts, hparts, hcounted⟩ :=
        ih (h.imp id fun hall y hy => hall y (List.mem_cons_of_mem x hy))
      have hfirst : ∃ p, partText cal agg vt oid x = .ok p ∧ (p = .null ∨ p = .count) := by
        cases x with
        | none => exact ⟨.null, rfl, .inl rfl⟩
        | some s =>
            rcases h with rfl | hall
            · exact ⟨.count, rfl, .inr rfl⟩
            · cases hall (some s) List.mem_cons_self
      obtain ⟨p, hp, hpcounted⟩ := hfirst
      refine ⟨p :: parts, .cons hp hparts, fun q hq => ?_⟩
      rcases List.mem_cons.mp hq with rfl | hq
      · exact hpcounted
      · exact hcounted q hq

theorem reduceOption_length_eq {texts : List (Option String)}
    (h : ∀ x ∈ texts, x ≠ none) : texts.reduceOption.length = texts.length := by
  induction texts with
  | nil => rfl
  | cons x texts ih =>
      cases x with
      | none => exact absurd rfl (h none List.mem_cons_self)
      | some v =>
          rw [List.reduceOption_cons_of_some, List.length_cons, List.length_cons,
            ih fun y hy => h y (List.mem_cons_of_mem _ hy)]

/-- A group's row added to the fold of some rows makes the fold of them and the
group's: it is never out of step. -/
theorem seedFold_spec (hf : f.Holds agg (tally before))
    (hg : GroupOf (SumsExactly agg) r b agg rows out)
    (htype : agg = .min ∨ agg = .max → ColumnType vt (valueOid r b)) {f' : Fold} {ok : Bool}
    (h : seedFold cal agg vt (valueOid r b) f out = .ok (f', ok)) :
    ok = true ∧ ∃ parts, Parts cal agg r b vt rows parts ∧
      f'.Holds agg (tally (parts ++ before)) := by
  obtain ⟨texts, htexts, hn, hvalue⟩ := hg.value
  have hall : out.all = texts.length := by rw [hg.all, htexts.length_eq]
  -- Rows of which only the presence is counted.
  have counted : (agg = .count ∨ ∀ x ∈ texts, x = none) → out.value = none →
      ok = true ∧ ∃ parts, Parts cal agg r b vt rows parts ∧
        f'.Holds agg (tally (parts ++ before)) := by
    intro hcounted hnone
    obtain ⟨parts, hparts, hall'⟩ := parts_counted cal vt (valueOid r b) hcounted
    have hstep := seed_counted hf (show out.all = parts.length by rw [hall, hparts.length_eq])
      (show out.n = tally parts .present by rw [hn, tally_present_texts hparts]) hall'
    unfold seedFold at h
    simp only [hnone, Except.ok.injEq] at h
    rw [h] at hstep
    exact ⟨hstep.1, parts, parts_of_texts htexts hparts, hstep.2⟩
  -- Rows that all have one text.
  have same : ∀ v p, out.value = some v → partOf cal agg vt (valueOid r b) v = .ok p → p ≠ .null →
      (∀ x, p = .total x → x.isFinite = false) →
      (∀ x ∈ texts, x ≠ none ∧ partText cal agg vt (valueOid r b) x = .ok p) →
      ok = true ∧ ∃ parts, Parts cal agg r b vt rows parts ∧
        f'.Holds agg (tally (parts ++ before)) := by
    intro v p hv hp hnull hfinite hsame
    have hparts := forall₂_replicate
      (R := fun x p => partText cal agg vt (valueOid r b) x = .ok p) fun x hx => (hsame x hx).2
    have hlen := reduceOption_length_eq fun x hx => (hsame x hx).1
    have hstep := seed_same hf hnull hfinite texts.length
    unfold seedFold at h
    simp only [hv, hp, Except.map, Except.ok.injEq, hall, hn, hlen, sub_self, add_zero,
      addGroup_eq hfinite] at h
    rw [h] at hstep
    exact ⟨hstep.1, _, parts_of_texts htexts hparts, hstep.2⟩
  -- A sum of finite values.
  have finite : ∀ s xs x, agg = .sum ∨ agg = .avg → out.value = some s →
      List.Forall₂ (fun v y => Num.parse v (isFloat (valueOid r b)) = .ok y)
        texts.reduceOption xs → xs ≠ [] → Num.parse s (isFloat (valueOid r b)) = .ok x →
      SumsExactly agg xs x → ok = true ∧ ∃ parts, Parts cal agg r b vt rows parts ∧
        f'.Holds agg (tally (parts ++ before)) := by
    intro s xs x hagg hs hxs hne hx hsum
    obtain ⟨parts, hparts, htally⟩ := parts_of_nums cal vt hagg hxs
    have hpart : partOf cal agg vt (valueOid r b) s = .ok (.total x) := by
      rcases hagg with rfl | rfl
      · exact congrArg (·.map Part.total) hx
      · exact congrArg (·.map Part.total) hx
    have hstep := seed_finite hf hne hsum
      (show out.all = parts.length by rw [hall, hparts.length_eq])
      (show out.n = tally parts .present by rw [hn, tally_present_texts hparts])
      (by rw [hn, hxs.length_eq]) htally
    unfold seedFold at h
    simp only [hs, hpart, Except.map, Except.ok.injEq] at h
    rw [h] at hstep
    exact ⟨hstep.1, parts, parts_of_texts htexts hparts, hstep.2⟩
  have sums : agg = .sum ∨ agg = .avg → ok = true ∧ ∃ parts,
      Parts cal agg r b vt rows parts ∧ f'.Holds agg (tally (parts ++ before)) := by
    intro hagg
    have hv : (∃ s, Special s ∧ out.value = some s ∧ ∀ x ∈ texts, x = some s) ∨
        (out.value = none ∧ ∀ x ∈ texts, x = none) ∨
        ∃ s xs x, out.value = some s ∧ (∀ v ∈ texts.reduceOption, ¬Special v) ∧
          List.Forall₂ (fun v y => Num.parse v (isFloat (valueOid r b)) = .ok y)
            texts.reduceOption xs ∧
          xs ≠ [] ∧ Num.parse s (isFloat (valueOid r b)) = .ok x ∧ SumsExactly agg xs x := by
      rcases hagg with rfl | rfl <;> exact hvalue
    rcases hv with ⟨s, hspecial, hs, hsame⟩ | ⟨hnone, hnulls⟩ |
      ⟨s, xs, x, hs, -, hxs, hne, hx, hsum⟩
    · unfold seedFold at h
      simp only [hs] at h
      cases hp : partOf cal agg vt (valueOid r b) s with
      | error e =>
          rw [hp] at h
          cases h
      | ok p =>
          obtain ⟨_, rfl⟩ | ⟨_, x, hx, rfl⟩ | ⟨_, k, rfl⟩ := partOf_cases hp
          · rcases hagg with rfl | rfl <;> contradiction
          · refine same s _ hs hp (by simp) (fun y hy => ?_) fun y hy => ?_
            · rw [← Part.total.inj hy]
              exact parse_special hspecial hx
            · rw [hsame y hy]
              exact ⟨Option.some_ne_none s, hp⟩
          · exact same s _ hs hp (by simp) nofun fun y hy => by
              rw [hsame y hy]
              exact ⟨Option.some_ne_none s, hp⟩
    · exact counted (.inr hnulls) hnone
    · exact finite s xs x hagg hs hxs hne hx hsum
  have keys : agg = .min ∨ agg = .max ∨ agg = .countDistinct → ok = true ∧ ∃ parts,
      Parts cal agg r b vt rows parts ∧ f'.Holds agg (tally (parts ++ before)) := by
    intro hagg
    have hv : ∀ x ∈ texts, x.map (castText (valueOid r b)) = out.value := by
      rcases hagg with rfl | rfl | rfl <;> exact hvalue
    have htype' : agg ≠ .countDistinct → ColumnType vt (valueOid r b) := by
      intro hne
      rcases hagg with rfl | rfl | rfl
      · exact htype (.inl rfl)
      · exact htype (.inr rfl)
      · exact absurd rfl hne
    cases hvalue' : out.value with
    | none =>
        rw [hvalue'] at hv
        exact counted (.inr fun x hx => Option.map_eq_none_iff.mp (hv x hx)) hvalue'
    | some v =>
        rw [hvalue'] at hv
        cases hp : partOf cal agg vt (valueOid r b) v with
        | error e =>
            unfold seedFold at h
            simp only [hvalue', hp] at h
            cases h
        | ok p =>
            have hsame : ∀ x ∈ texts,
                x ≠ none ∧ partText cal agg vt (valueOid r b) x = .ok p := by
              intro x hx
              obtain ⟨s, rfl, hs⟩ := Option.map_eq_some_iff.mp (hv x hx)
              refine ⟨Option.some_ne_none s, ?_⟩
              change partOf cal agg vt (valueOid r b) s = .ok p
              rw [← partOf_castText hagg htype', hs, hp]
            have hkey : ∃ k, p = .key k := by
              rcases partOf_cases hp with ⟨hcount, _⟩ | ⟨hsum, _⟩ | ⟨_, hk⟩
              · rcases hagg with rfl | rfl | rfl <;> cases hcount
              · rcases hagg with rfl | rfl | rfl <;> rcases hsum with h | h <;> cases h
              · exact hk
            obtain ⟨k, rfl⟩ := hkey
            exact same v _ hvalue' hp (by simp) nofun hsame
  cases agg with
  | count => exact counted (.inl rfl) hvalue
  | sum => exact sums (.inl rfl)
  | avg => exact sums (.inr rfl)
  | min => exact keys (.inl rfl)
  | max => exact keys (.inr (.inl rfl))
  | countDistinct => exact keys (.inr (.inr rfl))

end Seeding

end Improv.PgModel
