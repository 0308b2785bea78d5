import Improv.Engine.Reduce
/-!
# The two-level reduce

The decomposable reductions over one category of many items: a group's rows
split into blocks, each block reduces to a part in item order, and the parts
merge into the result.  `PRODUCT` and `SUMSQ` are a fixed two-level fold; the
others give what the flat reduction gives.
-/

namespace Improv.Engine.TwoLevel

open Lib CoreModel Kernels

/-- The most items a reduced category may have and still reduce flat. -/
def FLAT_MAX : Nat := 1024

/-- Whether an aggregation with a single result per group reduces in two
levels. -/
def applies (func : FuncId) (nIn nParams : Nat) (order : ItemOrder) : Bool :=
  (decide (1 ≤ func.id ∧ func.id ≤ 9) || func.id == 1005 || func.id == 1006) &&
    nIn == 1 && nParams == 0 &&
    match order with
    | [(_, items)] => decide (FLAT_MAX < items.length)
    | _ => false

/-- A run of rows reduced: what merging needs to finish any of the decomposable
reductions. -/
structure Part where
  /-- The rows. -/
  n : Nat
  /-- The first error in item order: its position and code. -/
  err : Option (Nat × Nat)
  /-- A value the reduction cannot read. -/
  bad : Bool
  /-- The numbers (`COUNT`), or the true values (`AND`, `OR`, `XOR`). -/
  k : Nat
  /-- `MIN`, `MAX`, `PRODUCT`, `SUMSQ`: the accumulator, as bits. -/
  acc : UInt64
  /-- `SUM`, `AVERAGE`: the rows' exact sum. -/
  sum : Exact
deriving DecidableEq

/-- No rows. -/
def Part.empty (n : Nat) : Part := ⟨n, none, false, 0, 0, ⟨0, [], .none⟩⟩

/-- The accumulator's start and step of `id`'s fold. -/
def foldOf (id : Nat) : F64 × (F64 → F64 → F64) :=
  match id with
  | 3 => (.inf false, Builtins.min)
  | 4 => (.inf true, Builtins.max)
  | 5 => (.ofNat 1, F64.mul)
  | 6 => (F64.zero.neg, fun a x => a.add (x.mul x))
  -- SUM and AVERAGE add exactly; the rest do not fold.
  | _ => (F64.zero.neg, fun a _ => a)

/-! ## One part -/

/-- A part on the way, its accumulator and its sum. -/
structure State where
  p : Part
  acc : F64
  sum : ExactSum

namespace State

variable (id : Nat)

def step (s : State) (x : F64) : Option State :=
  if id = 1 ∨ id = 2 then (s.sum.add x).map fun sum => { s with sum }
  else some { s with acc := (foldOf id).2 s.acc x }

def setBad (s : State) : State := { s with p := { s.p with bad := true } }

def count (s : State) (b : Bool) : State := { s with p := { s.p with k := s.p.k + b.toNat } }

/-- One row's value. -/
def addRow (s : State) (pos : List Nat) (v : CellValue) : Option State :=
  match v with
  | .err c => pos.head?.map fun pos =>
    { s with p := { s.p with err := s.p.err.or (some (pos, c)) } }
  | v =>
    if id = 1005 then some (s.count (isNumber v))
    else if id = 1006 then some s
    else if 7 ≤ id ∧ id ≤ 9 then
      match v with
      | .bool b => some (s.count b)
      | .num x => some (s.count !(F64.ofBits x).eq .zero)
      | _ => some s.setBad
    else
      match v with
      | .num x => s.step id (.ofBits x)
      | .bool b => s.step id (.ofNat b.toNat)
      | .date ms => s.step id (.ofInt ms)
      | _ => some s.setBad

end State

/-- `rows`, in item order, reduced to a part for `func`. -/
def part (func : FuncId) (rows : Rows) : Option Part := do
  let start : State := ⟨.empty rows.vals.length, (foldOf func.id).1, .default⟩
  let s ← (rows.pos.zip rows.vals).foldlM (fun s r => do
    let v ← r.2.head?
    s.addRow func.id r.1 v) start
  if func.id = 1 ∨ func.id = 2 then do
    let (e, _) ← s.sum.exact
    some { s.p with sum := e }
  else some { s.p with acc := s.acc.toBits }

/-! ## Merging -/

/-- The lesser of two errors: by position, then by code. -/
def minErr (a b : Nat × Nat) : Nat × Nat :=
  if b.1 < a.1 ∨ (b.1 = a.1 ∧ b.2 < a.2) then b else a

/-- The first error of two runs of rows. -/
def mergeErr : Option (Nat × Nat) → Option (Nat × Nat) → Option (Nat × Nat)
  | some a, some b => some (minErr a b)
  | a, b => a.or b

/-- How two accumulators combine. -/
def combine (id : Nat) : F64 → F64 → F64 :=
  match id with
  | 3 => Builtins.min
  | 4 => Builtins.max
  | 5 => F64.mul
  | _ => F64.add

/-- One more part. -/
def State.addPart (id : Nat) (s : State) (p : Part) : Option State :=
  let out : Part := { s.p with
    n := s.p.n + p.n
    k := s.p.k + p.k
    bad := s.p.bad || p.bad
    err := mergeErr s.p.err p.err }
  if id = 1 ∨ id = 2 then (s.sum.addExact p.sum).map fun sum => { s with p := out, sum }
  else some { s with p := out, acc := combine id s.acc (.ofBits p.acc) }

/-- `parts` merged into one. -/
def merge (func : FuncId) (parts : List Part) : Option Part := do
  let start : State := ⟨.empty 0, (foldOf func.id).1, .default⟩
  let s ← parts.foldlM (State.addPart func.id) start
  if func.id = 1 ∨ func.id = 2 then do
    let (e, _) ← s.sum.exact
    some { s.p with sum := e }
  else some { s.p with acc := s.acc.toBits }

/-- The result of `func` from its group's merged part. -/
def finish (func : FuncId) (p : Part) : CellValue :=
  if func.id = 1005 then .ofF64 (.ofNat p.k)
  else if func.id = 1006 then .ofF64 (.ofNat p.n)
  else
    match p.err with
    | some (_, c) => .err c
    | none =>
      if p.bad then .err Err.VALUE
      else
        let acc := if func.id = 1 ∨ func.id = 2 then p.sum.value else .ofBits p.acc
        match func.id with
        | 2 => num (acc.div (.ofNat p.n))
        | 7 => .bool (p.k = p.n)
        | 8 => .bool (0 < p.k)
        | 9 => .bool (p.k % 2 = 1)
        | _ => num acc

/-! ## A group's results -/

/-- The results of a group that reduces flat: none where it has no rows. -/
def flatGroup (families : Families) (func : FuncId) (rs : Rows) (params : List CellValue) :
    Option (List CellValue) :=
  if rs.vals.isEmpty then some []
  else (reduce families func rs params).map ([·])

/-- The results of a group that reduces in two levels: each block with rows
reduces to a part, the parts, if any, to the result. -/
def twoLevelGroup (func : FuncId) (blocks : List Rows) : Option (List CellValue) := do
  let parts ← (blocks.filter fun rs => !rs.vals.isEmpty).mapM (part func)
  if parts.isEmpty then some []
  else do
    let p ← merge func parts
    some [finish func p]

end Improv.Engine.TwoLevel

/-!
## What a part holds

A part is told by its rows: how many there are, the first error among them,
whether one is unreadable, how many count, and the fold and the exact sum of
their numbers.  A merge is told by its parts in the same terms.
-/

namespace Improv.Engine.TwoLevel

open Lib CoreModel Kernels Builtins

variable {id : Nat}

/-! ## Rows -/

/-- A row: its item's position and its value. -/
abbrev Row := Nat × CellValue

/-- Some rows as the reductions take them. -/
def rowsOf (capacity : Nat) (l : List Row) : Rows :=
  ⟨l.map fun r => [r.1], l.map fun r => [r.2], capacity⟩

/-- The numbers of some rows. -/
def numbersOf (l : List Row) : List F64 := l.filterMap fun r => number r.2

/-- The positions and codes of the errors of some rows. -/
def errorsOf (l : List Row) : List (Nat × Nat) :=
  l.filterMap fun r => match r.2 with
    | .err c => some (r.1, c)
    | _ => none

/-- A value that `COUNT` or a logical reduction counts. -/
def counted (id : Nat) (v : CellValue) : Bool :=
  if id = 1005 then isNumber v else decide (7 ≤ id ∧ id ≤ 9) && isTrue v

/-- A value, no error, that the reduction cannot read. -/
def unreadable (id : Nat) (v : CellValue) : Bool :=
  !v.isErr && decide (id ≤ 9) && !readable id v

/-- A number joins the exact sum of `SUM` or `AVERAGE`. -/
def sumStep (id : Nat) (sum : ExactSum) (x : F64) : Option ExactSum :=
  if id = 1 ∨ id = 2 then sum.add x else some sum

/-- The reductions that apply in two levels. -/
def Decomposable (id : Nat) : Prop := (1 ≤ id ∧ id ≤ 9) ∨ id = 1005 ∨ id = 1006

/-- A state after some rows more. -/
def State.after (id : Nat) (s : State) (l : List Row) (sum : ExactSum) : State where
  p := { s.p with
    err := s.p.err.or (errorsOf l).head?
    bad := s.p.bad || l.any fun r => unreadable id r.2
    k := s.p.k + l.countP fun r => counted id r.2 }
  acc := (numbersOf l).foldl (foldOf id).2 s.acc
  sum := sum

theorem Decomposable.cases (hid : Decomposable id) :
    id = 1005 ∨ id = 1006 ∨ (7 ≤ id ∧ id ≤ 9) ∨ (1 ≤ id ∧ id ≤ 6) := by
  unfold Decomposable at hid
  omega

theorem foldOf_of_ge (h : 7 ≤ id) : (foldOf id).2 = fun a _ => a := by
  unfold foldOf
  split
  · omega
  · omega
  · omega
  · omega
  · rfl

theorem number_bool (b : Bool) : number (.bool b) = some (.ofNat b.toNat) := by
  have hzero : F64.ofNat 0 = .zero := by decide +kernel
  cases b with
  | true => rw [Bool.toNat_true]; rfl
  | false => rw [Bool.toNat_false, hzero]; rfl

/-- A state after one row more. -/
theorem after_single (s : State) (pos : Nat) (v : CellValue) (sum : ExactSum) :
    s.after id [(pos, v)] sum =
      ⟨{ s.p with
          err := s.p.err.or (errorsOf [(pos, v)]).head?
          bad := s.p.bad || unreadable id v
          k := s.p.k + (counted id v).toNat },
        (number v).toList.foldl (foldOf id).2 s.acc, sum⟩ := by
  unfold State.after numbersOf
  rw [List.any_cons, List.any_nil, Bool.or_false, List.countP_singleton]
  congr 2
  cases counted id v <;> rfl

theorem foldlM_single (sum : ExactSum) (pos : Nat) (v : CellValue) :
    (numbersOf [(pos, v)]).foldlM (sumStep id) sum =
      (number v).elim (some sum) (sumStep id sum) := by
  unfold numbersOf
  cases h : number v with
  | none => rw [List.filterMap_cons_none (f := fun r : Row => number r.2) h]; rfl
  | some x =>
      rw [List.filterMap_cons_some (f := fun r : Row => number r.2) h, List.filterMap_nil,
        List.foldlM_cons]
      exact Option.bind_fun_some _

theorem foldl_foldOf (h : 7 ≤ id) (xs : List F64) (acc : F64) :
    xs.foldl (foldOf id).2 acc = acc := by
  rw [foldOf_of_ge h]
  induction xs with
  | nil => rfl
  | cons x xs ih => exact ih

theorem elim_sumStep (h : 3 ≤ id) (sum : ExactSum) (x : Option F64) :
    x.elim (some sum) (sumStep id sum) = some sum := by
  cases x with
  | none => rfl
  | some x =>
      show sumStep id sum x = some sum
      unfold sumStep
      rw [if_neg (by omega)]

theorem step_eq (s : State) (x : F64) : s.step id x =
    (sumStep id s.sum x).map fun sum => ⟨s.p, (foldOf id).2 s.acc x, sum⟩ := by
  unfold State.step sumStep
  by_cases h : id = 1 ∨ id = 2
  · rw [if_pos h, if_pos h]
    have hfold : (foldOf id).2 s.acc x = s.acc := by
      cases h with
      | inl h => rw [h]; rfl
      | inr h => rw [h]; rfl
    rw [hfold]
  · rw [if_neg h, if_neg h, Option.map_some]

/-- What a value that is no error does to a state. -/
theorem addRow_value {v : CellValue} (hv : v.isErr = false) (s : State) (pos : List Nat) :
    s.addRow id pos v =
      if id = 1005 then some (s.count (isNumber v))
      else if id = 1006 then some s
      else if 7 ≤ id ∧ id ≤ 9 then some ((flag v).elim s.setBad s.count)
      else (number v).elim (some s.setBad) (s.step id) := by
  cases v with
  | num x => rfl
  | bool b => rw [number_bool]; rfl
  | text t => rfl
  | date ms => rfl
  | err c => cases hv

theorem errorsOf_value {v : CellValue} (hv : v.isErr = false) (pos : Nat) :
    errorsOf [(pos, v)] = [] := by
  cases v <;> first | rfl | cases hv

/-- One more row. -/
theorem addRow_eq (hid : Decomposable id) (s : State) (pos : Nat) (v : CellValue) :
    s.addRow id [pos] v =
      ((numbersOf [(pos, v)]).foldlM (sumStep id) s.sum).map (s.after id [(pos, v)]) := by
  rw [foldlM_single, funext (after_single s pos v)]
  cases hv : v.isErr with
  | true =>
      obtain ⟨c, rfl⟩ : ∃ c, v = .err c := by
        cases v with
        | err c => exact ⟨c, rfl⟩
        | _ => cases hv
      have hcount : counted id (.err c) = false := by
        unfold counted
        split
        · rfl
        · exact Bool.and_false _
      rw [hcount]
      simp [State.addRow, number, n, unreadable, CellValue.isErr, errorsOf, Except.toOption]
  | false =>
      rw [addRow_value hv, errorsOf_value hv, List.head?_nil, Option.or_none]
      unfold unreadable counted
      rw [hv, Bool.not_false, Bool.true_and]
      obtain rfl | rfl | h7 | h1 := hid.cases
      · rw [elim_sumStep (by omega), foldl_foldOf (by omega), if_pos rfl, Option.map_some,
          decide_eq_false (by omega), Bool.false_and, Bool.or_false, if_pos rfl]
        rfl
      · rw [elim_sumStep (by omega), foldl_foldOf (by omega), if_neg (by omega), if_pos rfl,
          Option.map_some, decide_eq_false (by omega), Bool.false_and, Bool.or_false,
          if_neg (by omega), decide_eq_false (by omega)]
        rfl
      · rw [elim_sumStep (by omega), foldl_foldOf h7.1, if_neg (by omega), if_neg (by omega),
          if_pos h7, Option.map_some, decide_eq_true h7.2, Bool.true_and, if_neg (by omega),
          decide_eq_true h7, Bool.true_and]
        unfold readable Builtins.isTrue
        rw [if_pos h7.1]
        cases flag v with
        | none =>
            rw [Option.isSome_none, Bool.not_false, Bool.or_true]
            rfl
        | some b =>
            rw [Option.isSome_some, Bool.not_true, Bool.or_false]
            cases b <;> rfl
      · rw [if_neg (by omega), if_neg (by omega), if_neg (by omega), decide_eq_true (by omega),
          Bool.true_and, if_neg (by omega), decide_eq_false (by omega), Bool.false_and]
        unfold readable
        rw [if_neg (by omega)]
        cases number v with
        | none =>
            rw [Option.isSome_none, Bool.not_false, Bool.or_true]
            rfl
        | some x =>
            rw [Option.isSome_some, Bool.not_true, Bool.or_false]
            exact step_eq s x

theorem errorsOf_cons (r : Row) (l : List Row) : errorsOf (r :: l) = errorsOf [r] ++ errorsOf l :=
  List.filterMap_append (l := [r])

theorem numbersOf_cons (r : Row) (l : List Row) :
    numbersOf (r :: l) = numbersOf [r] ++ numbersOf l :=
  List.filterMap_append (l := [r])

theorem after_cons (s : State) (r : Row) (l : List Row) (sum sum' : ExactSum) :
    (s.after id [r] sum).after id l sum' = s.after id (r :: l) sum' := by
  unfold State.after
  rw [errorsOf_cons r l, numbersOf_cons r l, List.foldl_append, List.any_cons,
    List.any_cons, List.any_nil,
    Bool.or_false, List.countP_cons, List.countP_cons, List.countP_nil, List.head?_append]
  dsimp only
  rw [Option.or_assoc, Bool.or_assoc]
  congr 2
  omega

/-- Some rows more. -/
theorem foldlM_addRow (hid : Decomposable id) (l : List Row) (s : State) :
    ((l.map fun r => [r.1]).zip (l.map fun r => [r.2])).foldlM (fun s r => do
        let v ← r.2.head?
        s.addRow id r.1 v) s =
      ((numbersOf l).foldlM (sumStep id) s.sum).map (s.after id l) := by
  induction l generalizing s with
  | nil =>
      show some s = some (s.after id [] s.sum)
      unfold State.after
      simp [errorsOf, numbersOf]
  | cons r l ih =>
      rw [List.map_cons, List.map_cons, List.zip_cons_cons, List.foldlM_cons, numbersOf_cons,
        List.foldlM_append]
      show (s.addRow id [r.1] r.2).bind _ = _
      rw [addRow_eq hid]
      show ((List.foldlM (sumStep id) s.sum (numbersOf [r])).map _).bind _ = _
      cases List.foldlM (sumStep id) s.sum (numbersOf [r]) with
      | none => rfl
      | some sum =>
          rw [Option.map_some, Option.bind_some, ih]
          show Option.map _ (List.foldlM (sumStep id) sum (numbersOf l)) =
            Option.map _ (List.foldlM (sumStep id) sum (numbersOf l))
          congr 1
          funext sum'
          exact after_cons s r l sum sum'

/-! ## Parts -/

/-- A part tells its rows. -/
structure Tells (id : Nat) (l : List Row) (P : Part) : Prop where
  n : P.n = l.length
  err : P.err = (errorsOf l).head?
  bad : P.bad = l.any fun r => unreadable id r.2
  k : P.k = l.countP fun r => counted id r.2
  acc : ¬(id = 1 ∨ id = 2) → P.acc = ((numbersOf l).foldl (foldOf id).2 (foldOf id).1).toBits
  sum : id = 1 ∨ id = 2 → (Grouping.oneByOne (numbersOf l)).exact = some P.sum

theorem run_foldl_term (xs : List F64) (g : Grouping) :
    (xs.foldl Grouping.term g).run = g.run.bind fun a => xs.foldlM ExactSum.add a := by
  induction xs generalizing g with
  | nil => exact (Option.bind_fun_some _).symm
  | cons x xs ih =>
      rw [List.foldl_cons, ih]
      show (g.run.bind fun a => a.add x).bind _ = _
      rw [Option.bind_assoc]
      rfl

theorem run_oneByOne (xs : List F64) :
    (Grouping.oneByOne xs).run = xs.foldlM ExactSum.add .default := run_foldl_term xs .nil

theorem foldlM_sumStep (xs : List F64) (sum : ExactSum) : xs.foldlM (sumStep id) sum =
    if id = 1 ∨ id = 2 then xs.foldlM ExactSum.add sum else some sum := by
  split
  · next h =>
    have hstep : sumStep id = ExactSum.add := by
      funext sum x
      unfold sumStep
      rw [if_pos h]
    rw [hstep]
  · next h =>
    induction xs with
    | nil => rfl
    | cons x xs ih =>
        rw [List.foldlM_cons]
        unfold sumStep at ih ⊢
        rw [if_neg h, Option.bind_eq_bind, Option.bind_some]
        exact ih

/-- Rows reduce to a part that tells them. -/
theorem part_spec (hid : Decomposable id) (capacity : Nat) (l : List Row)
    (hlen : id = 1 ∨ id = 2 → l.length < 2 ^ 45) :
    ∃ P, part ⟨id⟩ (rowsOf capacity l) = some P ∧ Tells id l P := by
  have hrows := foldlM_addRow hid l ⟨.empty l.length, (foldOf id).1, .default⟩
  rw [foldlM_sumStep] at hrows
  unfold part rowsOf
  rw [List.length_map]
  dsimp only
  by_cases h : id = 1 ∨ id = 2
  · rw [if_pos h, ← run_oneByOne] at hrows
    have hcard : (Grouping.oneByOne (numbersOf l)).terms.card < 2 ^ 45 := by
      rw [Grouping.terms_oneByOne, Multiset.coe_card]
      exact (List.length_filterMap_le _ _).trans_lt (hlen h)
    obtain ⟨d, hexp, hexact⟩ := Grouping.exact_spec hcard (Grouping.inRange_oneByOne _)
    have hexact' := hexact
    unfold Grouping.exact at hexact'
    rw [Option.bind_eq_bind, Option.bind_eq_some_iff] at hexact'
    obtain ⟨a, hrun, hread⟩ := hexact'
    rw [Option.bind_eq_bind, Option.bind_eq_some_iff] at hread
    obtain ⟨⟨e, a'⟩, hread, heq⟩ := hread
    cases heq
    rw [hrun, Option.map_some] at hrows
    rw [hrows, Option.bind_eq_bind, Option.bind_some, if_pos h]
    show ∃ P, (a.exact.bind _) = some P ∧ _
    rw [hread]
    exact ⟨_, rfl, rfl, Option.none_or, Bool.false_or _, Nat.zero_add _, fun hne => absurd h hne,
      fun _ => hexact⟩
  · rw [if_neg h, Option.map_some] at hrows
    rw [hrows, Option.bind_eq_bind, Option.bind_some, if_neg h]
    exact ⟨_, rfl, rfl, Option.none_or, Bool.false_or _, Nat.zero_add _, fun _ => rfl,
      fun hc => absurd hc h⟩

end Improv.Engine.TwoLevel
