import Improv.Engine.Scalar
import Improv.Lib.Bag
/-!
# The dataflow of a plan

The collection each plan node's operator holds: a multiset of rows, one
coordinate and one value each.  Arrangements a measure's readers share hold the
rows of the measure's collection, so the collections are described without
them.
-/

namespace Improv.Engine

open Improv.Lib Improv.Lib.SparseKey Improv.CoreModel

/-- A collection of cells. -/
abbrev Coll := Multiset (CoordKey × CellValue)

/-- A collection of rows of values. -/
abbrev Lines := Multiset (CoordKey × List CellValue)

/-- Why a plan has no collection.  `panicked` marks a plan the compiler never
makes. -/
inductive BuildError
  | unsupported (text : String)
  | panicked
deriving DecidableEq

/-! ## Plans compared -/

/-- Values compared as the program compares them: numbers as numbers. -/
def sameValue : Value → Value → Bool
  | .number x, .number y => x.eq y
  | v, w => decide (v = w)

mutual

def sameExpr : Expr → Expr → Bool
  | .literal v, .literal w => sameValue v w
  | .ref m s, .ref n t => decide (m = n ∧ s = t)
  | .unaryOp o a, .unaryOp p b => decide (o = p) && sameExpr a b
  | .binaryOp o a b, .binaryOp p c d => decide (o = p) && sameExpr a c && sameExpr b d
  | .call f as, .call g bs => decide (f = g) && sameExprs as bs
  | .category c, .category d => decide (c = d)
  | _, _ => false

def sameExprs : List Expr → List Expr → Bool
  | [], [] => true
  | a :: as, b :: bs => sameExpr a b && sameExprs as bs
  | _, _ => false

end

def sameSlot (s t : Slot) : Bool :=
  decide (s.id = t.id ∧ s.back = t.back) &&
    match s.default, t.default with
    | some d, some e => sameExpr d e
    | none, none => true
    | _, _ => false

def sameItems : List (ItemId × Value) → List (ItemId × Value) → Bool
  | [], [] => true
  | a :: as, b :: bs => decide (a.1 = b.1) && sameValue a.2 b.2 && sameItems as bs
  | _, _ => false

def sameSlots : List Slot → List Slot → Bool
  | [], [] => true
  | a :: as, b :: bs => sameSlot a b && sameSlots as bs
  | _, _ => false

mutual

/-- `==` on plans. -/
def samePlan : PlanNode → PlanNode → Bool
  | .inputMeasure m t, .inputMeasure n u => decide (m = n ∧ t = u)
  | .literal v t, .literal w u => sameValue v w && decide (t = u)
  | .mapUnary o a t, .mapUnary p b u => decide (o = p ∧ t = u) && samePlan a b
  | .mapBinary o a b t, .mapBinary p c d u =>
    decide (o = p ∧ t = u) && samePlan a c && samePlan b d
  | .join a b ks t, .join c d ls u => decide (ks = ls ∧ t = u) && samePlan a c && samePlan b d
  | .aggregate is ps p g f o w r n l t, .aggregate is' ps' p' g' f' o' w' r' n' l' t' =>
    decide (g = g' ∧ f = f' ∧ o = o' ∧ w = w' ∧ r = r' ∧ n = n' ∧ l = l' ∧ t = t') &&
      samePlans is is' && samePlans ps ps' && samePlanOpt p p'
  | .items c v t, .items d w u => decide (c = d ∧ t = u) && sameItems v w
  | .recurrence e is rs ss c o t, .recurrence e' is' rs' ss' c' o' t' =>
    decide (is = is' ∧ c = c' ∧ o = o' ∧ t = t') && sameExpr e e' && samePlans rs rs' &&
      sameSlots ss ss'
  | .coalesce as g t, .coalesce bs h u => decide (g = h ∧ t = u) && samePlans as bs
  | .remap a m t, .remap b n u => decide (m = n ∧ t = u) && samePlan a b
  | .shift a c n o d t, .shift a' c' n' o' d' t' =>
    decide (c = c' ∧ n = n' ∧ o = o' ∧ t = t') && samePlan a a' && samePlanOpt d d'
  | .funcCall f as t, .funcCall g bs u => decide (f = g ∧ t = u) && samePlans as bs
  | .fixpoint a b n x t, .fixpoint a' b' n' x' t' =>
    decide (n = n' ∧ t = t') && x.eq x' && sameExpr a a' && sameExpr b b'
  | .cond a b c s t, .cond a' b' c' s' t' =>
    decide (s = s' ∧ t = t') && samePlan a a' && samePlan b b' && samePlanOpt c c'
  | _, _ => false

def samePlans : List PlanNode → List PlanNode → Bool
  | [], [] => true
  | a :: as, b :: bs => samePlan a b && samePlans as bs
  | _, _ => false

def samePlanOpt : Option PlanNode → Option PlanNode → Bool
  | none, none => true
  | some a, some b => samePlan a b
  | _, _ => false

end

/-! ## Alignment -/

/-- The constant cell of a literal. -/
def literalValue : PlanNode → Option CellValue
  | .literal v _ => some (.fromModelValue v)
  | _ => none

/-- A literal or a negated one, as the dataflow would compute it. -/
def folded : PlanNode → Option CellValue
  | .mapUnary .neg inner _ => (literalValue inner).map (Kernels.applyUnary .neg)
  | p => literalValue p

/-- The categories both nodes range over. -/
def sharedCats (a b : PlanNode) : List CategoryId := a.cats.filter (· ∈ b.cats)

/-- `left op right` with `left` the compiler's broadcast onto `right`: what is
broadcast, and the join's keys. -/
def broadcastOf (left right : PlanNode) : Option (PlanNode × List CategoryId) :=
  match left with
  | .join a b keys _ => if samePlan b right then some (a, keys) else none
  | _ => none

/-- The part of a coordinate on some categories. -/
def projectKey (k : CoordKey) (keep : List CategoryId) : CoordKey :=
  project k (keep.map (·.id))

/-- Every pair of cells that agree on `keys`, at the union of their
coordinates. -/
def align {V : Type} (l : Multiset (CoordKey × V)) (r : Coll) (keys : List CategoryId) :
    Multiset (CoordKey × V × CellValue) :=
  Bag.join (fun a => projectKey a.1 keys) (fun b => projectKey b.1 keys)
    (fun a b => (union a.1 b.1, a.2, b.2)) l r

/-- Rows extended with another collection's value, aligned on `keys`. -/
def alignValue (rows : Lines) (c : Coll) (keys : List CategoryId) : Lines :=
  (align rows c keys).map fun x => (x.1, x.2.1 ++ [x.2.2])

/-- Rows over `dim` extended with each node's values in turn, aligned on the
categories already there; a node ranges over its own categories and `extra`. -/
def alignAll (extra : List CategoryId) :
    Lines → List CategoryId → List (PlanNode × Coll) → Lines
  | rows, _, [] => rows
  | rows, dim, (n, c) :: rest =>
    alignAll extra (alignValue rows c ((n.cats ++ extra).filter (· ∈ dim)))
      (dim ++ (n.cats ++ extra).filter (· ∉ dim)) rest

/-- The categories rows range over after `alignAll`. -/
def alignedCats (extra : List CategoryId) :
    List CategoryId → List PlanNode → List CategoryId
  | dim, [] => dim
  | dim, n :: rest => alignedCats extra (dim ++ (n.cats ++ extra).filter (· ∉ dim)) rest

/-- A constant at the empty coordinate. -/
def constant (v : CellValue) : Coll := {([], v)}

/-- Cells as rows of one value. -/
def oneEach (c : Coll) : Lines := c.map fun x => (x.1, [x.2])

/-! ## Aggregations -/

/-- The most items a reduced category may have and still reduce flat. -/
def flatMax : Nat := 1024

/-- The block of an item. -/
def blockOf (id : Nat) : Nat := id >>> 10

/-- Whether an aggregation with one result reduces in two levels. -/
def twoLevelApplies (func : FuncId) (inputs params : Nat) (order : ItemOrder) : Bool :=
  (decide (1 ≤ func.id ∧ func.id ≤ 9) || decide (func.id = 1005 ∨ func.id = 1006)) &&
    decide (inputs = 1) && decide (params = 0) &&
    match order with
    | [(_, items)] => decide (flatMax < items.length)
    | _ => false

/-- The last position of an item. -/
def positionOf (order : List ItemId) (item : Nat) : Option Nat :=
  (order.zipIdx.reverse.find? fun x => x.1.id = item).map (·.2)

/-- An item's sort position: unknown items by id after known ones. -/
def sortPosition (order : List ItemId) (item : Nat) : Nat :=
  (positionOf order item).getD ((u32Max / 2 + item) % 2 ^ 32)

/-- A coordinate's item of a category, 0 when it has none. -/
def itemOf (k : CoordKey) (c : CategoryId) : Nat := (lookup k c.id).getD 0

/-- A reduction row: the item positions along the reduced categories, the first
reduced category's item, the values. -/
abbrev AggRow := (List Nat ×ₗ Nat) ×ₗ List CellValue

def aggRow (order : ItemOrder) (k : CoordKey) (vs : List CellValue) : AggRow :=
  toLex (toLex (order.map fun o => sortPosition o.2 (itemOf k o.1),
    (order.head?.map fun o => itemOf k o.1).getD 0), vs)

/-- A row under its group's key. -/
def aggKey (order : ItemOrder) (groupBy : List CategoryId) (x : CoordKey × List CellValue) :
    CoordKey × AggRow :=
  (projectKey x.1 groupBy, aggRow order x.1 x.2)

/-- The constants with the joined values in the other places. -/
def fillParams : (consts : List (Option CellValue)) → List CellValue → List CellValue
  | [], _ => []
  | some v :: consts, joined => v :: fillParams consts joined
  | none :: consts, v :: joined => v :: fillParams consts joined
  | none :: consts, [] => .err Err.NA :: fillParams consts []

/-- A group's rows as the reductions take them. -/
def aggRows (inputs capacity : Nat) (group : List AggRow) : Rows where
  pos := group.map fun r => (ofLex (ofLex r).1).1
  vals := group.map fun r => (ofLex r).2.take inputs
  capacity := capacity

/-- A group's parameters, the joined ones from its first row. -/
def aggParams (inputs : Nat) (consts : List (Option CellValue)) (group : List AggRow) :
    List CellValue :=
  fillParams consts ((group.head?.map fun r => (ofLex r).2.drop inputs).getD [])

/-- Each row's item of the first reduced category. -/
def aggItems (group : List AggRow) : List Nat := group.map fun r => (ofLex (ofLex r).1).2

/-- A row under a `WHERE` condition: kept where it is true, the error where it
is one. -/
def whereRow (vs : List CellValue) : CellValue → Option (List CellValue)
  | .bool true => some vs
  | .err c => some (vs.map fun _ => .err c)
  | _ => none

/-- Every item combination of `grid`, the last category fastest. -/
def gridKeys (grid : ItemOrder) : List CoordKey :=
  grid.foldl (fun acc g => acc.flatMap fun pre => g.2.map fun i => pre ++ [(g.1.id, i.id)]) [[]]

/-- A coordinate's pairs in order. -/
def sortKey (k : CoordKey) : CoordKey :=
  (k.map toLex).insertionSort (· ≤ ·) |>.map ofLex

/-- A numeric parameter. -/
def numericParam : CellValue → Option F64
  | .num bits => some (.ofBits bits)
  | .bool b => some (.ofNat b.toNat)
  | .date ms => some (.ofInt ms)
  | _ => none

/-- Where the order-statistics operator's results land. -/
inductive OrderSpec
  | rank (cat : CategoryId)
  | sortBy (cells : List CoordKey)
deriving DecidableEq

/-- The operator's spec, for literal parameters it accepts. -/
def OrderSpec.of (func : FuncId) (inputs : Nat) (params : List CellValue) (perItem : Bool)
    (cat : Option CategoryId) (into : ItemOrder) : Option OrderSpec :=
  if params.any CellValue.isErr then none
  else if func.id = 1050 && perItem && into.isEmpty && inputs == 1 then
    if params.head?.all fun p => (numericParam p).isSome then cat.map .rank else none
  else if func.id = 1253 && !into.isEmpty && decide (2 ≤ inputs) then
    if (params.take (inputs - 1)).all fun p =>
        (numericParam p).any fun x => x.eq (.ofNat 1) || x.eq (F64.ofNat 1).neg then
      some (.sortBy (gridKeys into))
    else none
  else none

/-- The parameters and spec of an aggregation the order-statistics operator
takes. -/
def orderRoute (func : FuncId) (inputs : Nat) (params : List PlanNode) (perItem : Bool)
    (window : Option Window) (order into : ItemOrder) : Option (List CellValue × OrderSpec) :=
  if window.isSome then none
  else do
    let params ← Scalar.allSome (params.map folded)
    let spec ← OrderSpec.of func inputs params perItem (order.head?.map (·.1)) into
    some (params, spec)

/-- Each group's values at its labels' coordinates. -/
def landed (labels : List AggRow → List CoordKey) (values : List AggRow → List CellValue)
    (keyed : Multiset (CoordKey × AggRow)) : Coll :=
  (Bag.reduceInOrder (fun group => (labels group).zip (values group)) keyed).map fun x =>
    (sortKey (x.1 ++ x.2.1), x.2.2)

/-- The items of a group's rows, as labels. -/
def itemLabels (cat : Nat) (group : List AggRow) : List CoordKey :=
  (aggItems group).map fun i => [(cat, i)]

variable (R : Registry) (K : Kernels)

/-- The order statistics of each group: the batch kernel's results, at the
row's item or on the landing cells. -/
def orderStats (func : FuncId) (inputs capacity : Nat) (params : List CellValue) :
    OrderSpec → Multiset (CoordKey × AggRow) → Coll
  | .rank cat =>
    landed (itemLabels cat.id) fun group => K.perItem func (aggRows inputs capacity group) params
  | .sortBy cells =>
    landed (fun _ => cells) fun group => K.array func (aggRows inputs capacity group) params

/-- A result for each group that has rows. -/
def singleResult (func : FuncId) (inputs capacity : Nat) (consts : List (Option CellValue))
    (group : List AggRow) : List CellValue :=
  if group.isEmpty then []
  else [K.reduce func (aggRows inputs capacity group) (aggParams inputs consts group)]

/-- A reduction in two levels: blocks to parts, parts to the result. -/
def twoLevel (func : FuncId) (capacity : Nat) (keyed : Multiset (CoordKey × AggRow)) : Coll :=
  let blocks := keyed.map fun x => ((x.1, blockOf (ofLex (ofLex x.2).1).2), x.2)
  let parts := Bag.reduceInOrder
    (fun group => if group.isEmpty then [] else [K.part func (aggRows 1 capacity group)]) blocks
  Bag.reduceInOrder (fun parts : List (Nat ×ₗ List Nat) =>
      [K.finish func (parts.dedup.map fun p => (ofLex p).2)])
    (parts.map fun x => (x.1.1, toLex (x.1.2, x.2)))

/-- An aggregation's result over its keyed rows. -/
def aggregateRows (func : FuncId) (inputs capacity : Nat) (consts : List (Option CellValue))
    (order : ItemOrder) (window : Option Window) (perItem : Bool) (into : ItemOrder)
    (inTwoLevels : Bool) (keyed : Multiset (CoordKey × AggRow)) : Coll :=
  let rows := aggRows inputs capacity
  let params := aggParams inputs consts
  if !into.isEmpty then
    landed (fun _ => gridKeys into) (fun group => K.array func (rows group) (params group)) keyed
  else if inTwoLevels then twoLevel K func capacity keyed
  else if window.isNone && !perItem then
    Bag.reduceInOrder (singleResult K func inputs capacity consts) keyed
  else
    -- One result per item of the reduced category.
    landed (itemLabels ((order.head?.map (·.1.id)).getD 0))
      (fun group =>
        match window with
        | none => K.perItem func (rows group) (params group)
        | some w => K.windows func (rows group) (params group) w)
      keyed

/-- The rows an aggregation reduces: its inputs' values aligned, under the
condition. -/
def reducedRows (reduced : List CategoryId) (first : PlanNode × Coll)
    (rest : List (PlanNode × Coll)) (pred : Option (PlanNode × Coll)) : Lines :=
  let rows := alignAll reduced (oneEach first.2) (first.1.cats ++ reduced) rest
  match pred with
  | none => rows
  | some p =>
    (align rows p.2 p.1.cats).filterMap fun x => (whereRow x.2.1 x.2.2).map (x.1, ·)

/-- The aggregation of built inputs, condition and parameters. -/
def aggregate (ins params : List (PlanNode × Coll)) (pred : Option (PlanNode × Coll))
    (groupBy : List CategoryId) (func : FuncId) (order : ItemOrder) (window : Option Window)
    (perItem : Bool) (into : ItemOrder) (flat : Bool) : Except BuildError Coll :=
  match ins with
  | [] => .error (.unsupported "aggregation with no input")
  | first :: rest =>
    let capacity := (order.map (·.2.length)).prod
    let reduced := order.map (·.1)
    let rows := reducedRows reduced first rest pred
    match orderRoute func ins.length (params.map (·.1)) perItem window order into with
    | some (values, spec) =>
      .ok (orderStats K func ins.length capacity values spec
        (rows.map (aggKey order groupBy)))
    | none =>
      let full := alignedCats reduced (first.1.cats ++ reduced) (rest.map (·.1))
      let joined := params.filter fun p => (literalValue p.1).isNone
      let rows := alignAll [] rows full joined
      let inTwoLevels := !flat && window.isNone && !perItem &&
        twoLevelApplies func ins.length params.length order
      .ok (aggregateRows K func ins.length capacity (params.map (literalValue ·.1)) order
        window perItem into inTwoLevels (rows.map (aggKey order groupBy)))

/-! ## The other operators -/

/-- The coordinates of a two-sided operator's rows with both values. -/
def mapBinary (op : BinaryOp) (left right : PlanNode) (l a r : Coll) : Coll :=
  match literalValue left, literalValue right with
  | some v, none => r.map fun x => (x.1, K.applyBinary op v x.2)
  | none, some v => l.map fun x => (x.1, K.applyBinary op x.2 v)
  | some v, some w => constant (K.applyBinary op v w)
  | none, none =>
    match broadcastOf left right with
    -- One join of the two sides gives both values.
    | some (_, keys) => (align a r keys).map fun x => (x.1, K.applyBinary op x.2.1 x.2.2)
    | none =>
      (align l r (sharedCats left right)).map fun x => (x.1, K.applyBinary op x.2.1 x.2.2)

/-- The left values on the union coordinates. -/
def join (l r : Coll) (keys : List CategoryId) : Coll :=
  (align l r keys).map fun x => (x.1, x.2.1)

def items (cat : CategoryId) (vals : List (ItemId × Value)) : Coll :=
  vals.map fun x => ([(cat.id, x.1.id)], CellValue.fromModelValue x.2)

/-- Whether a node ranges over all the result's categories. -/
def spans (ty : TypeInfo) (a : PlanNode) : Bool := decide (a.ty.dim = ty.dim)

/-- The coordinates a coalescing fills: the grid's, or those of the arguments
over all the result's categories. -/
def coalesceDomain (args : List (PlanNode × Coll)) (grid : Option ItemOrder) (ty : TypeInfo) :
    Multiset CoordKey :=
  match grid with
  | some g => gridKeys g
  | none =>
    ((Multiset.ofList (args.filter fun a => spans ty a.1)).bind fun a => a.2.map (·.1)).dedup

/-- Every argument's cells on the domain, tagged with its position. -/
def coalesceTagged (args : List (PlanNode × Coll)) (ty : TypeInfo) (domain : Coll) :
    Multiset (CoordKey × Nat ×ₗ CellValue) :=
  (Multiset.ofList args.zipIdx).bind fun a =>
    if spans ty a.1.1 then a.1.2.map fun x => (x.1, toLex (a.2, x.2))
    else (align domain a.1.2 a.1.1.cats).map fun x => (x.1, toLex (a.2, x.2.2))

/-- The first argument with a cell, at each coordinate of the domain. -/
def coalesce (args : List (PlanNode × Coll)) (grid : Option ItemOrder) (ty : TypeInfo) :
    Except BuildError Coll :=
  if args.isEmpty || (grid.isNone && !args.any fun a => spans ty a.1) then .error .panicked
  else
    let domain := (coalesceDomain args grid ty).map fun k => (k, CellValue.bool true)
    .ok (Bag.reduceInOrder
      (fun vs : List (Nat ×ₗ CellValue) => (vs.map fun v => (ofLex v).2).take 1)
      (coalesceTagged args ty domain))

/-- A renamed item's target: the last one given. -/
def remapTarget (maps : Remaps) (c i : Nat) : Option (Nat × Nat) :=
  ((maps.flatMap fun m => m.2.2.map fun x => ((m.1.id, x.1.id), (m.2.1.id, x.2.id))).reverse.find?
    fun x => x.1 = (c, i)).map (·.2)

/-- A pair renamed, where its category is. -/
def remapPair (maps : Remaps) (x : Nat × Nat) : Option (Nat × Nat) :=
  if maps.any fun m => m.1.id = x.1 then remapTarget maps x.1 x.2 else some x

/-- A coordinate renamed, none where a renamed item has no target. -/
def remapKey (maps : Remaps) (k : CoordKey) : Option CoordKey :=
  (Scalar.allSome (k.map (remapPair maps))).map sortKey

def remap (maps : Remaps) (c : Coll) : Coll :=
  c.filterMap fun x => (remapKey maps x.1).map (·, x.2)

/-- A value inserted in an environment. -/
def bindValue (env : Scalar.Env) (m : MeasureId) (v : CellValue) : Scalar.Env :=
  fun n => if n = m then some v else env n

/-- A recurrence row's environment: the read measures, then the results of the
items its self-references name, or their defaults. -/
def slotEnv (done : List (Int × CellValue)) (p : Nat) : Scalar.Env → List Slot → Scalar.Env
  | env, [] => env
  | env, s :: slots =>
    let earlier := ((done.find? fun d => d.1 = p - s.back).map (·.2)).or
      (s.default.bind fun d => (Scalar.eval R K env d).toOption.bind id)
    slotEnv done p (match earlier with
      | some v => bindValue env s.id v
      | none => env) slots

/-- A group's recurrence, item by item; `done` holds the results so far. -/
def recur (body : Expr) (ids : List MeasureId) (slots : List Slot) :
    (done : List (Int × CellValue)) → List ((Nat ×ₗ Nat) ×ₗ List CellValue) →
      List (Nat × CellValue)
  | _, [] => []
  | done, row :: rows =>
    let p := (ofLex (ofLex row).1).1
    let item := (ofLex (ofLex row).1).2
    let env := (ids.zip (ofLex row).2).foldl (fun env x => bindValue env x.1 x.2) fun _ => none
    match Scalar.eval R K (slotEnv R K done p env slots) body with
    | .ok (some v) => (item, v) :: recur body ids slots ((p, v) :: done) rows
    | _ => recur body ids slots done rows

def recurrence (body : Expr) (ids : List MeasureId) (refs : List (PlanNode × Coll))
    (slots : List Slot) (cat : CategoryId) (order : List ItemId) : Except BuildError Coll :=
  match refs with
  | [] => .error .panicked
  | (first, c) :: rest =>
    let rows := alignAll [] (oneEach c) first.cats rest
    let keyed := rows.map fun x =>
      let item := itemOf x.1 cat
      (x.1.filter (·.1 ≠ cat.id), toLex (toLex (sortPosition order item, item), x.2))
    .ok ((Bag.reduceInOrder (fun group => recur R K body ids slots [] group.dedup) keyed).map
      fun x => (sortKey (x.1 ++ [(cat.id, x.2.1)]), x.2.2))

/-- A coordinate with its first item of a category moved `-offset` away. -/
def shiftKey (cat : CategoryId) (offset : Int) (order : List ItemId) : CoordKey → Option CoordKey
  | [] => none
  | x :: k =>
    if x.1 = cat.id then do
      let p : Int := (← positionOf order x.2) - offset
      let item ← if p < 0 then none else order[p.toNat]?
      some ((x.1, item.id) :: k)
    else (shiftKey cat offset order k).map (x :: ·)

/-- The input's cells moved along a category; with a default, also the input's
own coordinates nothing moved to. -/
def shift (cat : CategoryId) (offset : Int) (order : List ItemId) (x : Coll)
    (default : Option (PlanNode × Coll)) : Coll :=
  let moved := x.filterMap fun y => (shiftKey cat offset order y.1).map (·, y.2)
  match default with
  | none => moved
  | some (d, dc) =>
    let holes : Coll := (x.map (·.1) - moved.map (·.1)).dedup.map fun k => (k, .bool true)
    moved + (align holes dc d.cats).map fun y => (y.1, y.2.2)

/-- A scalar call: the literals with the row's values in the other places. -/
def callWith (func : FuncId) (template : List (Option CellValue)) (vals : List CellValue) :
    CellValue :=
  K.eval func (fillParams template vals)

def funcCall (func : FuncId) (args : List (PlanNode × Coll)) : Coll :=
  let template := args.map (literalValue ·.1)
  match args.filter fun a => (literalValue a.1).isNone with
  | [] => constant (callWith K func template [])
  | (first, c) :: rest =>
    (alignAll [] (oneEach c) first.cats rest).map fun x => (x.1, callWith K func template x.2)

/-- The cells of a branch where the test says `want`. -/
def pick (want : Bool) (dom : Coll) (branch : PlanNode × Coll) : Coll :=
  (align (dom.filter fun x => x.2 = .bool want) branch.2 branch.1.cats).map fun x => (x.1, x.2.2)

/-- The test over the result's categories: joined with the spanning branch when
it lacks some of them. -/
def testDomain (test branch : PlanNode × Coll) (otherwise : Option (PlanNode × Coll)) :
    Option Nat → Option Coll
  | none => some test.2
  | some i => (if i = 0 then some branch else otherwise).map fun b =>
      (align test.2 b.2 (sharedCats test.1 b.1)).map fun x => (x.1, x.2.1)

/-- The chosen branch where the test holds, the other where it does not, and
the test's errors. -/
def cond (test branch : PlanNode × Coll) (otherwise : Option (PlanNode × Coll))
    (spanning : Option Nat) : Except BuildError Coll :=
  match testDomain test branch otherwise spanning with
  | none => .error .panicked
  | some dom =>
    let out := pick true dom branch + (otherwise.map (pick false dom)).getD 0
    .ok (out + dom.filter fun x => x.2.isErr)

/-! ## Plans -/

/-- The collections of the measures. -/
abbrev Sources := MeasureId → Option Coll

mutual

/-- The collection of a plan node. -/
def buildColl (src : Sources) : PlanNode → Except BuildError Coll
  | .inputMeasure m _ =>
    match src m with
    | some c => .ok c
    | none => .error (.unsupported s!"no collection for measure MeasureId({m.id})")
  | .mapUnary op a _ => do
    let c ← buildColl src a
    return c.map fun x => (x.1, Kernels.applyUnary op x.2)
  | .mapBinary op left right _ => do
    let a ←
      match left with
      | .join a _ _ _ => buildColl src a
      | _ => pure 0
    let l ← buildColl src left
    let r ← buildColl src right
    return mapBinary K op left right l a r
  | .join left right keys _ => do
    let l ← buildColl src left
    let r ← buildColl src right
    return join l r keys
  | .aggregate ins params pred groupBy func order window perItem into flat _ => do
    let is ← buildColls src ins
    let pc ← buildOpt src pred
    let ps ← buildColls src params
    aggregate K (ins.zip is) (params.zip ps) (pred.map (·, pc.getD 0)) groupBy func order
      window perItem into flat
  | .items cat vals _ => .ok (items cat vals)
  | .coalesce args grid ty => do
    let cs ← buildColls src args
    coalesce (args.zip cs) grid ty
  | .fixpoint .. =>
    .error (.unsupported "FIXPOINT is solved by the engine, as a measure's whole formula")
  | .remap input maps _ => do
    let c ← buildColl src input
    return remap maps c
  | .recurrence body ids refs slots cat order _ => do
    let cs ← buildColls src refs
    recurrence R K body ids (refs.zip cs) slots cat order
  | .shift input cat offset order default _ => do
    let x ← buildColl src input
    let d ← buildOpt src default
    return shift cat offset order x (default.map (·, d.getD 0))
  | .literal v _ => .ok (constant (.fromModelValue v))
  | .funcCall func args _ => do
    let cs ← buildColls src args
    return funcCall K func (args.zip cs)
  | .cond test branch otherwise spanning _ => do
    let t ← buildColl src test
    let a ← buildColl src branch
    let b ← buildOpt src otherwise
    cond (test, t) (branch, a) (otherwise.map (·, b.getD 0)) spanning

def buildColls (src : Sources) : List PlanNode → Except BuildError (List Coll)
  | [] => .ok []
  | p :: ps => do
    let c ← buildColl src p
    let cs ← buildColls src ps
    return c :: cs

def buildOpt (src : Sources) : Option PlanNode → Except BuildError (Option Coll)
  | none => .ok none
  | some p => do
    let c ← buildColl src p
    return some c

end

/-- The collection of a source. -/
theorem buildColl_inputMeasure {R : Registry} {K : Kernels} {src : Sources} {m : MeasureId}
    {ty : TypeInfo} {c : Coll} :
    buildColl R K src (.inputMeasure m ty) = .ok c ↔ src m = some c := by
  rw [buildColl]
  cases src m <;> simp

end Improv.Engine
