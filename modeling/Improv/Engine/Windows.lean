import Mathlib.Data.List.MinMax
import Improv.Engine.Reduce
import Improv.Lib.SlidingWindow
/-!
# Windowed reductions

One result per row: the reduction over the rows whose position lies in the
row's window.  Rows in position order have runs of rows as windows, whose ends
only move forward; `SUM` … `XOR` keep a running state as the window slides.
The scan over all rows is the definition.
-/

namespace Improv.Engine

open Lib CoreModel Kernels

/-! ## Windows -/

/-- An `i64` sum, held at the ends of its range. -/
def saturatingAdd (a b : Int) : Int := max (-2 ^ 63) (min (a + b) (2 ^ 63 - 1))

/-- A window's bound at the row at position `me`, among rows from `first` to
`last`. -/
def Bound.position (first last me : Int) : Bound → Int
  | .first => first
  | .last => last
  | .offset o => saturatingAdd me o

/-- Each row's position along the single reduced category. -/
def positions (rs : Rows) : Option (List Int) := rs.pos.mapM fun p => p.head?.map Int.ofNat

/-- Both ends of each row's window, from pointers at `a` and `b` on. -/
def spansFrom (pos : List Int) (w : Window) (first last : Int) :
    (a b : Nat) → List Int → List (Nat × Nat)
  | _, _, [] => []
  | a, b, me :: rest =>
    -- both bounds only grow from row to row
    let a := Sliding.advance pos (· < w.1.position first last me) a
    let b := Sliding.advance pos (· ≤ w.2.position first last me) b
    (a, b) :: spansFrom pos w first last a b rest

/-- Each row's window as the rows `a..b`, for rows sorted by position. -/
def windowSpans (pos : List Int) (w : Window) : List (Nat × Nat) :=
  spansFrom pos w (pos.head?.getD 0) (pos.getLast?.getD 0) 0 0 pos

/-- The rows `a..b`. -/
def Rows.slice (rs : Rows) (a b : Nat) : Rows :=
  ⟨(rs.pos.take b).drop a, (rs.vals.take b).drop a, rs.capacity⟩

/-- The rows at some indices. -/
def Rows.pick (rs : Rows) (js : List Nat) : Rows :=
  ⟨js.filterMap (rs.pos[·]?), js.filterMap (rs.vals[·]?), rs.capacity⟩

/-- The definition: per row, pick the rows in its window and reduce them. -/
def scan (families : Families) (func : FuncId) (rs : Rows) (params : List CellValue)
    (w : Window) : Option (List CellValue) := do
  let positions ← positions rs
  let first := positions.min?.getD 0
  let last := positions.max?.getD 0
  (List.range rs.vals.length).mapM fun i => do
    let me ← positions[i]?
    let lo := w.1.position first last me
    let hi := w.2.position first last me
    let pick := (List.range rs.vals.length).filter fun j =>
      positions[j]?.any fun p => decide (lo ≤ p) && decide (p ≤ hi)
    if pick = [] then some (.err Err.NA) else reduce families func (rs.pick pick) params

/-! ## Sliding -/

/-- A sliding window's running state, over the rows' readable values. -/
structure Slide where
  sum : WindowSum
  /-- `MIN`, `MAX`: the rows that may still be the window's extreme, in row
  order, their values strictly worse from front to back. -/
  best : List Nat
  /-- `PRODUCT`, `SUMSQ`: the fold so far. -/
  fold : F64
  trues : Nat

namespace Slide

variable (id : Nat) (rs : Rows)

def x (j : Nat) : Option F64 := rs.vals[j]?.bind fun v => (Builtins.n v 0).toOption

def truth (j : Nat) : Bool :=
  rs.vals[j]?.any fun v => decide ((Builtins.b v 0).toOption = some true)

/-- The extreme of two numbers as the twin folds them. -/
def pick (a x : F64) : F64 := if id = 3 then Builtins.min a x else Builtins.max a x

/-- Row `j` joins the window. -/
def add (s : Slide) (j : Nat) : Option Slide :=
  if id = 1 ∨ id = 2 then
    match x rs j with
    | some v => (s.sum.add v).map fun sum => { s with sum }
    | none => some s
  else if id = 3 ∨ id = 4 then
    match x rs j with
    | some v =>
      if v.isNaN then some s
      else
        -- a row no better than x leaves the window before x does
        let beaten k := decide ((pick id ((x rs k).getD .nan) v).toBits = v.toBits)
        some { s with best := s.best.rdropWhile beaten ++ [j] }
    | none => some s
  else if id = 5 then some ((x rs j).elim s fun v => { s with fold := s.fold.mul v })
  else if id = 6 then some ((x rs j).elim s fun v => { s with fold := s.fold.add (v.mul v) })
  else if 7 ≤ id ∧ truth rs j = true then some { s with trues := s.trues + 1 }
  else some s

/-- Row `j`, the window's first, leaves it. -/
def remove (s : Slide) (j : Nat) : Option Slide :=
  if id = 1 ∨ id = 2 then
    match x rs j with
    | some v => (s.sum.remove v).map fun sum => { s with sum }
    | none => some s
  else if id = 3 ∨ id = 4 then
    some (if s.best.head? = some j then { s with best := s.best.tail } else s)
  else if 7 ≤ id ∧ truth rs j = true then
    if s.trues = 0 then none else some { s with trues := s.trues - 1 }
  else some s

/-- The window's result over its `len` rows, none of them an error or
unreadable. -/
def value (s : Slide) (len : Nat) : Option (CellValue × Slide) :=
  let best := s.best.head?.bind (x rs)
  match id with
  | 1 => s.sum.value.map fun (v, sum) => (num v, { s with sum })
  | 2 => s.sum.value.map fun (v, sum) => (num (v.div (.ofNat len)), { s with sum })
  | 3 => some (num (best.getD (.inf false)), s)
  | 4 => some (num (best.getD (.inf true)), s)
  | 5 | 6 => some (num s.fold, s)
  | 7 => some (.bool (s.trues = len), s)
  | 8 => some (.bool (0 < s.trues), s)
  | _ => some (.bool (s.trues % 2 = 1), s)

end Slide

/-- For each row, the first row at or after it whose values `p` holds for, and
one past the end: `n` where there is none. -/
def next (p : List CellValue → Bool) (n : Nat) : Nat → List (List CellValue) → List Nat
  | _, [] => [n]
  | j, v :: rest =>
    let out := next p n (j + 1) rest
    (if p v then j else out.headD n) :: out

/-- The first row at or after each row with an error. -/
def errorsOf (rs : Rows) : List Nat :=
  next (fun v => v.head?.any CellValue.isErr) rs.vals.length 0 rs.vals

/-- The first row at or after each row that the scalar twin cannot read. -/
def unreadableOf (id : Nat) (rs : Rows) : List Nat :=
  next (fun v =>
    if 7 ≤ id then (Builtins.b v 0).toOption.isNone else (Builtins.n v 0).toOption.isNone)
    rs.vals.length 0 rs.vals

/-- Whether reduction `id` slides over these rows and this window. -/
def slides (id : Nat) (rs : Rows) (params : List CellValue) (w : Window) : Bool :=
  decide (1 ≤ id ∧ id ≤ 9) && params.isEmpty && rs.vals.all (fun v => v.length == 1) &&
    !((id == 5 || id == 6) && w.1 != .first)

/-- The window `a..b`'s result off the running state. -/
def slideRead (id : Nat) (rs : Rows) (errs bad : List Nat) (s : Slide) (a b : Nat) :
    Option (CellValue × Slide) :=
  if b ≤ a then some (.err Err.NA, s)
  else
    match errs[a]?, bad[a]? with
    | some e, some u =>
      if e < b then (rs.vals[e]?.bind List.head?).map fun v => (v, s)
      else if u < b then some (.err Err.VALUE, s)
      else s.value id rs (b - a)
    | _, _ => none

/-- `SUM` … `XOR` over every window in one pass. -/
def sliding (id : Nat) (rs : Rows) (spans : List (Nat × Nat)) : Option (List CellValue) :=
  let fold := if id = 5 then Builtins.emptyProduct else Builtins.emptySum
  let machine : Sliding.Machine Slide CellValue :=
    ⟨Slide.add id rs, Slide.remove id rs, slideRead id rs (errorsOf rs) (unreadableOf id rs)⟩
  machine.run ⟨.default, [], fold, 0⟩ 0 0 spans

/-- One result per row: the reduction `func` over the rows whose position lies
in the row's window `w`. -/
def windows (families : Families) (func : FuncId) (rs : Rows) (params : List CellValue)
    (w : Window) : Option (List CellValue) := do
  let pos ← positions rs
  if ¬pos.Pairwise (· ≤ ·) then scan families func rs params w
  else
    let spans := windowSpans pos w
    if slides func.id rs params w then sliding func.id rs spans
    else
      spans.mapM fun (a, b) =>
        if b ≤ a then some (.err Err.NA) else reduce families func (rs.slice a b) params

end Improv.Engine

/-!
## The windows of sorted rows

Among rows in position order a window is a run of rows: those from the number
of rows before its lower bound up to the number of rows within its upper one.
The two pointers find it, and the scan picks its rows.
-/

namespace Improv.Engine

open Lib Lib.Sliding CoreModel

variable {pos : List Int} {w : Window} {families : Families} {func : FuncId} {rs : Rows}
  {params : List CellValue}

theorem saturatingAdd_le {a a' : Int} (h : a ≤ a') (b : Int) :
    saturatingAdd a b ≤ saturatingAdd a' b := by
  unfold saturatingAdd
  omega

theorem Bound.position_le {me me' : Int} (h : me ≤ me') (first last : Int) (b : Bound) :
    b.position first last me ≤ b.position first last me' := by
  cases b with
  | first => exact le_rfl
  | last => exact le_rfl
  | offset o => exact saturatingAdd_le h o

/-! ## The pointers -/

theorem initial_lt (hpos : pos.Pairwise (· ≤ ·)) (lo : Int) :
    Initial (fun p => decide (p < lo)) pos :=
  hpos.imp fun hle hlt => by
    rw [decide_eq_true_eq] at hlt ⊢
    exact hle.trans_lt hlt

theorem initial_le (hpos : pos.Pairwise (· ≤ ·)) (hi : Int) :
    Initial (fun p => decide (p ≤ hi)) pos :=
  hpos.imp fun hle hlt => by
    rw [decide_eq_true_eq] at hlt ⊢
    exact hle.trans hlt

/-- How many positions are before `lo`. -/
def before (pos : List Int) (lo : Int) : Nat := pos.countP fun p => decide (p < lo)

/-- How many positions are up to `hi`. -/
def upTo (pos : List Int) (hi : Int) : Nat := pos.countP fun p => decide (p ≤ hi)

theorem before_le {lo lo' : Int} (h : lo ≤ lo') : before pos lo ≤ before pos lo' :=
  List.countP_mono_left fun p _ hp => by
    rw [decide_eq_true_eq] at hp ⊢
    exact hp.trans_le h

theorem upTo_le {hi hi' : Int} (h : hi ≤ hi') : upTo pos hi ≤ upTo pos hi' :=
  List.countP_mono_left fun p _ hp => by
    rw [decide_eq_true_eq] at hp ⊢
    exact hp.trans h

theorem before_le_length (lo : Int) : before pos lo ≤ pos.length := List.countP_le_length

theorem upTo_le_length (hi : Int) : upTo pos hi ≤ pos.length := List.countP_le_length

/-- The window of a row at `me`, as the rows it runs from and to. -/
def spanOf (pos : List Int) (w : Window) (first last me : Int) : Nat × Nat :=
  (before pos (w.1.position first last me), upTo pos (w.2.position first last me))

theorem spansFrom_eq (hpos : pos.Pairwise (· ≤ ·)) {first last : Int} {rest : List Int}
    (hrest : rest.Pairwise (· ≤ ·)) {a b : Nat}
    (hstart : ∀ me ∈ rest, a ≤ (spanOf pos w first last me).1 ∧
      b ≤ (spanOf pos w first last me).2) :
    spansFrom pos w first last a b rest = rest.map (spanOf pos w first last) := by
  induction rest generalizing a b with
  | nil => rfl
  | cons me rest ih =>
      obtain ⟨hle, hsorted⟩ := List.pairwise_cons.mp hrest
      obtain ⟨ha, hb⟩ := hstart me List.mem_cons_self
      have hlo := advance_eq_countP (initial_lt hpos (w.1.position first last me)) ha
      have hhi := advance_eq_countP (initial_le hpos (w.2.position first last me)) hb
      unfold spansFrom
      rw [hlo, hhi, List.map_cons]
      refine congrArg₂ List.cons rfl (ih hsorted fun me' hme' => ?_)
      have hmono := hle me' hme'
      exact ⟨before_le (w.1.position_le hmono first last),
        upTo_le (w.2.position_le hmono first last)⟩

theorem pairwise_spanOf (hpos : pos.Pairwise (· ≤ ·)) (first last : Int) :
    (pos.map (spanOf pos w first last)).Pairwise fun x y => x.1 ≤ y.1 ∧ x.2 ≤ y.2 := by
  rw [List.pairwise_map]
  exact hpos.imp fun hle => ⟨before_le (w.1.position_le hle first last),
    upTo_le (w.2.position_le hle first last)⟩

theorem windowSpans_eq (hpos : pos.Pairwise (· ≤ ·)) :
    windowSpans pos w = pos.map (spanOf pos w (pos.head?.getD 0) (pos.getLast?.getD 0)) :=
  spansFrom_eq hpos hpos fun _ _ => ⟨Nat.zero_le _, Nat.zero_le _⟩

/-! ## The scan -/

theorem min?_eq_head? (hpos : pos.Pairwise (· ≤ ·)) : pos.min? = pos.head? := by
  cases pos with
  | nil => rfl
  | cons p pos =>
      rw [List.head?_cons, List.min?_eq_some_iff]
      refine ⟨List.mem_cons_self, fun q hq => ?_⟩
      cases List.mem_cons.mp hq with
      | inl heq => exact heq.ge
      | inr hmem => exact (List.pairwise_cons.mp hpos).1 q hmem

theorem max?_eq_getLast? (hpos : pos.Pairwise (· ≤ ·)) : pos.max? = pos.getLast? := by
  induction pos using List.reverseRecOn with
  | nil => rfl
  | append_singleton pos p _ =>
      rw [List.getLast?_concat, List.max?_eq_some_iff]
      refine ⟨List.mem_append_right _ (List.mem_singleton_self p), fun q hq => ?_⟩
      cases List.mem_append.mp hq with
      | inl hmem => exact (List.pairwise_append.mp hpos).2.2 q hmem p (List.mem_singleton_self p)
      | inr hmem => exact (List.mem_singleton.mp hmem).le

/-- A filter of indices by a run of them. -/
theorem filter_range_eq {n a b : Nat} {p : Nat → Bool} (hb : b ≤ n)
    (hp : ∀ j < n, p j = true ↔ a ≤ j ∧ j < b) :
    (List.range n).filter p = List.range' a (b - a) := by
  apply @List.Perm.eq_of_pairwise _ (· < ·) _ _ (fun x y _ _ hxy hyx => absurd hxy hyx.asymm)
    (List.Pairwise.filter _ List.pairwise_lt_range) List.pairwise_lt_range'
  rw [List.perm_ext_iff_of_nodup (List.nodup_range.filter _) List.nodup_range']
  intro j
  rw [List.mem_filter, List.mem_range, List.mem_range'_1]
  constructor
  · rintro ⟨hj, hpj⟩
    have hab := (hp j hj).mp hpj
    omega
  · intro hj
    exact ⟨by omega, (hp j (by omega)).mpr (by omega)⟩

theorem filterMap_range' {α : Type*} {l : List α} (k : Nat) {a : Nat} (h : a + k ≤ l.length) :
    (List.range' a k).filterMap (l[·]?) = (l.drop a).take k := by
  induction k generalizing a with
  | zero => simp
  | succ k ih =>
      have hget : l[a]? = some l[a] := List.getElem?_eq_getElem (by omega)
      rw [List.range'_succ, List.filterMap_cons_some hget, ih (by omega),
        List.drop_eq_getElem_cons (by omega : a < l.length), List.take_succ_cons]

theorem pick_eq_slice {a b : Nat} (hrs : rs.pos.length = rs.vals.length)
    (hb : b ≤ rs.vals.length) : rs.pick (List.range' a (b - a)) = rs.slice a b := by
  by_cases hab : a ≤ b
  · unfold Rows.pick Rows.slice
    rw [filterMap_range' _ (by omega), filterMap_range' _ (by omega), List.drop_take,
      List.drop_take]
  · have hpos : (rs.pos.take b).length ≤ a := by
      rw [List.length_take]
      omega
    have hvals : (rs.vals.take b).length ≤ a := by
      rw [List.length_take]
      omega
    unfold Rows.pick Rows.slice
    rw [show b - a = 0 by omega, List.drop_eq_nil_of_le hpos, List.drop_eq_nil_of_le hvals]
    rfl

theorem mapM_range_getElem? {α β : Type} (l : List α) (f : α → Option β) :
    ((List.range l.length).mapM fun i => l[i]?.bind f) = l.mapM f := by
  induction l with
  | nil => rfl
  | cons x l ih =>
      rw [List.length_cons, List.range_succ_eq_map, List.mapM_cons, List.mapM_map, List.mapM_cons,
        List.getElem?_cons_zero, Option.bind_some, ← ih]
      rfl

/-- What a window `a..b` reduces to. -/
def windowOf (families : Families) (func : FuncId) (rs : Rows) (params : List CellValue)
    (a b : Nat) : Option CellValue :=
  if b ≤ a then some (.err Err.NA) else reduce families func (rs.slice a b) params

theorem length_of_mapM {α β : Type} {f : α → Option β} {l : List α} {l' : List β}
    (h : l.mapM f = some l') : l'.length = l.length := by
  induction l generalizing l' with
  | nil =>
      rw [List.mapM_nil] at h
      cases h
      rfl
  | cons x l ih =>
      rw [List.mapM_cons, Option.bind_eq_bind, Option.bind_eq_some_iff] at h
      obtain ⟨y, -, h⟩ := h
      rw [Option.bind_eq_bind, Option.bind_eq_some_iff] at h
      obtain ⟨ys, hys, heq⟩ := h
      cases heq
      rw [List.length_cons, List.length_cons, ih hys]

/-- The rows that the scan picks are the window's run. -/
theorem picked_eq (hpos : pos.Pairwise (· ≤ ·)) (lo hi : Int) :
    ((List.range pos.length).filter fun j =>
        pos[j]?.any fun p => decide (lo ≤ p) && decide (p ≤ hi)) =
      List.range' (before pos lo) (upTo pos hi - before pos lo) := by
  apply filter_range_eq (upTo_le_length hi)
  intro j hj
  have hget : pos[j]? = some pos[j] := List.getElem?_eq_getElem hj
  have hlo := lt_countP_iff (initial_lt hpos lo) hget
  have hhi := lt_countP_iff (initial_le hpos hi) hget
  rw [decide_eq_true_eq] at hlo hhi
  rw [hget, Option.any_some, Bool.and_eq_true, decide_eq_true_eq, decide_eq_true_eq]
  unfold before upTo
  omega

/-- The scan of sorted rows reduces each row's run. -/
theorem scan_eq (hrs : rs.pos.length = rs.vals.length) (h : positions rs = some pos)
    (hpos : pos.Pairwise (· ≤ ·)) :
    scan families func rs params w =
      (windowSpans pos w).mapM fun x => windowOf families func rs params x.1 x.2 := by
  have hlen : pos.length = rs.vals.length := (length_of_mapM h).trans hrs
  rw [windowSpans_eq hpos, List.mapM_map]
  refine Eq.trans ?_ (mapM_range_getElem? pos _)
  unfold scan
  rw [h, Option.bind_eq_bind, Option.bind_some, hlen]
  dsimp only
  rw [min?_eq_head? hpos, max?_eq_getLast? hpos]
  generalize pos.head?.getD 0 = first
  generalize pos.getLast?.getD 0 = last
  congr 1
  funext i
  cases pos[i]? with
  | none => rfl
  | some me =>
      rw [Option.bind_eq_bind, Option.bind_some, Option.bind_some, ← hlen, picked_eq hpos]
      show _ = windowOf families func rs params _ _
      unfold windowOf spanOf
      dsimp only
      by_cases hempty : upTo pos (w.2.position first last me) ≤
          before pos (w.1.position first last me)
      · rw [if_pos hempty, if_pos]
        rw [Nat.sub_eq_zero_of_le hempty]
        rfl
      · rw [if_neg hempty, if_neg, pick_eq_slice hrs]
        · rw [← hlen]
          exact upTo_le_length _
        · intro hnil
          rw [List.range'_eq_nil_iff] at hnil
          omega

end Improv.Engine
