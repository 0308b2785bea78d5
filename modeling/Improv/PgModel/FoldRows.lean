import Improv.PgModel.RowChanges
import Improv.PgModel.Seed
/-!
# Row changes through an aggregated binding

The fold of each coordinate is that of the rows on it, and its cell the fold's:
so a seed leaves them, and so a row change keeps them.  A change that was made
to the rows is never out of step with the folds.
-/

namespace Improv.PgModel

open Improv.Lib Improv.CoreModel Improv.Engine

/-! ## Errors -/

/-- Why a row cannot be read. -/
def ReadError (e : Rebuild) : Prop :=
  e = unreadable ∨ e = ⟨"new item"⟩ ∨ e = ⟨"bound column missing"⟩ ∨ e = ⟨"unchanged TOAST value"⟩

def outOfStep : Rebuild := ⟨"a fold went out of step"⟩

theorem ReadError.ne {e : Rebuild} (h : ReadError e) : e ≠ outOfStep := by
  rcases h with rfl | rfl | rfl | rfl <;> decide

section Errors

variable {cal : Calendar} {agg : Agg} {items : Items} {r : Relation} {b : Binding}
  {vt : ValueType} {t : Tuple} {e : Rebuild}

theorem dimName_error {col : String} (h : dimName r col t = .error e) : ReadError e := by
  unfold dimName at h
  split at h
  · cases h
    exact .inr (.inr (.inl rfl))
  · cases h
  · cases h
    exact .inr (.inr (.inr rfl))
  · cases h

theorem text_error (h : text r b t = .error e) : ReadError e := by
  unfold text at h
  split at h
  · cases h
    exact .inr (.inr (.inl rfl))
  · cases h
  · cases h
    exact .inr (.inr (.inr rfl))
  · cases h

theorem coordOf_error {names : List (Option String)} (h : coordOf items b names = .error e) :
    ReadError e := by
  have hgo : ∀ (l : List ((CategoryId × String) × Option String)) pairs,
      coordOf.go items l pairs = .error e → ReadError e := by
    intro l
    induction l with
    | nil =>
        intro pairs h
        cases h
    | cons x l ih =>
        intro pairs h
        obtain ⟨⟨c, col⟩, name⟩ := x
        cases name with
        | none => cases h
        | some name =>
            unfold coordOf.go at h
            cases hfind : items.find c name with
            | none =>
                simp only [hfind] at h
                cases h
                exact .inr (.inl rfl)
            | some i =>
                simp only [hfind] at h
                exact ih _ h
  exact hgo _ _ h

theorem coord_error (h : coord items r b t = .error e) : ReadError e := by
  unfold coord at h
  rw [bind_eq_error_iff] at h
  rcases h with h | ⟨names, _, h⟩
  · obtain ⟨d, _, hd⟩ := mapM_eq_error h
    exact dimName_error hd
  · exact coordOf_error h

theorem parse_error {s : String} {bpchar : Bool} (h : parse cal vt s bpchar = .error e) :
    e = unreadable := by
  have helim : ∀ v : Option Value,
      v.elim (.error unreadable) .ok = (.error e : Except Rebuild Value) → e = unreadable := by
    intro v hv
    cases v with
    | none => exact (Except.error.inj hv).symm
    | some v => cases hv
  exact helim _ h

theorem partOf_error {oid : Nat} {s : String} (h : partOf cal agg vt oid s = .error e) :
    e = unreadable := by
  have hnum : (Num.parse s (isFloat oid)).map Part.total = .error e → e = unreadable := by
    intro hmap
    unfold Num.parse at hmap
    split at hmap
    · cases hmap
    · cases hf : Decimal.parseF64 s with
      | none =>
          rw [hf] at hmap
          cases hmap
          rfl
      | some f =>
          rw [hf] at hmap
          cases hmap
  have hkey : (do
      let v ← parse cal vt s (decide (oid = BPCHAR))
      let k ← Key.order v
      .ok (.key k) : Except Rebuild Part) = .error e → e = unreadable := by
    intro hdo
    rw [bind_eq_error_iff] at hdo
    rcases hdo with hdo | ⟨v, _, hdo⟩
    · exact parse_error hdo
    · rw [bind_eq_error_iff] at hdo
      rcases hdo with hdo | ⟨k, _, hdo⟩
      · cases v <;> cases hdo <;> rfl
      · cases hdo
  cases agg with
  | count => cases h
  | countDistinct => cases h
  | sum => exact hnum h
  | avg => exact hnum h
  | min => exact hkey h
  | max => exact hkey h

theorem part_error (h : part cal agg r b t vt = .error e) : ReadError e := by
  unfold part at h
  rw [bind_eq_error_iff] at h
  rcases h with h | ⟨x, _, h⟩
  · exact text_error h
  · cases x with
    | none => cases h
    | some s => exact .inl (partOf_error h)

end Errors

/-! ## The rows of a coordinate -/

/-- What decides how a binding folds the rows of its table. -/
structure Folder where
  items : Items
  r : Relation
  b : Binding
  agg : Agg
  vt : ValueType
  cmp : Option TextCmp

namespace Folder

variable (cal : Calendar) (x : Folder)

/-- What a row adds to the fold of a coordinate: none of another's. -/
def partAt (c : Coordinate) (t : Tuple) : Option Part :=
  match coord x.items x.r x.b t with
  | .ok (some c') => if c' = c then (part cal x.agg x.r x.b t x.vt).toOption else none
  | _ => none

/-- The parts of the rows on a coordinate. -/
def partsAt (rows : List Tuple) (c : Coordinate) : List Part := rows.filterMap (x.partAt cal c)

/-- A row with a NULL dimension, or one whose coordinate and value can be read. -/
def Readable (t : Tuple) : Prop :=
  coord x.items x.r x.b t = .ok none ∨
    ∃ c p, coord x.items x.r x.b t = .ok (some c) ∧ part cal x.agg x.r x.b t x.vt = .ok p

/-- The cell of a fold. -/
def cellOf (f : Fold) : Option Value := (f.cell cal x.agg (valueOid x.r x.b) x.cmp).1

/-- Every coordinate's fold is that of its rows, and every cell its fold's. -/
structure Folded (folds : SortedMap Coordinate Fold) (inputs : SortedMap Cell Value)
    (rows : List Tuple) : Prop where
  readable : ∀ t ∈ rows, x.Readable cal t
  fold : ∀ c f, folds.get? c = some f → f.Of x.agg x.cmp (x.partsAt cal rows c)
  absent : ∀ c, folds.get? c = none → x.partsAt cal rows c = []
  cell : ∀ c, inputs.get? ⟨x.b.measure, c⟩ = (folds.get? c).bind (x.cellOf cal)

variable {cal x} {folds : SortedMap Coordinate Fold} {inputs : SortedMap Cell Value}
  {rows : List Tuple} {t : Tuple} {c : Coordinate} {p : Part}

theorem partsAt_cons (t : Tuple) (rows : List Tuple) (c : Coordinate) :
    x.partsAt cal (t :: rows) c =
      (x.partAt cal c t).toList ++ x.partsAt cal rows c := by
  unfold partsAt
  rw [List.filterMap_cons]
  cases x.partAt cal c t <;> rfl

theorem partAt_self (hc : coord x.items x.r x.b t = .ok (some c))
    (hp : part cal x.agg x.r x.b t x.vt = .ok p) : x.partAt cal c t = some p := by
  unfold partAt
  rw [hc]
  dsimp only
  rw [if_pos rfl, hp]
  rfl

theorem partAt_other (hc : coord x.items x.r x.b t = .ok (some c)) {c' : Coordinate}
    (hne : c' ≠ c) : x.partAt cal c' t = none := by
  unfold partAt
  rw [hc]
  dsimp only
  rw [if_neg (Ne.symm hne)]

theorem partAt_null (hc : coord x.items x.r x.b t = .ok none) (c : Coordinate) :
    x.partAt cal c t = none := by
  unfold partAt
  rw [hc]

theorem Folded.perm (h : x.Folded cal folds inputs rows) {others : List Tuple}
    (hperm : rows.Perm others) : x.Folded cal folds inputs others where
  readable := fun t ht => h.readable t (hperm.mem_iff.mpr ht)
  fold := fun c f hf => (h.fold c f hf).perm (hperm.filterMap _)
  absent := fun c hc => List.nil_perm.mp (h.absent c hc ▸ hperm.filterMap _)
  cell := h.cell

/-! ### One tuple -/

section Step

variable {m m' : Model} {touched touched' : Touched} {folds' : SortedMap Coordinate Fold} {k : Int}

/-- A fold with a part added, offered where it was put in. -/
def addedFold (x : Folder) (f : Fold) (p : Part) (k : Int) : Fold :=
  if 0 < k then (f.add p k).1.offer p x.agg x.cmp else (f.add p k).1

/-- What one tuple taken out of, or put into, its coordinate's fold does. -/
theorem foldPart_cases
    (h : foldPart cal x.items x.cmp x.agg x.r x.b x.vt t k (folds, m, touched) =
      .ok (folds', m', touched')) :
    (coord x.items x.r x.b t = .ok none ∧ folds' = folds ∧ m' = m) ∨
      ∃ c p, coord x.items x.r x.b t = .ok (some c) ∧ part cal x.agg x.r x.b t x.vt = .ok p ∧
        (((folds.get? c).getD .default).add p k).2 = true ∧
        ∃ g, g = addedFold x ((folds.get? c).getD .default) p k ∧
          folds' = (if (g.cell cal x.agg (valueOid x.r x.b) x.cmp).2.rows = 0 then folds.erase c
            else folds.insert c (g.cell cal x.agg (valueOid x.r x.b) x.cmp).2) ∧
          m' = { m with inputs := m.inputs.write ⟨x.b.measure, c⟩ (x.cellOf cal g) } := by
  unfold foldPart at h
  simp only [bind_eq_ok_iff] at h
  obtain ⟨c, hc, h⟩ := h
  cases c with
  | none =>
      cases h
      exact .inl ⟨hc, rfl, rfl⟩
  | some c =>
      simp only [bind_eq_ok_iff] at h
      obtain ⟨p, hp, h⟩ := h
      cases hok : (((folds.get? c).getD .default).add p k).2 with
      | false =>
          simp only [hok, Bool.not_false, if_true] at h
          cases h
      | true =>
          simp only [hok, Bool.not_true, Bool.false_eq_true, if_false, Except.ok.injEq,
            Prod.mk.injEq] at h
          obtain ⟨hfolds, hm, _⟩ := h
          exact .inr ⟨c, p, hc, hp, hok, _, rfl, hfolds.symm, hm.symm⟩

theorem foldPart_error {e : Rebuild}
    (h : foldPart cal x.items x.cmp x.agg x.r x.b x.vt t k (folds, m, touched) = .error e) :
    ReadError e ∨ ∃ c p, coord x.items x.r x.b t = .ok (some c) ∧
      part cal x.agg x.r x.b t x.vt = .ok p ∧
        (((folds.get? c).getD .default).add p k).2 = false := by
  unfold foldPart at h
  simp only [bind_eq_error_iff] at h
  rcases h with h | ⟨c, hc, h⟩
  · exact .inl (coord_error h)
  · cases c with
    | none => cases h
    | some c =>
        simp only [bind_eq_error_iff] at h
        rcases h with h | ⟨p, hp, h⟩
        · exact .inl (part_error h)
        · right
          refine ⟨c, p, hc, hp, ?_⟩
          cases hok : (((folds.get? c).getD .default).add p k).2 with
          | false => rfl
          | true =>
              simp only [hok, Bool.not_true, Bool.false_eq_true, if_false] at h
              cases h

theorem Folded.getD (h : x.Folded cal folds inputs rows) (c : Coordinate) :
    ((folds.get? c).getD .default).Of x.agg x.cmp (x.partsAt cal rows c) := by
  cases hf : folds.get? c with
  | none =>
      rw [h.absent c hf]
      exact .empty x.agg x.cmp
  | some f => exact h.fold c f hf

/-- One coordinate's fold set to that of other rows, and its cell with it. -/
theorem Folded.set (hcmp : Lawful x.cmp) (h : x.Folded cal folds inputs rows)
    {others : List Tuple} {inputs' : SortedMap Cell Value} {g : Fold}
    (hreadable : ∀ t ∈ others, x.Readable cal t)
    (hothers : ∀ c', c' ≠ c → x.partsAt cal others c' = x.partsAt cal rows c')
    (hholds : g.Holds x.agg (tally (x.partsAt cal others c)))
    (hoffered : Offered x.agg x.cmp g.best (keysOf (x.partsAt cal others c)))
    (hinputs : ∀ c', inputs'.get? ⟨x.b.measure, c'⟩ =
      if c' = c then x.cellOf cal g else inputs.get? ⟨x.b.measure, c'⟩) :
    x.Folded cal (if (g.cell cal x.agg (valueOid x.r x.b) x.cmp).2.rows = 0 then folds.erase c
      else folds.insert c (g.cell cal x.agg (valueOid x.r x.b) x.cmp).2) inputs' others := by
  have hof : (g.cell cal x.agg (valueOid x.r x.b) x.cmp).2.Of x.agg x.cmp
      (x.partsAt cal others c) :=
    ⟨cell_holds _ _ _ hholds, cell_kept _ _ hholds hcmp hoffered⟩
  have hcell : x.cellOf cal (g.cell cal x.agg (valueOid x.r x.b) x.cmp).2 = x.cellOf cal g :=
    cell_stable hholds hcmp hoffered
  generalize hlooked : (g.cell cal x.agg (valueOid x.r x.b) x.cmp).2 = looked at hof hcell ⊢
  have hrows := hof.holds.rows
  rw [tally_rows] at hrows
  by_cases hzero : looked.rows = 0
  · have hnil : x.partsAt cal others c = [] := List.eq_nil_of_length_eq_zero (by omega)
    have hnone : x.cellOf cal g = none := by
      rw [← hcell]
      unfold cellOf Fold.cell
      rw [if_pos hzero.le]
    rw [if_pos hzero]
    refine ⟨hreadable, ?_, ?_, ?_⟩
    · intro c' f hf
      rw [SortedMap.get?_erase] at hf
      by_cases hc : c' = c
      · rw [if_pos hc] at hf
        cases hf
      · rw [if_neg hc] at hf
        rw [hothers c' hc]
        exact h.fold c' f hf
    · intro c' hf
      rw [SortedMap.get?_erase] at hf
      by_cases hc : c' = c
      · rw [hc]
        exact hnil
      · rw [if_neg hc] at hf
        rw [hothers c' hc]
        exact h.absent c' hf
    · intro c'
      rw [hinputs, SortedMap.get?_erase]
      by_cases hc : c' = c
      · rw [if_pos hc, if_pos hc]
        exact hnone
      · rw [if_neg hc, if_neg hc]
        exact h.cell c'
  · rw [if_neg hzero]
    refine ⟨hreadable, ?_, ?_, ?_⟩
    · intro c' f hf
      rw [SortedMap.get?_insert] at hf
      by_cases hc : c' = c
      · rw [if_pos hc, Option.some.injEq] at hf
        rw [← hf, hc]
        exact hof
      · rw [if_neg hc] at hf
        rw [hothers c' hc]
        exact h.fold c' f hf
    · intro c' hf
      rw [SortedMap.get?_insert] at hf
      by_cases hc : c' = c
      · rw [if_pos hc] at hf
        cases hf
      · rw [if_neg hc] at hf
        rw [hothers c' hc]
        exact h.absent c' hf
    · intro c'
      rw [hinputs, SortedMap.get?_insert]
      by_cases hc : c' = c
      · rw [if_pos hc, if_pos hc]
        exact hcell.symm
      · rw [if_neg hc, if_neg hc]
        exact h.cell c'

theorem coord_of_sent {stored : Tuple} (hsent : Sent t stored) {o : Option Coordinate}
    (h : coord x.items x.r x.b t = .ok o) : coord x.items x.r x.b stored = .ok o := by
  unfold coord at h ⊢
  rw [bind_eq_ok_iff] at h ⊢
  obtain ⟨names, hnames, h⟩ := h
  exact ⟨names, mapM_ok_of (fun d _ y hy => dimName_of_sent hsent hy) hnames, h⟩

theorem part_of_sent {stored : Tuple} (hsent : Sent t stored)
    (h : part cal x.agg x.r x.b t x.vt = .ok p) : part cal x.agg x.r x.b stored x.vt = .ok p := by
  unfold part at h ⊢
  rw [bind_eq_ok_iff] at h ⊢
  obtain ⟨s, hs, h⟩ := h
  exact ⟨s, text_of_sent hsent hs, h⟩

theorem write_touches (m : Model) (k : Cell) (v : Option Value) :
    Touches k.measure m { m with inputs := m.inputs.write k v } := by
  refine ⟨rfl, fun j hj => ?_⟩
  have hne : j ≠ k := fun heq => hj (heq ▸ rfl)
  change (m.inputs.write k v).get? j = _
  rw [SortedMap.get?_write, if_neg hne]

theorem get?_write_cell (m : Model) (measure : MeasureId) (c : Coordinate) (v : Option Value)
    (c' : Coordinate) : (m.inputs.write ⟨measure, c⟩ v).get? ⟨measure, c'⟩ =
      if c' = c then v else m.inputs.get? ⟨measure, c'⟩ := by
  rw [SortedMap.get?_write]
  by_cases hc : c' = c
  · rw [if_pos hc, if_pos (by rw [hc])]
  · rw [if_neg hc, if_neg (fun heq => hc (Cell.mk.injEq .. ▸ heq : _ ∧ _).2)]

/-- A row put in keeps every fold that of its coordinate's rows. -/
theorem Folded.insert (hcmp : Lawful x.cmp) (h : x.Folded cal folds m.inputs rows)
    {stored : Tuple} (hsent : Sent t stored)
    (hstep : foldPart cal x.items x.cmp x.agg x.r x.b x.vt t 1 (folds, m, touched) =
      .ok (folds', m', touched')) :
    x.Folded cal folds' m'.inputs (stored :: rows) ∧ Touches x.b.measure m m' := by
  rcases foldPart_cases hstep with ⟨hc, rfl, rfl⟩ | ⟨c, p, hc, hp, _, g, hg, hfolds, hm⟩
  · have hnull := coord_of_sent hsent hc
    have hsame : ∀ c, x.partsAt cal (stored :: rows) c = x.partsAt cal rows c := by
      intro c
      rw [partsAt_cons, partAt_null hnull]
      rfl
    refine ⟨⟨?_, ?_, ?_, h.cell⟩, .refl _ _⟩
    · intro u hu
      rcases List.mem_cons.mp hu with rfl | hu
      · exact .inl hnull
      · exact h.readable u hu
    · intro c f hf
      rw [hsame]
      exact h.fold c f hf
    · intro c hf
      rw [hsame]
      exact h.absent c hf
  · have hcoord := coord_of_sent hsent hc
    have hpart := part_of_sent hsent hp
    have hparts : x.partsAt cal (stored :: rows) c = p :: x.partsAt cal rows c := by
      rw [partsAt_cons, partAt_self hcoord hpart]
      rfl
    have hrow := insert_row (p := p) hcmp (h.getD c)
    have hg' : g = (((folds.get? c).getD .default).add p 1).1.offer p x.agg x.cmp :=
      hg.trans (if_pos Int.one_pos)
    subst hg' hfolds hm
    refine ⟨h.set hcmp ?_ ?_ ?_ ?_ (get?_write_cell m _ c _), write_touches m ⟨_, c⟩ _⟩
    · intro u hu
      rcases List.mem_cons.mp hu with rfl | hu
      · exact .inr ⟨c, p, hcoord, hpart⟩
      · exact h.readable u hu
    · intro c' hne
      rw [partsAt_cons, partAt_other hcoord hne]
      rfl
    · rw [hparts]
      exact hrow.2.1
    · rw [hparts]
      exact hrow.2.2

/-- A row taken out keeps every fold that of its coordinate's rows. -/
theorem Folded.remove (hcmp : Lawful x.cmp) {stored : Tuple}
    (h : x.Folded cal folds m.inputs (stored :: rows)) (hsent : Sent t stored)
    (hstep : foldPart cal x.items x.cmp x.agg x.r x.b x.vt t (-1) (folds, m, touched) =
      .ok (folds', m', touched')) :
    x.Folded cal folds' m'.inputs rows ∧ Touches x.b.measure m m' := by
  have hreadable : ∀ u ∈ rows, x.Readable cal u := fun u hu =>
    h.readable u (List.mem_cons_of_mem stored hu)
  rcases foldPart_cases hstep with ⟨hc, rfl, rfl⟩ | ⟨c, p, hc, hp, _, g, hg, hfolds, hm⟩
  · have hnull := coord_of_sent hsent hc
    have hsame : ∀ c, x.partsAt cal (stored :: rows) c = x.partsAt cal rows c := by
      intro c
      rw [partsAt_cons, partAt_null hnull]
      rfl
    refine ⟨⟨hreadable, ?_, ?_, h.cell⟩, .refl _ _⟩
    · intro c f hf
      rw [← hsame]
      exact h.fold c f hf
    · intro c hf
      rw [← hsame]
      exact h.absent c hf
  · have hcoord := coord_of_sent hsent hc
    have hpart := part_of_sent hsent hp
    have hparts : x.partsAt cal (stored :: rows) c = p :: x.partsAt cal rows c := by
      rw [partsAt_cons, partAt_self hcoord hpart]
      rfl
    have hfold := h.getD c
    rw [hparts] at hfold
    have hrow := remove_row hfold
    have hg' : g = (((folds.get? c).getD .default).add p (-1)).1 := hg.trans (if_neg (by decide))
    subst hg' hfolds hm
    refine ⟨h.set hcmp hreadable ?_ hrow.2.1 hrow.2.2 (get?_write_cell m _ c _),
      write_touches m ⟨_, c⟩ _⟩
    intro c' hne
    rw [partsAt_cons, partAt_other hcoord hne]
    rfl

/-- A row put in is never out of step. -/
theorem Folded.insert_error (hcmp : Lawful x.cmp) (h : x.Folded cal folds m.inputs rows)
    {e : Rebuild}
    (hstep : foldPart cal x.items x.cmp x.agg x.r x.b x.vt t 1 (folds, m, touched) = .error e) :
    ReadError e := by
  rcases foldPart_error hstep with he | ⟨c, p, _, _, hbad⟩
  · exact he
  · rw [(insert_row (p := p) hcmp (h.getD c)).1] at hbad
    cases hbad

/-- Nor is one taken out, where it is a row of the table. -/
theorem Folded.remove_error {stored : Tuple}
    (h : x.Folded cal folds m.inputs (stored :: rows)) (hsent : Sent t stored) {e : Rebuild}
    (hstep : foldPart cal x.items x.cmp x.agg x.r x.b x.vt t (-1) (folds, m, touched) = .error e) :
    ReadError e := by
  rcases foldPart_error hstep with he | ⟨c, p, hc, hp, hbad⟩
  · exact he
  · have hfold := h.getD c
    rw [partsAt_cons, partAt_self (coord_of_sent hsent hc) (part_of_sent hsent hp)] at hfold
    rw [(remove_row hfold).1] at hbad
    cases hbad

/-! ### One row change -/

/-- A change of one relation's rows, as the old row and the new row sent tell
it. -/
def RowTook (r : Relation) (old : Option (Option Tuple)) (new : Option Tuple)
    (rows rows' : List Tuple) : Prop :=
  match old, new with
  | none, some n => ∃ row, Sent n row ∧ rows'.Perm (row :: rows)
  | some o, some n => ∃ before after rest, Sent n after ∧ OldSent r o before after ∧
      rows.Perm (before :: rest) ∧ rows'.Perm (after :: rest)
  | some o, none => ∃ row rest, OldSent r o row row ∧ rows.Perm (row :: rest) ∧ rows'.Perm rest
  | none, none => rows' = rows

/-- An old row that is sent whole shows the row that was there. -/
theorem wholeRow_sent {r : Relation} {o : Option Tuple} {u : Option Tuple}
    (h : wholeRow r (some o) = .ok u) {before after : Tuple} (hold : OldSent r o before after) :
    ∃ t, u = some t ∧ Sent t before := by
  cases o with
  | none => cases h
  | some t =>
      unfold wholeRow at h
      dsimp only at h
      split at h
      · next hfull =>
          cases h
          unfold OldSent at hold
          rw [if_pos hfull] at hold
          exact ⟨t, rfl, hold t rfl⟩
      · cases h

theorem wholeRow_error {r : Relation} {old : Option (Option Tuple)} {e : Rebuild}
    (h : wholeRow r old = .error e) : e ≠ outOfStep := by
  have heq : e = ⟨"old row not replicated"⟩ := by
    unfold wholeRow at h
    split at h
    · cases h
    · split at h
      · cases h
      · cases h
        rfl
    · cases h
      rfl
  rw [heq]
  decide

/-- A step leads to the folds and the cells of some rows, or asks for a rebuild
because a row cannot be followed: never because a fold went out of step. -/
def Keeps (cal : Calendar) (x : Folder) (m : Model) (rows : List Tuple) :
    Except Rebuild (SortedMap Coordinate Fold × Model × Touched) → Prop
  | .ok s => x.Folded cal s.1 s.2.1.inputs rows ∧ Touches x.b.measure m s.2.1
  | .error e => e ≠ outOfStep

theorem Keeps.bind {step : Except Rebuild (SortedMap Coordinate Fold × Model × Touched)}
    {f : SortedMap Coordinate Fold × Model × Touched →
      Except Rebuild (SortedMap Coordinate Fold × Model × Touched)} {rows' : List Tuple}
    (h : Keeps cal x m rows step)
    (hf : ∀ s, x.Folded cal s.1 s.2.1.inputs rows → Keeps cal x s.2.1 rows' (f s)) :
    Keeps cal x m rows' (step.bind f) := by
  cases step with
  | error e => exact h
  | ok s =>
      obtain ⟨hfolded, htouches⟩ := h
      have hnext := hf s hfolded
      change Keeps cal x m rows' (f s)
      cases hstep : f s with
      | error e =>
          rw [hstep] at hnext
          exact hnext
      | ok s' =>
          rw [hstep] at hnext
          exact ⟨hnext.1, htouches.trans hnext.2⟩

theorem insert_keeps (hcmp : Lawful x.cmp) (h : x.Folded cal folds m.inputs rows)
    {stored : Tuple} (hsent : Sent t stored) : Keeps cal x m (stored :: rows)
      (foldPart cal x.items x.cmp x.agg x.r x.b x.vt t 1 (folds, m, touched)) := by
  cases hstep : foldPart cal x.items x.cmp x.agg x.r x.b x.vt t 1 (folds, m, touched) with
  | ok s => exact h.insert hcmp hsent hstep
  | error e => exact (h.insert_error hcmp hstep).ne

theorem remove_keeps (hcmp : Lawful x.cmp) {stored : Tuple}
    (h : x.Folded cal folds m.inputs (stored :: rows)) (hsent : Sent t stored) :
    Keeps cal x m rows
      (foldPart cal x.items x.cmp x.agg x.r x.b x.vt t (-1) (folds, m, touched)) := by
  cases hstep : foldPart cal x.items x.cmp x.agg x.r x.b x.vt t (-1) (folds, m, touched) with
  | ok s => exact h.remove hcmp hsent hstep
  | error e => exact (h.remove_error hsent hstep).ne

theorem Keeps.perm {step : Except Rebuild (SortedMap Coordinate Fold × Model × Touched)}
    {others : List Tuple} (h : Keeps cal x m rows step) (hperm : rows.Perm others) :
    Keeps cal x m others step := by
  cases step with
  | error e => exact h
  | ok s => exact ⟨h.1.perm hperm, h.2⟩

/-- A change made to the rows leads to the folds and the cells of the rows
after it. -/
theorem foldRow_keeps (hcmp : Lawful x.cmp) (hagg : x.b.agg = some x.agg)
    (hvt : valueType m x.b.measure = .ok x.vt) (h : x.Folded cal folds m.inputs rows)
    {old : Option (Option Tuple)} {new : Option Tuple} {rows' : List Tuple}
    (htook : RowTook x.r old new rows rows') :
    Keeps cal x m rows' (foldRow cal x.items x.cmp x.r x.b old new (folds, m, touched)) := by
  have hunfold : foldRow cal x.items x.cmp x.r x.b old new (folds, m, touched) =
      (wholeRow x.r old).bind fun u =>
        (u.elim (.ok (folds, m, touched)) fun t =>
          foldPart cal x.items x.cmp x.agg x.r x.b x.vt t (-1) (folds, m, touched)).bind fun s =>
            new.elim (.ok s) fun t =>
              foldPart cal x.items x.cmp x.agg x.r x.b x.vt t 1 s := by
    unfold foldRow
    rw [hagg, hvt]
    rfl
  rw [hunfold]
  cases hwhole : wholeRow x.r old with
  | error e => exact wholeRow_error hwhole
  | ok u =>
      change Keeps cal x m rows' (Except.bind (u.elim _ _) _)
      cases old with
      | none =>
          cases hwhole
          cases new with
          | none =>
              obtain rfl : rows' = rows := htook
              exact ⟨h, .refl _ _⟩
          | some n =>
              obtain ⟨row, hsent, hperm⟩ := htook
              exact (insert_keeps hcmp h hsent).perm hperm.symm
      | some o =>
          cases new with
          | none =>
              obtain ⟨row, rest, hold, hperm, hperm'⟩ := htook
              obtain ⟨t, rfl, hsent⟩ := wholeRow_sent hwhole hold
              have hdone : ∀ s : SortedMap Coordinate Fold × Model × Touched,
                  x.Folded cal s.1 s.2.1.inputs rest → Keeps cal x s.2.1 rest (.ok s) :=
                fun s hs => ⟨hs, .refl _ _⟩
              exact ((remove_keeps hcmp (h.perm hperm) hsent).bind hdone).perm hperm'.symm
          | some n =>
              obtain ⟨before, after, rest, hsent', hold, hperm, hperm'⟩ := htook
              obtain ⟨t, rfl, hsent⟩ := wholeRow_sent hwhole hold
              exact ((remove_keeps hcmp (h.perm hperm) hsent).bind fun s hs =>
                insert_keeps hcmp hs hsent').perm hperm'.symm

end Step

/-! ### A seed -/

section Seed

variable {folds' : SortedMap Coordinate Fold} {group : List Tuple} {out : FoldRow}

/-- The folds of the rows seeded so far, before any best is looked for. -/
structure Seeded (cal : Calendar) (x : Folder) (folds : SortedMap Coordinate Fold)
    (rows : List Tuple) : Prop where
  readable : ∀ t ∈ rows, x.Readable cal t
  holds : ∀ c f, folds.get? c = some f → f.Holds x.agg (tally (x.partsAt cal rows c))
  best : ∀ c f, folds.get? c = some f → f.best = none
  absent : ∀ c, folds.get? c = none → x.partsAt cal rows c = []

theorem Seeded.empty (cal : Calendar) (x : Folder) : x.Seeded cal .empty [] where
  readable := fun _ ht => absurd ht List.not_mem_nil
  holds := fun c _ hf => absurd hf (by simp)
  best := fun c _ hf => absurd hf (by simp)
  absent := fun _ _ => rfl

theorem Seeded.getD (h : x.Seeded cal folds rows) (c : Coordinate) :
    ((folds.get? c).getD .default).Holds x.agg (tally (x.partsAt cal rows c)) ∧
      ((folds.get? c).getD .default).best = none := by
  cases hf : folds.get? c with
  | none =>
      rw [h.absent c hf]
      exact ⟨.empty x.agg, rfl⟩
  | some f => exact ⟨h.holds c f hf, h.best c f hf⟩

theorem partsAt_append (others rows : List Tuple) (c : Coordinate) :
    x.partsAt cal (others ++ rows) c = x.partsAt cal others c ++ x.partsAt cal rows c :=
  List.filterMap_append

/-- The coordinate of a group's rows is that of the query's row. -/
theorem coord_of_group {sums : Sums} (hg : GroupOf sums x.r x.b x.agg group out)
    {o : Option Coordinate} (ho : coordOf x.items x.b out.dims = .ok o) (ht : t ∈ group) :
    coord x.items x.r x.b t = .ok o := by
  unfold coord
  rw [bind_eq_ok_iff]
  exact ⟨out.dims, hg.dims t ht, ho⟩

theorem partsAt_null (h : ∀ t ∈ group, coord x.items x.r x.b t = .ok none) (c : Coordinate) :
    x.partsAt cal group c = [] := by
  unfold partsAt
  rw [List.filterMap_eq_nil_iff]
  exact fun t ht => partAt_null (h t ht) c

theorem partsAt_other (h : ∀ t ∈ group, coord x.items x.r x.b t = .ok (some c))
    {c' : Coordinate} (hne : c' ≠ c) : x.partsAt cal group c' = [] := by
  unfold partsAt
  rw [List.filterMap_eq_nil_iff]
  exact fun t ht => partAt_other (h t ht) hne

theorem partsAt_self (h : ∀ t ∈ group, coord x.items x.r x.b t = .ok (some c))
    {parts : List Part} (hp : Parts cal x.agg x.r x.b x.vt group parts) :
    x.partsAt cal group c = parts := by
  induction hp with
  | nil => rfl
  | @cons t p group parts ht _ ih =>
      rw [partsAt_cons, partAt_self (h t List.mem_cons_self) ht,
        ih fun u hu => h u (List.mem_cons_of_mem t hu)]
      rfl

theorem seedFold_best {f f' : Fold} {ok : Bool}
    (h : seedFold cal x.agg x.vt (valueOid x.r x.b) f out = .ok (f', ok)) : f'.best = f.best := by
  unfold seedFold at h
  split at h
  · cases h
    rfl
  · next s hs =>
      cases hp : partOf cal x.agg x.vt (valueOid x.r x.b) s with
      | error e =>
          rw [hp] at h
          cases h
      | ok p =>
          rw [hp] at h
          have hbest : ∀ g : Fold, (g.addGroup p out.n).1.best = g.best := by
            intro g
            unfold Fold.addGroup
            split
            · split
              · dsimp only
                split
                · rw [add_best, add_best]
                · rw [add_best]
              · exact add_best _ _ _
            · exact add_best _ _ _
          have hnew := hbest { f with rows := f.rows + (out.all - out.n) }
          have heq : ({ f with rows := f.rows + (out.all - out.n) } : Fold).addGroup p out.n =
              (f', ok) := Except.ok.inj h
          rw [heq] at hnew
          exact hnew

theorem seedFold_error {f : Fold} {e : Rebuild}
    (h : seedFold cal x.agg x.vt (valueOid x.r x.b) f out = .error e) : ReadError e := by
  unfold seedFold at h
  split at h
  · cases h
  · next s hs =>
      cases hp : partOf cal x.agg x.vt (valueOid x.r x.b) s with
      | error e' =>
          rw [hp] at h
          cases h
          exact .inl (partOf_error hp)
      | ok p =>
          rw [hp] at h
          cases h

theorem parts_mem {parts : List Part} (h : Parts cal x.agg x.r x.b x.vt group parts)
    (ht : t ∈ group) : ∃ p, part cal x.agg x.r x.b t x.vt = .ok p := by
  induction h with
  | nil => cases ht
  | @cons u p group parts hu _ ih =>
      rcases List.mem_cons.mp ht with rfl | ht
      · exact ⟨p, hu⟩
      · exact ih ht

theorem seedRow_eq (folds : SortedMap Coordinate Fold) (row : FoldRow) :
    seedRow cal x.items x.b x.agg x.vt (valueOid x.r x.b) folds row =
      (coordOf x.items x.b row.dims).bind fun o =>
        match o with
        | none => .ok folds
        | some c =>
          (seedFold cal x.agg x.vt (valueOid x.r x.b) ((folds.get? c).getD .default) row).bind
            fun s => if s.2 then .ok (folds.insert c s.1) else .error outOfStep := by
  unfold seedRow seedFold
  cases coordOf x.items x.b row.dims with
  | error e => rfl
  | ok o =>
      cases o with
      | none => rfl
      | some c =>
          cases row.value <;> rfl

/-- A row of the query puts its group's rows into the folds: it is never out of
step. -/
theorem Seeded.row (h : x.Seeded cal folds rows)
    (hg : GroupOf (SumsExactly x.agg) x.r x.b x.agg group out)
    (htype : x.agg = .min ∨ x.agg = .max → ColumnType x.vt (valueOid x.r x.b)) :
    (∀ folds', seedRow cal x.items x.b x.agg x.vt (valueOid x.r x.b) folds out = .ok folds' →
      x.Seeded cal folds' (group ++ rows)) ∧
    ∀ e, seedRow cal x.items x.b x.agg x.vt (valueOid x.r x.b) folds out = .error e →
      ReadError e := by
  rw [seedRow_eq]
  cases ho : coordOf x.items x.b out.dims with
  | error e =>
      refine ⟨nofun, fun e' he' => ?_⟩
      cases he'
      exact coordOf_error ho
  | ok o =>
      cases o with
      | none =>
          refine ⟨fun folds' hok => ?_, nofun⟩
          cases hok
          have hnull : ∀ t ∈ group, coord x.items x.r x.b t = .ok none :=
            fun t ht => coord_of_group hg ho ht
          have hsame : ∀ c, x.partsAt cal (group ++ rows) c = x.partsAt cal rows c := by
            intro c
            rw [partsAt_append, partsAt_null hnull, List.nil_append]
          refine ⟨?_, ?_, h.best, ?_⟩
          · intro t ht
            rcases List.mem_append.mp ht with ht | ht
            · exact .inl (hnull t ht)
            · exact h.readable t ht
          · intro c f hf
            rw [hsame]
            exact h.holds c f hf
          · intro c hf
            rw [hsame]
            exact h.absent c hf
      | some c =>
          have hcoord : ∀ t ∈ group, coord x.items x.r x.b t = .ok (some c) :=
            fun t ht => coord_of_group hg ho ht
          obtain ⟨hholds, hbest⟩ := h.getD c
          change (∀ folds', (seedFold _ _ _ _ _ _).bind _ = .ok folds' → _) ∧
            ∀ e, (seedFold _ _ _ _ _ _).bind _ = .error e → _
          cases hseed : seedFold cal x.agg x.vt (valueOid x.r x.b)
              ((folds.get? c).getD .default) out with
          | error e =>
              refine ⟨nofun, fun e' he' => ?_⟩
              cases he'
              exact seedFold_error hseed
          | ok s =>
              obtain ⟨f', ok⟩ := s
              obtain ⟨rfl, parts, hparts, hnew⟩ := seedFold_spec hholds hg htype hseed
              refine ⟨fun folds' hok => ?_, nofun⟩
              obtain rfl : folds.insert c f' = folds' := Except.ok.inj hok
              have hself : x.partsAt cal (group ++ rows) c = parts ++ x.partsAt cal rows c := by
                rw [partsAt_append, partsAt_self hcoord hparts]
              have hother : ∀ c', c' ≠ c →
                  x.partsAt cal (group ++ rows) c' = x.partsAt cal rows c' := by
                intro c' hne
                rw [partsAt_append, partsAt_other hcoord hne, List.nil_append]
              refine ⟨?_, ?_, ?_, ?_⟩
              · intro t ht
                rcases List.mem_append.mp ht with ht | ht
                · obtain ⟨p, hp⟩ := parts_mem hparts ht
                  exact .inr ⟨c, p, hcoord t ht, hp⟩
                · exact h.readable t ht
              · intro c' f hf
                rw [SortedMap.get?_insert] at hf
                by_cases hc : c' = c
                · rw [if_pos hc, Option.some.injEq] at hf
                  rw [← hf, hc, hself]
                  exact hnew
                · rw [if_neg hc] at hf
                  rw [hother c' hc]
                  exact h.holds c' f hf
              · intro c' f hf
                rw [SortedMap.get?_insert] at hf
                by_cases hc : c' = c
                · rw [if_pos hc, Option.some.injEq] at hf
                  rw [← hf, seedFold_best hseed]
                  exact hbest
                · rw [if_neg hc] at hf
                  exact h.best c' f hf
              · intro c' hf
                rw [SortedMap.get?_insert] at hf
                by_cases hc : c' = c
                · rw [if_pos hc] at hf
                  cases hf
                · rw [if_neg hc] at hf
                  rw [hother c' hc]
                  exact h.absent c' hf

/-- The rows of the query put every group's rows into the folds. -/
theorem Seeded.all
    (htype : x.agg = .min ∨ x.agg = .max → ColumnType x.vt (valueOid x.r x.b))
    {groups : List (List Tuple)} {outs : List FoldRow}
    (hg : List.Forall₂ (GroupOf (SumsExactly x.agg) x.r x.b x.agg) groups outs)
    (h : x.Seeded cal folds rows) :
    (∀ folds', outs.foldlM (seedRow cal x.items x.b x.agg x.vt (valueOid x.r x.b)) folds =
        .ok folds' → ∃ others, others.Perm (groups.flatten ++ rows) ∧ x.Seeded cal folds' others) ∧
    ∀ e, outs.foldlM (seedRow cal x.items x.b x.agg x.vt (valueOid x.r x.b)) folds = .error e →
      ReadError e := by
  induction hg generalizing folds rows with
  | nil =>
      refine ⟨fun folds' hok => ?_, nofun⟩
      cases hok
      exact ⟨rows, .refl _, h⟩
  | @cons group out groups outs hgroup _ ih =>
      obtain ⟨hstep, herror⟩ := h.row hgroup htype
      rw [List.foldlM_cons]
      constructor
      · intro folds' hok
        rw [bind_eq_ok_iff] at hok
        obtain ⟨folds1, hfirst, hok⟩ := hok
        obtain ⟨others, hperm, hseeded⟩ := (ih (hstep folds1 hfirst)).1 folds' hok
        refine ⟨others, hperm.trans ?_, hseeded⟩
        rw [List.flatten_cons, List.append_assoc]
        rw [← List.append_assoc, ← List.append_assoc]
        exact List.perm_append_comm.append_right rows
      · intro e he
        rw [bind_eq_error_iff] at he
        rcases he with he | ⟨folds1, hfirst, he⟩
        · exact herror e he
        · exact (ih (hstep folds1 hfirst)).2 e he

/-- Cells set to those of some folds, one at a time. -/
theorem get?_foldl_cells {measure : MeasureId} {cellOf : Fold → Option Value}
    {entries : List (Coordinate × Fold)} (hnodup : (entries.map (·.1)).Nodup)
    (inputs : SortedMap Cell Value) (k : Cell) :
    (entries.foldl (fun inputs p =>
      match cellOf p.2 with
      | some v => inputs.insert ⟨measure, p.1⟩ v
      | none => inputs) inputs).get? k =
      if k.measure = measure then
        ((entries.find? fun p => p.1 = k.coord).bind fun p => cellOf p.2).or (inputs.get? k)
      else inputs.get? k := by
  induction entries generalizing inputs with
  | nil =>
      rw [List.foldl_nil, List.find?_nil]
      split <;> rfl
  | cons p entries ih =>
      rw [List.map_cons, List.nodup_cons] at hnodup
      rw [List.foldl_cons, ih hnodup.2]
      by_cases hk : k.measure = measure
      · rw [if_pos hk, if_pos hk]
        by_cases hc : p.1 = k.coord
        · have hfirst : ((p :: entries).find? fun p => p.1 = k.coord) = some p :=
            List.find?_cons_of_pos (by simpa using hc)
          have hrest : (entries.find? fun p => p.1 = k.coord) = none := by
            rw [List.find?_eq_none]
            intro q hq heq
            have heq : q.1 = k.coord := by simpa using heq
            exact hnodup.1 (hc.trans heq.symm ▸ List.mem_map_of_mem hq)
          have hkey : k = ⟨measure, p.1⟩ := by rw [hc, ← hk]
          rw [hfirst, hrest, Option.bind_some, Option.bind_none, Option.none_or]
          cases hv : cellOf p.2 with
          | none => rw [Option.none_or]
          | some v =>
              rw [Option.some_or, hkey]
              exact SortedMap.get?_insert_self _ _ _
        · have hfirst : ((p :: entries).find? fun p => p.1 = k.coord) =
              entries.find? fun p => p.1 = k.coord :=
            List.find?_cons_of_neg (by simpa using hc)
          rw [hfirst]
          cases hv : cellOf p.2 with
          | none => rfl
          | some v =>
              dsimp only
              rw [SortedMap.get?_insert, if_neg (fun heq => hc (by rw [heq]))]
      · rw [if_neg hk, if_neg hk]
        cases hv : cellOf p.2 with
        | none => rfl
        | some v =>
            dsimp only
            rw [SortedMap.get?_insert, if_neg (fun heq => hk (by rw [heq]))]

theorem get?_seedCells (oid : Nat) (measure : MeasureId) (agg : Agg) (cmp : Option TextCmp)
    (folds : SortedMap Coordinate Fold) (inputs : SortedMap Cell Value) (k : Cell) :
    (Mapper.seedCells cal agg oid cmp measure folds inputs).get? k =
      if k.measure = measure then (folds.get? k.coord).bind fun f => (f.cell cal agg oid cmp).1
      else inputs.get? k := by
  refine (@get?_foldl_cells measure (fun f => (f.cell cal agg oid cmp).1) folds.entries
    folds.nodup_keys (inputs.filter fun k _ => k.measure ≠ measure) k).trans ?_
  by_cases hk : k.measure = measure
  · rw [if_pos hk, if_pos hk, SortedMap.get?_filter]
    have hnone : (inputs.get? k).filter (fun _ => decide (k.measure ≠ measure)) = none := by
      rw [Option.filter_eq_none_iff]
      intro v _
      simpa using hk
    rw [hnone, Option.or_none]
    unfold SortedMap.get?
    rw [Option.bind_map]
    congr!
  · rw [if_neg hk, if_neg hk, SortedMap.get?_filter]
    cases inputs.get? k with
    | none => rfl
    | some v => simp [Option.filter, hk]

/-- The folds and the cells that a seed leaves are those of the rows it read. -/
theorem Seeded.folded (hcmp : Lawful x.cmp) (h : x.Seeded cal folds rows)
    (inputs : SortedMap Cell Value) :
    x.Folded cal (folds.map fun _ f => (f.cell cal x.agg (valueOid x.r x.b) x.cmp).2)
      (Mapper.seedCells cal x.agg (valueOid x.r x.b) x.cmp x.b.measure folds inputs) rows := by
  have hoffered : ∀ c f, folds.get? c = some f →
      Offered x.agg x.cmp f.best (keysOf (x.partsAt cal rows c)) := by
    intro c f hf _ _ _ k hk
    rw [h.best c f hf] at hk
    cases hk
  refine ⟨h.readable, ?_, ?_, ?_⟩
  · intro c f hf
    rw [SortedMap.get?_map, Option.map_eq_some_iff] at hf
    obtain ⟨g, hg, rfl⟩ := hf
    exact ⟨cell_holds _ _ _ (h.holds c g hg), cell_kept _ _ (h.holds c g hg) hcmp (hoffered c g hg)⟩
  · intro c hf
    rw [SortedMap.get?_map, Option.map_eq_none_iff] at hf
    exact h.absent c hf
  · intro c
    rw [get?_seedCells, if_pos rfl, SortedMap.get?_map]
    cases hf : folds.get? c with
    | none => rfl
    | some f => exact (cell_stable (h.holds c f hf) hcmp (hoffered c f hf)).symm

end Seed

end Folder

end Improv.PgModel
