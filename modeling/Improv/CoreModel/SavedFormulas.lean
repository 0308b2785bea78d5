import Improv.CoreModel.Deserialized
import Improv.CoreModel.SerializedDepth
/-!
# Saved formulas can be read back

The text of a formula that `checkDepth` accepts, alone or in a model, is read,
and says the same formula, each of its literals as it is read back.
-/

namespace Improv.CoreModel

open Improv.Lib JsonReader

/-- What reading and writing rest on: the tokens of numbers and strings, the
reader of whole texts, the numbers that the written ones read back as, and the
texts of dates. -/
structure Serde where
  tokens : Json.Tokens JsonNumber
  read : List UInt8 → Option Tree
  float : F64 → F64
  single : UInt32 → UInt32
  date : DateTime → String
  parseDate : String → Option DateTime

namespace Serde

variable (S : Serde)

/-- A number as it is read back. -/
def number : JsonNumber → JsonNumber
  | .int n => .int n
  | .float x => .float (S.float x)
  | .single bits => .single (S.single bits)

/-- The text of a tree. -/
def toText (L : Json.Layout) (t : Tree) : List UInt8 := t.write S.tokens L 0

/-- The reader gives back the tree of a text that the writer wrote. -/
def ReadsBack (L : Json.Layout) (t : Tree) : Prop :=
  S.read (S.toText L t) = some (t.map S.number)

end Serde

/-- A formula as a store reads it back from its JSON: none when it is deeper
than a stored one may be. -/
def Formula.fromJson (S : Serde) (json : List UInt8) : Except JsonError (Option Formula) :=
  match fromSlice S.read (Deserialized.formula S.parseDate) json with
  | .ok f =>
    match f.expr.checkDepth Expr.maxStoredFormulaDepth with
    | .error _ => .ok none
    | .ok () => .ok (some f)
  | .error .tooDeep => .ok none
  | .error .bad => .error .bad

/-! ## Machine integers -/

/-- The identifiers and indices of a value are machine integers. -/
def Value.fits : Value → Bool
  | .enum i => decide (i ≤ u32Max)
  | .error e => e.sourceMeasure.all fun m => decide (m.id ≤ u32Max)
  | _ => true

def DimensionSpec.fits (s : DimensionSpec) : Bool :=
  (s.byCats ++ s.overCats ++ s.exceptCats).all fun c => decide (c.id ≤ u32Max)

/-- The identifiers of a formula are machine integers. -/
def Expr.fits : Expr → Bool
  | .literal v => v.fits
  | .ref m spec => decide (m.id ≤ u32Max) && spec.fits
  | .unaryOp _ a => a.fits
  | .binaryOp _ a b => a.fits && b.fits
  | .call f args => decide (f.id ≤ u32Max) && fitsAll args
  | .category c => decide (c.id ≤ u32Max)
where
  fitsAll : List Expr → Bool
    | [] => true
    | a :: as => a.fits && fitsAll as

/-! ## Literals read back -/

/-- A literal as it is read back: a number that is not finite is written as null
and read as no number. -/
def Value.reread (S : Serde) : Value → Option Value
  | .number x => if x.isFinite then some (.number (S.float x)) else none
  | .dateTime t => (S.parseDate (S.date t)).map .dateTime
  | v => some v

/-- A formula with its literals as they are read back. -/
def Expr.reread (S : Serde) : Expr → Option Expr
  | .literal v => (v.reread S).map .literal
  | .ref m spec => some (.ref m spec)
  | .unaryOp op a => do some (.unaryOp op (← a.reread S))
  | .binaryOp op a b => do some (.binaryOp op (← a.reread S) (← b.reread S))
  | .call f args => do some (.call f (← rereadAll args))
  | .category c => some (.category c)
where
  rereadAll : List Expr → Option (List Expr)
    | [] => some []
    | a :: as => do some ((← a.reread S) :: (← rereadAll as))

/-- The literals of a formula. -/
def Expr.literals : Expr → List Value
  | .literal v => [v]
  | .ref .. | .category _ => []
  | .unaryOp _ a => a.literals
  | .binaryOp _ a b => a.literals ++ b.literals
  | .call _ args => literalsOf args
where
  literalsOf : List Expr → List Value
    | [] => []
    | a :: as => a.literals ++ literalsOf as

/-! ## Decoding what was encoded -/

namespace Deserialized

variable (S : Serde)

theorem nat_map {n : Nat} (h : n ≤ u32Max) : nat ((Serialized.nat n).map S.number) = some n := by
  show (if (0 : Int) ≤ n ∧ (n : Int) ≤ u32Max then some (n : Int).toNat else none) = some n
  rw [if_pos ⟨Int.natCast_nonneg n, Int.ofNat_le.mpr h⟩, Int.toNat_natCast]

theorem kind_map (k : ValueErrorKind) : kind ((Serialized.ofKind k).map S.number) = some k := by
  cases k <;> rfl

theorem float_map (x : F64) : float ((Serialized.float x).map S.number) =
    if x.isFinite then some (S.float x) else none := by
  unfold Serialized.float
  split_ifs <;> rfl

theorem unaryOp_map (op : UnaryOp) :
    unaryOp ((Json.string (Serialized.unaryName op)).map S.number) = some op := by
  cases op <;> rfl

theorem binaryOp_map (op : BinaryOp) :
    binaryOp ((Json.string (Serialized.binaryName op)).map S.number) = some op := by
  cases op <;> rfl

theorem error_map {e : ValueError} (h : (Value.error e).fits = true) :
    error ((Serialized.ofError e).map S.number) = some e := by
  obtain ⟨k, m⟩ := e
  have hkind : field "kind" ((Serialized.ofError ⟨k, m⟩).map S.number) =
      some ((Serialized.ofKind k).map S.number) := rfl
  have hsource : fieldOr "source_measure" ((Serialized.ofError ⟨k, m⟩).map S.number) =
      some (some ((Serialized.option (fun m : MeasureId => Serialized.nat m.id) m).map S.number)) :=
    rfl
  unfold error
  rw [hkind, hsource, Option.bind_some, kind_map]
  cases m with
  | none => rfl
  | some m =>
      have hm : m.id ≤ u32Max := of_decide_eq_true h
      have hoption : option nat ((Serialized.nat m.id).map S.number) = some (some m.id) :=
        congrArg (Option.map some) (nat_map S hm)
      show (option nat ((Serialized.nat m.id).map S.number)).bind _ = _
      rw [hoption]
      rfl

theorem value_map {v : Value} (h : v.fits = true) :
    value S.parseDate ((Serialized.ofValue S.date v).map S.number) = v.reread S := by
  cases v with
  | number x =>
      show (float ((Serialized.float x).map S.number)).map Value.number = _
      rw [float_map, Value.reread]
      by_cases hx : x.isFinite = true
      · rw [if_pos hx, if_pos hx, Option.map_some]
      · rw [if_neg hx, if_neg hx, Option.map_none]
  | boolean b => rfl
  | text s => rfl
  | dateTime t => rfl
  | enum i =>
      have hi : i ≤ u32Max := of_decide_eq_true h
      exact congrArg (Option.map Value.enum) (nat_map S hi)
  | error e => exact congrArg (Option.map Value.error) (error_map S h)

theorem categories_map {cs : List CategoryId} (h : ∀ c ∈ cs, c.id ≤ u32Max) :
    categories ((Serialized.ofCategories cs).map S.number) = some cs := by
  show ((Json.map.mapItems S.number (cs.map fun c => Serialized.nat c.id)).mapM
    fun t => (nat t).map CategoryId.mk) = some cs
  rw [Json.mapItems_eq, List.map_map]
  induction cs with
  | nil => rfl
  | cons c cs ih =>
      rw [List.map_cons, List.mapM_cons, ih fun c' hc' => h c' (List.mem_cons_of_mem c hc')]
      show Option.bind (Option.map _ (nat ((Serialized.nat c.id).map S.number))) _ = _
      rw [nat_map S (h c List.mem_cons_self)]
      rfl

theorem spec_map {s : DimensionSpec} (h : s.fits = true) :
    spec ((Serialized.ofSpec s).map S.number) = some s := by
  obtain ⟨byCats, overCats, exceptCats⟩ := s
  have hfits : ∀ c ∈ byCats ++ overCats ++ exceptCats, c.id ≤ u32Max := fun c hc =>
    of_decide_eq_true (List.all_eq_true.mp h c hc)
  simp only [List.forall_mem_append] at hfits
  have hby : field "by" ((Serialized.ofSpec ⟨byCats, overCats, exceptCats⟩).map S.number) =
      some ((Serialized.ofCategories byCats).map S.number) := rfl
  have hover : field "over" ((Serialized.ofSpec ⟨byCats, overCats, exceptCats⟩).map S.number) =
      some ((Serialized.ofCategories overCats).map S.number) := rfl
  have hexcept : field "except" ((Serialized.ofSpec ⟨byCats, overCats, exceptCats⟩).map S.number) =
      some ((Serialized.ofCategories exceptCats).map S.number) := rfl
  unfold spec
  rw [hby, hover, hexcept, Option.bind_some, Option.bind_some, Option.bind_some,
    categories_map S hfits.1.1, categories_map S hfits.1.2, categories_map S hfits.2]
  rfl

theorem exprs_map {args : List Expr}
    (h : ∀ a ∈ args, expr S.parseDate ((Serialized.ofExpr S.date a).map S.number) = a.reread S) :
    expr.exprs S.parseDate (Json.map.mapItems S.number (Serialized.ofExpr.ofExprs S.date args)) =
      Expr.reread.rereadAll S args := by
  induction args with
  | nil => rfl
  | cons a as ih =>
      rw [Serialized.ofExpr.ofExprs, Json.map.mapItems, expr.exprs, Expr.reread.rereadAll,
        h a List.mem_cons_self, ih fun b hb => h b (List.mem_cons_of_mem a hb)]

theorem fits_of_fitsAll {args : List Expr} (h : Expr.fits.fitsAll args = true) :
    ∀ a ∈ args, a.fits = true := by
  induction args with
  | nil => exact fun a ha => absurd ha List.not_mem_nil
  | cons a as ih =>
      rw [Expr.fits.fitsAll, Bool.and_eq_true] at h
      exact List.forall_mem_cons.mpr ⟨h.1, ih h.2⟩

/-- What the tree of a formula says, its numbers read back. -/
theorem expr_map {e : Expr} (h : e.fits = true) :
    expr S.parseDate ((Serialized.ofExpr S.date e).map S.number) = e.reread S := by
  induction e with
  | literal v => exact congrArg (Option.map Expr.literal) (value_map S h)
  | ref m s =>
      rw [Expr.fits, Bool.and_eq_true] at h
      show (nat ((Serialized.nat m.id).map S.number)).bind (fun n =>
        (spec ((Serialized.ofSpec s).map S.number)).bind fun s => some (Expr.ref ⟨n⟩ s)) = _
      rw [nat_map S (of_decide_eq_true h.1), spec_map S h.2]
      rfl
  | unaryOp op a iha =>
      show (unaryOp ((Json.string (Serialized.unaryName op)).map S.number)).bind (fun op =>
        (expr S.parseDate ((Serialized.ofExpr S.date a).map S.number)).bind fun a =>
          some (Expr.unaryOp op a)) = _
      rw [unaryOp_map, iha h]
      rfl
  | binaryOp op a b iha ihb =>
      rw [Expr.fits, Bool.and_eq_true] at h
      show (binaryOp ((Json.string (Serialized.binaryName op)).map S.number)).bind (fun op =>
        (expr S.parseDate ((Serialized.ofExpr S.date a).map S.number)).bind fun a =>
          (expr S.parseDate ((Serialized.ofExpr S.date b).map S.number)).bind fun b =>
            some (Expr.binaryOp op a b)) = _
      rw [binaryOp_map, iha h.1, ihb h.2]
      rfl
  | call f args ih =>
      rw [Expr.fits, Bool.and_eq_true] at h
      show (nat ((Serialized.nat f.id).map S.number)).bind (fun n =>
        (expr.exprs S.parseDate (Json.map.mapItems S.number
          (Serialized.ofExpr.ofExprs S.date args))).bind fun as => some (Expr.call ⟨n⟩ as)) = _
      rw [nat_map S (of_decide_eq_true h.1),
        exprs_map S fun a ha => ih a ha (fits_of_fitsAll h.2 a ha)]
      rfl
  | category c =>
      show (nat ((Serialized.nat c.id).map S.number)).map (fun n => Expr.category ⟨n⟩) = _
      rw [nat_map S (of_decide_eq_true h)]
      rfl

theorem formula_map {f : Formula} (h : f.expr.fits = true) :
    formula S.parseDate ((Serialized.ofFormula S.date f).map S.number) =
      (f.expr.reread S).map .mk := by
  show (expr S.parseDate ((Serialized.ofExpr S.date f.expr).map S.number)).map Formula.mk = _
  rw [expr_map S h]

end Deserialized

/-! ## Formulas read back -/

namespace Expr

variable {S : Serde}

theorem rereadAll_eq_some {args args' : List Expr} (h : reread.rereadAll S args = some args') :
    List.Forall₂ (fun a a' => a.reread S = some a') args args' := by
  induction args generalizing args' with
  | nil =>
      cases h
      exact List.Forall₂.nil
  | cons a as ih =>
      rw [reread.rereadAll, Option.bind_eq_bind, Option.bind_eq_some_iff] at h
      obtain ⟨a', ha, h⟩ := h
      rw [Option.bind_eq_bind, Option.bind_eq_some_iff] at h
      obtain ⟨as', has, h⟩ := h
      cases h
      exact List.Forall₂.cons ha (ih has)

/-- Reading back changes neither a formula's depth nor its node count. -/
theorem size_of_reread {e e' : Expr} (h : e.reread S = some e') :
    (∀ k, e'.depthFrom k = e.depthFrom k) ∧ e'.nodes = e.nodes := by
  induction e generalizing e' with
  | literal v =>
      rw [reread, Option.map_eq_some_iff] at h
      obtain ⟨v', -, rfl⟩ := h
      exact ⟨fun k => rfl, rfl⟩
  | ref m spec =>
      cases h
      exact ⟨fun k => rfl, rfl⟩
  | category c =>
      cases h
      exact ⟨fun k => rfl, rfl⟩
  | unaryOp op a iha =>
      rw [reread, Option.bind_eq_bind, Option.bind_eq_some_iff] at h
      obtain ⟨a', ha, h⟩ := h
      cases h
      obtain ⟨hdepth, hnodes⟩ := iha ha
      exact ⟨fun k => by rw [depthFrom, depthFrom, hdepth], by rw [nodes, nodes, hnodes]⟩
  | binaryOp op a b iha ihb =>
      rw [reread, Option.bind_eq_bind, Option.bind_eq_some_iff] at h
      obtain ⟨a', ha, h⟩ := h
      rw [Option.bind_eq_some_iff] at h
      obtain ⟨b', hb, h⟩ := h
      cases h
      obtain ⟨hdepth, hnodes⟩ := iha ha
      obtain ⟨hdepth', hnodes'⟩ := ihb hb
      exact ⟨fun k => by rw [depthFrom, depthFrom, hdepth, hdepth'],
        by rw [nodes, nodes, hnodes, hnodes']⟩
  | call f args ih =>
      rw [reread, Option.bind_eq_bind, Option.bind_eq_some_iff] at h
      obtain ⟨args', hargs, h⟩ := h
      cases h
      have hall := rereadAll_eq_some hargs
      have hsizes : (∀ k, depthFrom.depthOf args' k = depthFrom.depthOf args k) ∧
          nodes.nodesOf args' = nodes.nodesOf args := by
        clear hargs
        induction hall with
        | nil => exact ⟨fun k => rfl, rfl⟩
        | @cons a a' as as' ha _ ihs =>
            obtain ⟨hdepth, hnodes⟩ := ih a List.mem_cons_self ha
            obtain ⟨hdepths, hnodess⟩ := ihs fun b hb => ih b (List.mem_cons_of_mem a hb)
            exact ⟨fun k => by rw [depthFrom.depthOf, depthFrom.depthOf, hdepth, hdepths],
              by rw [nodes.nodesOf, nodes.nodesOf, hnodes, hnodess]⟩
      exact ⟨fun k => by rw [depthFrom, depthFrom, hsizes.1, hall.length_eq],
        by rw [nodes, nodes, hsizes.2]⟩

theorem checkDepth_of_reread {e e' : Expr} (h : e.reread S = some e') {max : Nat}
    (hcheck : e.checkDepth max = .ok ()) : e'.checkDepth max = .ok () := by
  obtain ⟨hdepth, hnodes⟩ := size_of_reread h
  rw [checkDepth_eq_ok_iff] at hcheck ⊢
  unfold depth at hcheck ⊢
  rwa [hdepth, hnodes]

/-- A formula whose literals read back unchanged reads back unchanged. -/
theorem reread_eq_self {e : Expr} (h : ∀ v ∈ e.literals, v.reread S = some v) :
    e.reread S = some e := by
  induction e with
  | literal v => rw [reread, h v (List.mem_singleton_self v), Option.map_some]
  | ref m spec => rfl
  | category c => rfl
  | unaryOp op a iha => rw [reread, iha h]; rfl
  | binaryOp op a b iha ihb =>
      rw [literals, List.forall_mem_append] at h
      rw [reread, iha h.1, ihb h.2]
      rfl
  | call f args ih =>
      have hargs : reread.rereadAll S args = some args := by
        rw [literals] at h
        induction args with
        | nil => rfl
        | cons a as ihs =>
            rw [literals.literalsOf, List.forall_mem_append] at h
            rw [reread.rereadAll, ih a List.mem_cons_self h.1,
              ihs (fun b hb => ih b (List.mem_cons_of_mem a hb)) h.2]
            rfl
      rw [reread, hargs]
      rfl

/-- A formula with a literal that is not read back is not read back. -/
theorem reread_eq_none {e : Expr} {v : Value} (hv : v ∈ e.literals) (h : v.reread S = none) :
    e.reread S = none := by
  induction e with
  | literal w =>
      rw [List.mem_singleton.mp hv] at h
      rw [reread, h, Option.map_none]
  | ref m spec => exact absurd hv List.not_mem_nil
  | category c => exact absurd hv List.not_mem_nil
  | unaryOp op a iha => rw [reread, iha hv]; rfl
  | binaryOp op a b iha ihb =>
      cases List.mem_append.mp hv with
      | inl ha => rw [reread, iha ha]; rfl
      | inr hb =>
          rw [reread, ihb hb]
          cases a.reread S <;> rfl
  | call f args ih =>
      have hargs : reread.rereadAll S args = none := by
        rw [literals] at hv
        induction args with
        | nil => exact absurd hv List.not_mem_nil
        | cons a as ihs =>
            rw [literals.literalsOf] at hv
            cases List.mem_append.mp hv with
            | inl ha => rw [reread.rereadAll, ih a List.mem_cons_self ha]; rfl
            | inr has =>
                rw [reread.rereadAll, ihs (fun b hb => ih b (List.mem_cons_of_mem a hb)) has]
                cases a.reread S <;> rfl
      rw [reread, hargs]
      rfl

end Expr

/-! ## Models read back -/

/-- A measure's kind, its formula read back. -/
def MeasureKind.reread (S : Serde) : MeasureKind → Option MeasureKind
  | .input => some .input
  | .derived f => (f.expr.reread S).map fun e => .derived ⟨e⟩

/-- A model's formulas and lambda bodies as they are read back. -/
def Model.reread (S : Serde) (m : Model) : Option (List MeasureKind × List Expr) := do
  let kinds ← m.measures.values.mapM fun x => x.kind.reread S
  let bodies ← m.lambdas.values.mapM fun l => l.body.reread S
  some (kinds, bodies)

/-- Every formula and lambda body of a model has a property. -/
def Model.AllFormulas (m : Model) (p : Expr → Prop) : Prop :=
  (∀ x ∈ m.measures.values, ∀ f, x.kind = .derived f → p f.expr) ∧
    ∀ l ∈ m.lambdas.values, p l.body

namespace Deserialized

variable (S : Serde)

theorem measureKind_map {k : MeasureKind} (h : ∀ f, k = .derived f → f.expr.fits = true) :
    measureKind S.parseDate ((Serialized.ofMeasureKind S.date k).map S.number) = k.reread S := by
  cases k with
  | input => rfl
  | derived f =>
      show (formula S.parseDate ((Serialized.ofFormula S.date f).map S.number)).map _ = _
      rw [formula_map S (h f rfl), MeasureKind.reread, Option.map_map]
      rfl

theorem field_kind (m : Measure) : field "kind" ((Serialized.ofMeasure S.date m).map S.number) =
    some ((Serialized.ofMeasureKind S.date m.kind).map S.number) := by
  unfold Serialized.ofMeasure
  cases m.format <;> rfl

theorem named_map (name : String) (g : JsonNumber → JsonNumber) (t : Tree) :
    named name (t.map g) = (named name t).map (List.map (Json.map g)) := by
  cases t with
  | object fields =>
      rw [Json.map, Json.mapFields_eq, named, named, Option.map_some, List.filter_map,
        List.map_map, List.map_map]
      rfl
  | _ => rfl

theorem filter_unlessEmpty {κ α : Type} [LinearOrder κ] {name name' : String} (h : name ≠ name')
    {key : κ → String} {f : α → Tree} {m : SortedMap κ α} :
    (Serialized.unlessEmpty name key f m).filter (fun x => x.1 = name') = [] := by
  unfold Serialized.unlessEmpty
  split_ifs
  · rfl
  · exact List.filter_eq_nil_iff.mpr fun x hx => by rw [List.mem_singleton.mp hx]; simpa using h

theorem named_measures (m : Model) : named "measures" (Serialized.ofModel S.date m) =
    some [Serialized.mapping (fun x => Serialized.natKey x.id) (Serialized.ofMeasure S.date)
      m.measures] := by
  unfold Serialized.ofModel
  rw [named]
  simp only [List.filter_append, filter_unlessEmpty (by decide : "sql_sources" ≠ "measures"),
    filter_unlessEmpty (by decide : "views" ≠ "measures"),
    filter_unlessEmpty (by decide : "external_fns" ≠ "measures"),
    filter_unlessEmpty (by decide : "external_calls" ≠ "measures"),
    filter_unlessEmpty (by decide : "scenarios" ≠ "measures"),
    filter_unlessEmpty (by decide : "lambdas" ≠ "measures"), List.append_nil]
  rfl

theorem named_lambdas (m : Model) : named "lambdas" (Serialized.ofModel S.date m) =
    some (if m.lambdas.entries.isEmpty then [] else
      [Serialized.mapping Serialized.natKey (Serialized.ofLambda S.date) m.lambdas]) := by
  unfold Serialized.ofModel
  rw [named]
  simp only [List.filter_append, filter_unlessEmpty (by decide : "sql_sources" ≠ "lambdas"),
    filter_unlessEmpty (by decide : "views" ≠ "lambdas"),
    filter_unlessEmpty (by decide : "external_fns" ≠ "lambdas"),
    filter_unlessEmpty (by decide : "external_calls" ≠ "lambdas"),
    filter_unlessEmpty (by decide : "scenarios" ≠ "lambdas"), List.append_nil]
  unfold Serialized.unlessEmpty
  split_ifs <;> rfl

theorem mapM_congr {α β : Type} {f g : α → Option β} {l : List α} (h : ∀ a ∈ l, f a = g a) :
    l.mapM f = l.mapM g := by
  induction l with
  | nil => rfl
  | cons a l ih =>
      rw [List.mapM_cons, List.mapM_cons, h a List.mem_cons_self,
        ih fun b hb => h b (List.mem_cons_of_mem a hb)]

theorem values_map {κ α β : Type} [LinearOrder κ] {key : κ → String} {g : α → Tree}
    {f : Tree → Option β} {r : α → Option β} {m : SortedMap κ α}
    (h : ∀ a ∈ m.values, f ((g a).map S.number) = r a) :
    values f ((Serialized.mapping key g m).map S.number) = m.values.mapM r := by
  unfold Serialized.mapping SortedMap.values
  rw [Json.map, Json.mapFields_eq, values, List.map_map, List.mapM_map, List.mapM_map]
  exact mapM_congr fun p hp => h p.2 (List.mem_map_of_mem hp)

/-- What the tree of a model says of its formulas, their numbers read back. -/
theorem savedFormulas_map {m : Model} (h : m.AllFormulas fun e => e.fits = true) :
    savedFormulas S.parseDate ((Serialized.ofModel S.date m).map S.number) = m.reread S := by
  have hmeasures : field "measures" ((Serialized.ofModel S.date m).map S.number) =
      some ((Serialized.mapping (fun x => Serialized.natKey x.id) (Serialized.ofMeasure S.date)
        m.measures).map S.number) := by
    rw [field, named_map, named_measures]
    rfl
  have hkinds : values (fun t => (field "kind" t).bind (measureKind S.parseDate))
      ((Serialized.mapping (fun x => Serialized.natKey x.id) (Serialized.ofMeasure S.date)
        m.measures).map S.number) = m.measures.values.mapM fun x => x.kind.reread S :=
    values_map S fun x hx => by
      rw [field_kind, Option.bind_some, measureKind_map S (h.1 x hx)]
  have hbodies : values (fun t => (field "body" t).bind (expr S.parseDate))
      ((Serialized.mapping Serialized.natKey (Serialized.ofLambda S.date) m.lambdas).map
        S.number) = m.lambdas.values.mapM fun l => l.body.reread S :=
    values_map S fun l hl => by
      show (expr S.parseDate ((Serialized.ofExpr S.date l.body).map S.number)) = _
      rw [expr_map S (h.2 l hl)]
  have hlambdas : fieldOr "lambdas" ((Serialized.ofModel S.date m).map S.number) =
      some (if m.lambdas.entries.isEmpty then none else
        some ((Serialized.mapping Serialized.natKey (Serialized.ofLambda S.date) m.lambdas).map
          S.number)) := by
    rw [fieldOr, named_map, named_lambdas]
    split_ifs <;> rfl
  unfold savedFormulas Model.reread
  rw [hmeasures, Option.bind_some, hkinds, hlambdas]
  by_cases hempty : m.lambdas.entries.isEmpty = true
  · have hvalues : m.lambdas.values = [] := by
      rw [SortedMap.values, List.isEmpty_iff.mp hempty, List.map_nil]
    rw [if_pos hempty, hvalues]
    rfl
  · rw [if_neg hempty, ← hbodies]
    rfl

end Deserialized

end Improv.CoreModel
