import Improv.CoreModel.SavedFormulas
import Improv.Lib.WireFormat
/-!
# Saved formulas read back

What the reader makes of the texts of formulas, lambdas and models, and what its
count says of any bytes at all.
-/

namespace Improv.CoreModel

open Improv.Lib JsonReader Json

/-- What is read of a saved formula: the formula, its literals as they are read
back, or an error where one is not. -/
def readResult {α : Type} : Option α → Except JsonError α
  | some a => .ok a
  | none => .error .bad

theorem fromSlice_readsBack {S : Serde} {L : Layout} {t : Tree} {α : Type}
    (decode : Tree → Option α) (hdepth : t.depth ≤ maxDepth) (hread : S.ReadsBack L t) :
    fromSlice S.read decode (S.toText L t) = readResult (decode (t.map S.number)) := by
  unfold Serde.toText
  rw [fromSlice_write S.read decode S.tokens L hdepth]
  unfold Serde.ReadsBack Serde.toText at hread
  rw [hread, Option.bind_some]
  cases decode (t.map S.number) <;> rfl

theorem nesting_toText (S : Serde) (L : Layout) {t : Tree} (hdepth : t.depth ≤ maxDepth) :
    nesting (S.toText L t) ≤ maxDepth := by
  have hcount := nesting_eq (scans_write S.tokens L t)
  unfold Serde.toText
  omega

theorem depth_ofFormula (date : DateTime → String) {f : Formula}
    (h : f.expr.checkDepth Expr.maxStoredFormulaDepth = .ok ()) :
    (Serialized.ofFormula date f).depth ≤ maxDepth := by
  have hdepth := Serialized.depth_ofExpr_of_checkDepth date h
  have hformula : (Serialized.ofFormula date f).depth ≤ 3 * Expr.maxStoredFormulaDepth + 1 + 1 := by
    simpa [Serialized.ofFormula] using hdepth
  unfold maxDepth
  omega

theorem depth_ofStoredModel (date : DateTime → String) {m : Model}
    (h : m.AllFormulas fun e => e.checkDepth Expr.maxStoredFormulaDepth = .ok ()) :
    (Serialized.ofModel date m).depth ≤ maxDepth := by
  have hdepth : (Serialized.ofModel date m).depth ≤ 3 * Expr.maxStoredFormulaDepth + 6 :=
    Serialized.depth_ofModel date (by decide)
      (fun p hp f hf => Serialized.depth_ofExpr_of_checkDepth date
        (h.1 p.2 (List.mem_map_of_mem hp) f hf))
      (fun p hp => Serialized.depth_ofExpr_of_checkDepth date (h.2 p.2 (List.mem_map_of_mem hp)))
  unfold maxDepth
  omega

theorem checked_of_checkDepth {e : Expr} {limit : Nat} (h : e.checkDepth limit = .ok ()) :
    (match e.checkDepth limit with
      | .error _ => .ok none
      | .ok () => .ok (some ⟨e⟩) : Except JsonError (Option Formula)) = .ok (some ⟨e⟩) := by
  rw [h]

/-- The digits of integers, and of one and a half. -/
def sampleTokens : Tokens JsonNumber where
  number n := (WireFormat.utf8 (match n with
    | .int n => toString n
    | _ => "1.5")).filter plain
  string s := escape (WireFormat.utf8 s)
  number_plain _ _ hb := (List.mem_filter.mp hb).2
  string_inside _ := inside_escape _

/-- A library that reads the text of one tree. -/
def sampleSerde (t : Tree) : Serde where
  tokens := sampleTokens
  read text := if text = t.write sampleTokens Layout.compact 0 then some t else none
  float x := x
  single bits := bits
  date _ := ""
  parseDate _ := none

theorem sampleSerde_readsBack (t : Tree) : (sampleSerde t).ReadsBack Layout.compact t := by
  have hmap : t.map (sampleSerde t).number = t := Json.map_id (fun n => by cases n <;> rfl) t
  unfold Serde.ReadsBack
  rw [hmap]
  exact if_pos rfl

/-- `m7 BY c1 + 1.5`. -/
def sampleFormula : Formula :=
  ⟨.binaryOp .add (.ref ⟨7⟩ ⟨[⟨1⟩], [], []⟩) (.literal (.number (.ofRatio false 3 2)))⟩

/-- A derived measure and a lambda. -/
def sampleModel : Model :=
  { Model.new with
    measures := .ofList [(⟨8⟩, ⟨⟨8⟩, "Total", .number, [⟨1⟩], .derived sampleFormula, none, none⟩)]
    lambdas := .ofList [(0, ⟨"Half", ["x"], .unaryOp .neg sampleFormula.expr⟩)] }

theorem sampleModel_allFormulas {p : Expr → Prop} (h : p sampleFormula.expr)
    (h' : p (.unaryOp .neg sampleFormula.expr)) : sampleModel.AllFormulas p := by
  constructor
  · intro x hx f hf
    have heq : x = ⟨⟨8⟩, "Total", .number, [⟨1⟩], .derived sampleFormula, none, none⟩ :=
      List.mem_singleton.mp hx
    rw [heq] at hf
    cases hf
    exact h
  · intro l hl
    have heq : l = ⟨"Half", ["x"], .unaryOp .neg sampleFormula.expr⟩ := List.mem_singleton.mp hl
    rw [heq]
    exact h'

theorem reread_sampleModel (t : Tree) : sampleModel.reread (sampleSerde t) =
    some ([.derived sampleFormula], [.unaryOp .neg sampleFormula.expr]) := by
  have hexpr : sampleFormula.expr.reread (sampleSerde t) = some sampleFormula.expr := by
    apply Expr.reread_eq_self
    intro v hv
    rw [show v = .number (.ofRatio false 3 2) from List.mem_singleton.mp hv]
    exact if_pos (by decide +kernel)
  have hmeasures : sampleModel.measures.values =
      [⟨⟨8⟩, "Total", .number, [⟨1⟩], .derived sampleFormula, none, none⟩] := rfl
  have hlambdas : sampleModel.lambdas.values =
      [⟨"Half", ["x"], .unaryOp .neg sampleFormula.expr⟩] := rfl
  unfold Model.reread
  rw [hmeasures, hlambdas]
  simp [MeasureKind.reread, Expr.reread, hexpr]

end Improv.CoreModel
