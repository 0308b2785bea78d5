import Improv.Lib.Worklist
import Improv.Policy.Session
/-!
# The policy lint

What the readable derived measures reveal of what is hidden: the hidden measures
each reads, directly or through hidden measures, and the categories with hidden
items that it lacks and an input it reads has.  The walk visits a measure at
most twice, once where what it reads is to be reported and once where it is not,
and finds exactly what the two reachability relations say.
-/

namespace Improv.Policy

open Improv.Lib Improv.CoreModel Improv.Service Relation

/-- What a finding says a readable derived measure reveals. -/
inductive Reveals
  | measure (m : MeasureId)
  | items (c : CategoryId) (items : List ItemId)
deriving DecidableEq

/-- What a walk has found: hidden measures, and inputs. -/
structure Found where
  hidden : SortedMap MeasureId Unit
  inputs : SortedMap MeasureId Unit

namespace Session

variable (s : Session)

/-- The measures a measure reads. -/
def readsOf (m : MeasureId) : List MeasureId :=
  ((s.shape.measures.get? m).map MeasureShape.reads).getD []

/-- Past a visible measure, its own finding covers what it reads. -/
def visits : Graph (MeasureId × Bool) where
  next p := (s.readsOf p.1).map fun r => (r, p.2 && !s.measureVisible r)
  support := s.shape.measures.keys.flatMap fun m => [(m, true), (m, false)]
  next_eq_nil := by
    intro ⟨m, report⟩ hp
    have hm : m ∉ s.shape.measures.keys := by
      intro hm
      apply hp
      cases report <;> simp [hm]
    simp [readsOf, SortedMap.get?_eq_none_iff.mpr hm]

/-- One visit: an input is kept, and of a measure to report the hidden ones
among those it reads. -/
def visit (found : Found) (p : MeasureId × Bool) : Found where
  hidden := (s.readsOf p.1).foldl
    (fun hidden r => if p.2 && !s.measureVisible r then hidden.insert r () else hidden)
    found.hidden
  inputs :=
    if (s.shape.measures.get? p.1).any MeasureShape.input then found.inputs.insert p.1 ()
    else found.inputs

/-- From derived measure `m`: the hidden measures it reads, stopping at each
visible one, and every input it reads at any depth. -/
def reaches (m : MeasureId) : Found :=
  s.visits.walk s.visit [(m, true)] [] ⟨.empty, .empty⟩

/-- The items of a category the principal may not see. -/
def hiddenItems (c : CategoryId) : List ItemId :=
  (s.shape.items.filter fun i cat => cat = c && !s.itemVisible i).keys

/-- The categories some input has and the measure lacks. -/
def overOf (cats : List CategoryId) (inputs : List MeasureId) : List CategoryId :=
  let all := inputs.flatMap fun i =>
    ((s.shape.measures.get? i).map MeasureShape.categories).getD []
  let lacked := (all.filter fun c => c ∉ cats).map fun c => (c, ())
  (SortedMap.ofList lacked).keys.filter s.shape.categories.contains

/-- The findings of one measure. -/
def findings (m : MeasureId) (x : MeasureShape) : List (MeasureId × Reveals) :=
  if x.input || !s.measureVisible m then []
  else
    let found := s.reaches m
    let hidden := found.hidden.keys.map fun h => (m, .measure h)
    let items := (s.overOf x.categories found.inputs.keys).filterMap fun c =>
      let items := s.hiddenItems c
      if items.isEmpty then none else some (m, .items c items)
    hidden ++ items

/-- What the readable derived measures reveal of what is hidden, by measure. -/
def lint : List (MeasureId × Reveals) :=
  s.shape.measures.entries.flatMap fun p => s.findings p.1 p.2

/-! ## Reachability -/

/-- The stored formula of `a` names `b`. -/
def Names (a b : MeasureId) : Prop := b ∈ s.readsOf a

/-- The stored formula of `a` names the hidden `b`. -/
def NamesHidden (a b : MeasureId) : Prop := s.Names a b ∧ s.measureVisible b = false

variable {s}

theorem edge_iff {p q : MeasureId × Bool} :
    s.visits.Edge p q ↔ s.Names p.1 q.1 ∧ q.2 = (p.2 && !s.measureVisible q.1) := by
  obtain ⟨b, report⟩ := q
  simp only [Graph.Edge, visits, List.mem_map, Names, Prod.mk.injEq]
  constructor
  · rintro ⟨r, hr, rfl, rfl⟩
    exact ⟨hr, rfl⟩
  · rintro ⟨hr, rfl⟩
    exact ⟨b, hr, rfl, rfl⟩

/-- The walk comes to a measure exactly where it is read at some depth. -/
theorem exists_visited_iff {m x : MeasureId} :
    (∃ report, ReflTransGen s.visits.Edge (m, true) (x, report)) ↔
      ReflTransGen s.Names m x := by
  constructor
  · intro ⟨report, hpath⟩
    exact hpath.lift Prod.fst fun p q hedge => (edge_iff.mp hedge).1
  · intro hpath
    induction hpath with
    | refl => exact ⟨true, .refl⟩
    | @tail a b _ hedge ih =>
        obtain ⟨report, hpath⟩ := ih
        exact ⟨report && !s.measureVisible b, hpath.tail (edge_iff.mpr ⟨hedge, rfl⟩)⟩

/-- It is still to report there where every measure on the way is hidden. -/
theorem visited_true_iff {m x : MeasureId} :
    ReflTransGen s.visits.Edge (m, true) (x, true) ↔ ReflTransGen s.NamesHidden m x := by
  constructor
  · intro hpath
    have hall : ∀ q, ReflTransGen s.visits.Edge (m, true) q → q.2 = true →
        ReflTransGen s.NamesHidden m q.1 := by
      intro q hq
      induction hq with
      | refl => exact fun _ => .refl
      | @tail p q _ hedge ih =>
          intro hreport
          obtain ⟨hnames, hq⟩ := edge_iff.mp hedge
          rw [hreport] at hq
          simp only [Bool.true_eq, Bool.and_eq_true, Bool.not_eq_true'] at hq
          exact (ih hq.1).tail ⟨hnames, hq.2⟩
    exact hall _ hpath rfl
  · intro hpath
    induction hpath with
    | refl => exact .refl
    | tail _ hedge ih => exact ih.tail (edge_iff.mpr ⟨hedge.1, by simp [hedge.2]⟩)

/-! ## What the walk finds -/

theorem mem_keys_foldl_insertIf (keep : MeasureId → Bool) {rs : List MeasureId}
    {found : SortedMap MeasureId Unit} {h : MeasureId} :
    h ∈ (rs.foldl (fun hidden r => if keep r then hidden.insert r () else hidden) found).keys ↔
      h ∈ found.keys ∨ h ∈ rs ∧ keep h = true := by
  induction rs generalizing found with
  | nil => simp
  | cons r rs ih =>
      rw [List.foldl_cons, ih]
      by_cases hr : keep r = true
      · rw [if_pos hr, SortedMap.mem_keys_insert, List.mem_cons]
        grind
      · rw [if_neg hr, List.mem_cons]
        grind

theorem mem_hidden_visit {found : Found} {p : MeasureId × Bool} {h : MeasureId} :
    h ∈ (s.visit found p).hidden.keys ↔
      h ∈ found.hidden.keys ∨ p.2 = true ∧ s.NamesHidden p.1 h := by
  unfold visit
  rw [mem_keys_foldl_insertIf fun r => p.2 && !s.measureVisible r]
  simp only [NamesHidden, Names, Bool.and_eq_true, Bool.not_eq_true']
  grind

theorem mem_inputs_visit {found : Found} {p : MeasureId × Bool} {i : MeasureId} :
    i ∈ (s.visit found p).inputs.keys ↔
      i ∈ found.inputs.keys ∨
        i = p.1 ∧ (s.shape.measures.get? i).any MeasureShape.input = true := by
  unfold visit
  by_cases hinput : (s.shape.measures.get? p.1).any MeasureShape.input = true
  · simp only [if_pos hinput, SortedMap.mem_keys_insert]
    grind
  · simp only [if_neg hinput]
    grind

/-- What a walk has found at the nodes it visited. -/
structure FoundAt (s : Session) (seen : List (MeasureId × Bool)) (found : Found) : Prop where
  hidden : ∀ h, h ∈ found.hidden.keys ↔ ∃ x, (x, true) ∈ seen ∧ s.NamesHidden x h
  inputs : ∀ i, i ∈ found.inputs.keys ↔
    (∃ report, (i, report) ∈ seen) ∧ (s.shape.measures.get? i).any MeasureShape.input = true

theorem FoundAt.nil (s : Session) : s.FoundAt [] ⟨.empty, .empty⟩ where
  hidden := by simp [SortedMap.empty, SortedMap.keys]
  inputs := by simp [SortedMap.empty, SortedMap.keys]

theorem FoundAt.visit {seen : List (MeasureId × Bool)} {found : Found}
    (h : s.FoundAt seen found) (p : MeasureId × Bool) :
    s.FoundAt (p :: seen) (s.visit found p) where
  hidden := by
    intro x
    rw [mem_hidden_visit, h.hidden]
    obtain ⟨m, report⟩ := p
    simp only [List.mem_cons, Prod.mk.injEq]
    grind
  inputs := by
    intro i
    rw [mem_inputs_visit, h.inputs]
    obtain ⟨m, report⟩ := p
    simp only [List.mem_cons, Prod.mk.injEq]
    grind

/-- The hidden measures found are those named through hidden measures. -/
theorem mem_hidden_reaches {m h : MeasureId} :
    h ∈ (s.reaches m).hidden.keys ↔ TransGen s.NamesHidden m h := by
  obtain ⟨all, hfound, hall⟩ := Graph.walk_from (g := s.visits) (P := s.FoundAt)
    (fun _ _ p hseen => FoundAt.visit hseen p) (m, true) _ (.nil s)
  rw [reaches, hfound.hidden, TransGen.tail'_iff]
  simp only [hall, visited_true_iff]

/-- The inputs found are those named at any depth. -/
theorem mem_inputs_reaches {m i : MeasureId} :
    i ∈ (s.reaches m).inputs.keys ↔
      ReflTransGen s.Names m i ∧ (s.shape.measures.get? i).any MeasureShape.input = true := by
  obtain ⟨all, hfound, hall⟩ := Graph.walk_from (g := s.visits) (P := s.FoundAt)
    (fun _ _ p hseen => FoundAt.visit hseen p) (m, true) _ (.nil s)
  rw [reaches, hfound.inputs, ← exists_visited_iff]
  simp only [hall]

/-! ## The findings -/

/-- What a readable derived measure is told about, of the structure alone. -/
theorem mem_findings_measure {m n h : MeasureId} {x : MeasureShape} :
    (n, .measure h) ∈ s.findings m x ↔
      n = m ∧ x.input = false ∧ s.measureVisible m = true ∧ TransGen s.NamesHidden m h := by
  unfold findings
  by_cases hskip : (x.input || !s.measureVisible m) = true
  · rw [if_pos hskip]
    simp only [List.not_mem_nil, false_iff]
    simp only [Bool.or_eq_true, Bool.not_eq_true'] at hskip
    grind
  · rw [if_neg hskip]
    simp only [List.mem_append, List.mem_map, List.mem_filterMap, Prod.mk.injEq,
      Reveals.measure.injEq, mem_hidden_reaches]
    simp only [Bool.or_eq_true, Bool.not_eq_true', not_or, Bool.not_eq_true,
      Bool.not_eq_false] at hskip
    constructor
    · rintro (⟨k, hk, rfl, rfl⟩ | ⟨c, -, hc⟩)
      · exact ⟨rfl, hskip.1, hskip.2, hk⟩
      · split at hc <;> simp at hc
    · rintro ⟨rfl, -, -, hk⟩
      exact .inl ⟨h, hk, rfl, rfl⟩

theorem mem_overOf {cats : List CategoryId} {inputs : List MeasureId} {c : CategoryId} :
    c ∈ s.overOf cats inputs ↔
      s.shape.categories.contains c = true ∧ c ∉ cats ∧
        ∃ i ∈ inputs, ∃ x, s.shape.measures.get? i = some x ∧ c ∈ x.categories := by
  unfold overOf
  rw [List.mem_filter, SortedMap.mem_keys_ofList]
  simp only [List.map_map, List.mem_map, List.mem_filter, List.mem_flatMap, decide_eq_true_eq,
    Function.comp_apply, exists_eq_right]
  constructor
  · rintro ⟨⟨⟨i, hi, hc⟩, hnot⟩, hcat⟩
    cases hx : s.shape.measures.get? i with
    | none => simp [hx] at hc
    | some x => exact ⟨hcat, hnot, i, hi, x, hx, by simpa [hx] using hc⟩
  · rintro ⟨hcat, hnot, i, hi, x, hx, hc⟩
    exact ⟨⟨⟨i, hi, by simpa [hx] using hc⟩, hnot⟩, hcat⟩

/-- An input over the category is named at some depth. -/
def NamesInputOver (s : Session) (m : MeasureId) (c : CategoryId) : Prop :=
  ∃ i x, ReflTransGen s.Names m i ∧ s.shape.measures.get? i = some x ∧ x.input = true ∧
    c ∈ x.categories

theorem mem_findings_items {m n : MeasureId} {x : MeasureShape} {c : CategoryId}
    {items : List ItemId} :
    (n, .items c items) ∈ s.findings m x ↔
      n = m ∧ items = s.hiddenItems c ∧ items ≠ [] ∧ x.input = false ∧
        s.measureVisible m = true ∧ s.shape.categories.contains c = true ∧
        c ∉ x.categories ∧ s.NamesInputOver m c := by
  unfold findings
  by_cases hskip : (x.input || !s.measureVisible m) = true
  · rw [if_pos hskip]
    simp only [List.not_mem_nil, false_iff]
    simp only [Bool.or_eq_true, Bool.not_eq_true'] at hskip
    grind
  · rw [if_neg hskip]
    simp only [Bool.or_eq_true, Bool.not_eq_true', not_or, Bool.not_eq_true,
      Bool.not_eq_false] at hskip
    simp only [List.mem_append, List.mem_map, List.mem_filterMap, Prod.mk.injEq, mem_overOf,
      mem_inputs_reaches, reduceCtorEq, and_false, exists_false, false_or]
    constructor
    · rintro ⟨d, ⟨hcat, hnot, i, ⟨hpath, hinput⟩, y, hy, hd⟩, hfinding⟩
      split at hfinding
      · simp at hfinding
      · next hsome =>
          simp only [Option.some.injEq, Prod.mk.injEq, Reveals.items.injEq] at hfinding
          obtain ⟨rfl, rfl, rfl⟩ := hfinding
          refine ⟨rfl, rfl, by simpa using hsome, hskip.1, hskip.2, hcat, hnot, ?_⟩
          exact ⟨i, y, hpath, hy, by simpa [hy] using hinput, hd⟩
    · rintro ⟨rfl, rfl, hsome, -, -, hcat, hnot, i, y, hpath, hy, hinput, hc⟩
      refine ⟨c, ⟨hcat, hnot, i, ⟨hpath, by simpa [hy] using hinput⟩, y, hy, hc⟩, ?_⟩
      rw [if_neg (by simpa using hsome)]

/-- The lint names hidden measures exactly where stored formulas lead to them
through hidden measures. -/
theorem mem_lint_measure {m h : MeasureId} :
    (m, .measure h) ∈ s.lint ↔
      ∃ x, s.shape.measures.get? m = some x ∧ x.input = false ∧ s.measureVisible m = true ∧
        TransGen s.NamesHidden m h := by
  simp only [lint, List.mem_flatMap, Prod.exists, mem_findings_measure,
    ← SortedMap.get?_eq_some_iff]
  constructor
  · rintro ⟨n, x, hx, rfl, hrest⟩
    exact ⟨x, hx, hrest⟩
  · rintro ⟨x, hx, hrest⟩
    exact ⟨m, x, hx, rfl, hrest⟩

/-- The lint names a category's hidden items, all of them, exactly where the
measure lacks the category and stored formulas lead to an input that has it. -/
theorem mem_lint_items {m : MeasureId} {c : CategoryId} {items : List ItemId} :
    (m, .items c items) ∈ s.lint ↔
      ∃ x, s.shape.measures.get? m = some x ∧ items = s.hiddenItems c ∧ items ≠ [] ∧
        x.input = false ∧ s.measureVisible m = true ∧ s.shape.categories.contains c = true ∧
        c ∉ x.categories ∧ s.NamesInputOver m c := by
  simp only [lint, List.mem_flatMap, Prod.exists, mem_findings_items,
    ← SortedMap.get?_eq_some_iff]
  constructor
  · rintro ⟨n, x, hx, rfl, hrest⟩
    exact ⟨x, hx, hrest⟩
  · rintro ⟨x, hx, hrest⟩
    exact ⟨m, x, hx, rfl, hrest⟩

end Session

end Improv.Policy
