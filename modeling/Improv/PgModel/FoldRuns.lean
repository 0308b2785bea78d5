import Improv.PgModel.FoldSteps
import Improv.PgModel.RowMapping
/-!
# Folds follow their tables

A worker seeds the folds of its aggregated measures, each from a snapshot of its
own, and maps the transactions of a log in order.  The folds a seed leaves are
those of the tables its snapshot saw, the transactions up to there are skipped,
and from there on the cells are the aggregates of the tables as they stand.
-/

namespace Improv.PgModel

open Improv.Lib Improv.CoreModel Improv.Engine

/-! ## A log -/

/-- Transactions in the order they were committed, and the tables before and
after each. -/
structure Log (describe : Nat → Relation) where
  txns : List Txn
  tables : Nat → Tables
  passed : ∀ i (h : i < txns.length),
    Mapper.Passed describe txns[i].changes (tables i) (tables (i + 1))

namespace Mapper

variable {cal : Calendar} {describe : Nat → Relation} {rels : SortedMap Nat Relation}
  {mp : Mapper} {m : Model} {touched : Touched} {log : Log describe}
  {seen : MeasureId → Nat}

/-- Each measure's snapshot saw the transactions up to some point of the log. -/
def Saw (mp : Mapper) (log : Log describe) (seen : MeasureId → Nat) : Prop :=
  ∀ measure snap, mp.seeded.get? measure = some snap →
    ∀ i (h : i < log.txns.length), snap.sees log.txns[i].xid = true ↔ i < seen measure

/-- The tables each measure's folds stand for: the ones that its seed saw, until
the transactions mapped go past them. -/
def standing (log : Log describe) (mapped : Nat) (seen : MeasureId → Nat) (measure : MeasureId) :
    Tables := log.tables (max mapped (seen measure))

/-- The rows that unseeded folds stand for are none's. -/
theorem FoldsFollow.congr {standing standing' : MeasureId → Tables}
    (h : FoldsFollow cal describe mp m standing)
    (heq : ∀ measure, mp.seeded.get? measure ≠ none → standing' measure = standing measure) :
    FoldsFollow cal describe mp m standing' := by
  intro rel b hb agg hagg
  have hat := h rel b hb agg hagg
  refine ⟨hat.unseeded, hat.typed, fun hseeded => ?_⟩
  rw [heq b.measure hseeded]
  exact hat.folded hseeded

theorem behind_standing (hsaw : mp.Saw log seen) {i : Nat} (hi : i < log.txns.length)
    {measure : MeasureId} (hseeded : mp.seeded.get? measure ≠ none) :
    mp.behind log.txns[i].xid (fun c => log.tables (seen c)) (log.tables i) measure =
        standing log i seen measure ∧
      mp.behind log.txns[i].xid (fun c => log.tables (seen c)) (log.tables (i + 1)) measure =
        standing log (i + 1) seen measure := by
  obtain ⟨snap, hsnap⟩ := Option.ne_none_iff_exists'.mp hseeded
  have heq : mp.saw log.txns[i].xid measure = decide (i < seen measure) := by
    unfold saw
    rw [hsnap, Option.any_some, Bool.eq_iff_iff, decide_eq_true_iff]
    exact hsaw measure snap hsnap i hi
  unfold behind standing
  rw [heq]
  by_cases hlt : i < seen measure
  · have hmax : max i (seen measure) = seen measure := by omega
    have hmax' : max (i + 1) (seen measure) = seen measure := by omega
    simp only [hlt, decide_true, if_true, hmax, hmax', and_self]
  · have hmax : max i (seen measure) = i := by omega
    have hmax' : max (i + 1) (seen measure) = i + 1 := by omega
    simp only [hlt, decide_false, Bool.false_eq_true, if_false, hmax, hmax', and_self]

theorem Saw.of_sameNames {mp' : Mapper} (h : mp.Saw log seen) (hnames : SameNames mp mp') :
    mp'.Saw log seen := by
  unfold Saw
  rw [← hnames.seeded]
  exact h

/-- The next transaction of the log leads every binding's folds past it. -/
theorem txn_follows (hrels : Described rels describe) (ho : Ordered mp) (hsaw : mp.Saw log seen)
    {replayUntil i : Nat} (hi : i < log.txns.length)
    (h : FoldsFollow cal describe mp m (standing log i seen)) :
    Outcome (Followed cal describe mp m (standing log (i + 1) seen)) InStep
      (txn cal rels replayUntil (mp, m, touched) log.txns[i]) := by
  have hbefore : FoldsFollow cal describe mp m
      (mp.behind log.txns[i].xid (fun c => log.tables (seen c)) (log.tables i)) :=
    h.congr fun measure hseeded => (behind_standing hsaw hi hseeded).1
  unfold txn
  apply (changes_follow hrels ho (log.passed i hi) hbefore).mono
  intro s hs
  refine ⟨hs.names, hs.rest, hs.folds.congr fun measure hseeded => ?_⟩
  rw [← hs.names.seeded] at hseeded
  exact (behind_standing hsaw hi hseeded).2.symm

/-- So do some transactions that follow one another. -/
theorem txns_follow (hrels : Described rels describe) (ho : Ordered mp) (hsaw : mp.Saw log seen)
    {replayUntil i n : Nat} (hn : i + n ≤ log.txns.length)
    (h : FoldsFollow cal describe mp m (standing log i seen)) :
    Outcome (Followed cal describe mp m (standing log (i + n) seen)) InStep
      (((log.txns.drop i).take n).foldlM (txn cal rels replayUntil) (mp, m, touched)) := by
  induction n generalizing i mp m touched with
  | zero => exact .refl h touched
  | succ n ih =>
      have hi : i < log.txns.length := by omega
      rw [List.drop_eq_getElem_cons hi, List.take_succ_cons, List.foldlM_cons]
      have hsum : i + (n + 1) = i + 1 + n := by omega
      rw [hsum]
      refine Outcome.bind (txn_follows hrels ho hsaw hi h) ?_
      rintro ⟨mp1, m1, touched1⟩ h1
      refine Outcome.mono (ih (ho.of_sameNames h1.names) (hsaw.of_sameNames h1.names)
        (by omega) h1.folds) ?_
      exact fun s hs => h1.trans hs

/-- What a batch leads to: the folds led on, the names and the model kept but
for its cells. -/
theorem map_follows (hrels : Described rels describe) (ho : Ordered mp) (hsaw : mp.Saw log seen)
    {replayUntil i n : Nat} (hn : i + n ≤ log.txns.length)
    (h : FoldsFollow cal describe mp m (standing log i seen)) :
    Outcome (fun s => SameNames mp s.2.1 ∧
        FoldsFollow cal describe s.2.1 s.2.2 (standing log (i + n) seen)) InStep
      (mp.map cal m rels ((log.txns.drop i).take n) replayUntil) := by
  unfold map
  apply (txns_follow hrels ho hsaw hn h).bind
  intro s hs
  exact ⟨hs.names, hs.folds⟩

/-! ## A seed -/

variable {rel : Nat} {b : Binding} {agg : Agg} {rows : List Tuple} {outs : List FoldRow}
  {snap : Snap}

theorem exists_bound (hb : b ∈ mp.bindings.values.flatten) : ∃ rel, b ∈ mp.bound rel := by
  obtain ⟨bs, hbs, hb⟩ := List.mem_flatten.mp hb
  unfold SortedMap.values at hbs
  obtain ⟨⟨rel, bs'⟩, hmem, rfl⟩ := List.mem_map.mp hbs
  refine ⟨rel, ?_⟩
  apply mem_allBound_iff.mp
  exact List.mem_flatMap.mpr ⟨(rel, bs'), hmem, List.mem_map_of_mem hb⟩

/-- The binding that a seed finds by its measure. -/
theorem find?_bound (ho : Ordered mp) (hb : b ∈ mp.bound rel) :
    ((mp.bindings.values.flatten).find? fun c => c.measure = b.measure) = some b := by
  have hmem : b ∈ mp.bindings.values.flatten := by
    have hall := mem_allBound_iff.mpr hb
    unfold allBound at hall
    obtain ⟨p, hp, hpair⟩ := List.mem_flatMap.mp hall
    obtain ⟨c, hc, heq⟩ := List.mem_map.mp hpair
    cases heq
    exact List.mem_flatten.mpr ⟨p.2, List.mem_map_of_mem hp, hc⟩
  cases hfind : (mp.bindings.values.flatten).find? fun c => c.measure = b.measure with
  | none =>
      have hnone := List.find?_eq_none.mp hfind b hmem
      simp at hnone
  | some c =>
      have hmeasure : c.measure = b.measure := by simpa using List.find?_some hfind
      obtain ⟨q, hc⟩ := exists_bound (List.mem_of_find?_eq_some hfind)
      rw [(ho.injective hc hb hmeasure).2]

theorem find_outcome (ho : Ordered mp) (hb : b ∈ mp.bound rel) :
    Outcome (fun c => c = b) InStep
      (((mp.bindings.values.flatten).find? fun c => c.measure = b.measure).elim
        (.error ⟨"unknown binding"⟩) .ok) := by
  rw [find?_bound ho hb]
  rfl

theorem vtOf_of_valueType {vt : ValueType} (h : valueType m b.measure = .ok vt) :
    vtOf m b = vt := by
  unfold valueType at h
  unfold vtOf
  cases hx : m.measures.get? b.measure with
  | none =>
      rw [hx] at h
      cases h
  | some x =>
      rw [hx] at h
      exact Except.ok.inj h

/-- What the seed's rows give: folds of the rows that were read. -/
theorem seedRows_outcome {x : Folder} (hcmp : Lawful x.cmp)
    (htype : x.agg = .min ∨ x.agg = .max → ColumnType x.vt (valueOid x.r x.b))
    (houts : SeedRows (SumsExactly x.agg) x.r x.b x.agg rows outs)
    (inputs : SortedMap Cell Value) :
    Outcome (fun folds => x.Folded cal
        (folds.map fun _ f => (f.cell cal x.agg (valueOid x.r x.b) x.cmp).2)
        (seedCells cal x.agg (valueOid x.r x.b) x.cmp x.b.measure folds inputs) rows) InStep
      (outs.foldlM (seedRow cal x.items x.b x.agg x.vt (valueOid x.r x.b)) .empty) := by
  obtain ⟨groups, hperm, hgroups⟩ := houts
  obtain ⟨hok, herror⟩ := Folder.Seeded.all htype hgroups (.empty cal x)
  apply Outcome.of
  · intro folds hfolds
    obtain ⟨others, hothers, hseeded⟩ := hok folds hfolds
    rw [List.append_nil] at hothers
    exact (hseeded.folded hcmp inputs).perm (hothers.trans hperm)
  · exact fun e he => (herror e he).ne

/-- What a seed leads to: the folds of the rows that it read, the other
measures' left. -/
theorem seed_follows {standing standing' : MeasureId → Tables} (ho : Ordered mp)
    (hb : b ∈ mp.bound rel) (hagg : b.agg = some agg)
    (hunseeded : mp.seeded.get? b.measure = none)
    (houts : SeedRows (SumsExactly agg) (describe rel) b agg (standing' b.measure rel) outs)
    (htype : agg = .min ∨ agg = .max → ColumnType (vtOf m b) (valueOid (describe rel) b))
    (hothers : ∀ measure, measure ≠ b.measure → standing' measure = standing measure)
    (h : FoldsFollow cal describe mp m standing) :
    Outcome (fun s => FoldsFollow cal describe s.1 s.2 standing' ∧ s.1.bindings = mp.bindings ∧
        s.1.collations = mp.collations ∧
        (s.1.seeded = mp.seeded ∨ s.1.seeded = mp.seeded.insert b.measure snap)) InStep
      (mp.seed cal m b.measure (valueOid (describe rel) b) outs snap) := by
  have haggregated : Outcome (fun a => a = agg) InStep
      (b.agg.elim (.error ⟨"not an aggregated binding"⟩) .ok) := by
    rw [hagg]
    rfl
  unfold seed
  apply (find_outcome ho hb).bind
  intro c hc
  subst c
  apply haggregated.bind
  intro a ha
  subst a
  apply (valueType_inStep m b.measure).bind
  intro vt hvt
  obtain rfl : vtOf m b = vt := vtOf_of_valueType hvt
  dsimp only
  split
  · refine ⟨h.congr fun measure hseeded => hothers measure ?_, rfl, rfl, .inl rfl⟩
    exact fun heq => hseeded (heq ▸ hunseeded)
  · rw [(h rel b hb agg hagg).unseeded hunseeded]
    have hlawful : Lawful (mp.folder describe m rel b agg).cmp := ho.lawful b.measure
    refine Outcome.bind (seedRows_outcome hlawful htype houts m.inputs) ?_
    intro folds hfolded
    refine ⟨?_, rfl, rfl, .inr rfl⟩
    intro q c hc agg' hagg'
    by_cases heq : c.measure = b.measure
    · obtain ⟨rfl, rfl⟩ := ho.injective hc hb heq
      obtain rfl : agg = agg' := Option.some.inj (hagg.symm.trans hagg')
      refine ⟨?_, fun _ => hvt, fun _ => ?_⟩
      · intro hnone
        rw [SortedMap.get?_insert_self] at hnone
        cases hnone
      · unfold foldsOf
        rw [SortedMap.get?_insert_self]
        exact hfolded
    · rw [hothers c.measure heq]
      apply (h q c hc agg' hagg').congr
      · rfl
      · rfl
      · exact (SortedMap.get?_insert _ _ _ _).trans (if_neg heq)
      · exact (SortedMap.get?_insert _ _ _ _).trans (if_neg heq)
      · rfl
      · intro k
        rw [Folder.get?_seedCells]
        exact if_neg heq

/-! ## Items and collations -/

/-- The caller's compare for a measure's texts. -/
def collate (mp : Mapper) (measure : MeasureId) (c : Collation) : Mapper :=
  { mp with collations := mp.collations.insert measure c }

theorem coordOf_extends {items items' : Items} (hext : items.Extends items')
    {names : List (Option String)} {o : Option Coordinate} (h : coordOf items b names = .ok o) :
    coordOf items' b names = .ok o := by
  have hgo : ∀ (l : List ((CategoryId × String) × Option String)) pairs,
      coordOf.go items l pairs = .ok o → coordOf.go items' l pairs = .ok o := by
    intro l
    induction l with
    | nil => exact fun pairs h => h
    | cons x l ih =>
        intro pairs h
        obtain ⟨⟨c, col⟩, name⟩ := x
        cases name with
        | none => exact h
        | some name =>
            unfold coordOf.go at h ⊢
            cases hfind : items.find c name with
            | none =>
                simp only [hfind] at h
                cases h
            | some i =>
                simp only [hfind] at h
                simp only [hext c name i hfind]
                exact ih _ h
  exact hgo _ _ h

theorem coord_extends {items items' : Items} (hext : items.Extends items') {r : Relation}
    {t : Tuple} {o : Option Coordinate} (h : coord items r b t = .ok o) :
    coord items' r b t = .ok o := by
  unfold coord at h ⊢
  rw [bind_eq_ok_iff] at h ⊢
  obtain ⟨names, hnames, h⟩ := h
  exact ⟨names, hnames, coordOf_extends hext h⟩

/-- Items added read the rows that could be read as they were. -/
theorem folded_extends {x : Folder} {items' : Items} (hext : x.items.Extends items')
    {folds : SortedMap Coordinate Fold} {inputs : SortedMap Cell Value}
    (h : x.Folded cal folds inputs rows) :
    ({ x with items := items' } : Folder).Folded cal folds inputs rows := by
  have hread : ∀ t ∈ rows, ∀ c,
      ({ x with items := items' } : Folder).partAt cal c t = x.partAt cal c t := by
    intro t ht c
    unfold Folder.partAt
    rcases h.readable t ht with hnull | ⟨c', p, hc, hp⟩
    · rw [hnull, coord_extends hext hnull]
    · rw [hc, coord_extends hext hc]
  have hparts : ∀ c, ({ x with items := items' } : Folder).partsAt cal rows c =
      x.partsAt cal rows c := by
    intro c
    unfold Folder.partsAt
    exact List.filterMap_congr fun t ht => hread t ht c
  refine ⟨?_, ?_, ?_, h.cell⟩
  · intro t ht
    rcases h.readable t ht with hnull | ⟨c, p, hc, hp⟩
    · exact .inl (coord_extends hext hnull)
    · exact .inr ⟨c, p, coord_extends hext hc, hp⟩
  · intro c f hf
    rw [hparts]
    exact h.fold c f hf
  · intro c hc
    rw [hparts]
    exact h.absent c hc

/-- An item minted leaves what every fold stands for. -/
theorem FoldsFollow.mint {standing : MeasureId → Tables}
    (h : FoldsFollow cal describe mp m standing) {c : CategoryId} {name : String} (id : ItemId)
    (hname : mp.items.find c name = none) :
    FoldsFollow cal describe (mp.addItem c name id) (m.addItem id c name) standing := by
  intro rel b hb agg hagg
  have hat := h rel b hb agg hagg
  exact ⟨hat.unseeded, hat.typed, fun hseeded =>
    folded_extends (Items.extends_add hname id) (hat.folded hseeded)⟩

/-- A compare given for a measure that is not seeded yet leaves it too. -/
theorem FoldsFollow.collate {standing : MeasureId → Tables}
    (h : FoldsFollow cal describe mp m standing) {measure : MeasureId} (c : Collation)
    (hunseeded : mp.seeded.get? measure = none) :
    FoldsFollow cal describe (mp.collate measure c) m standing := by
  intro rel b hb agg hagg
  have hat := h rel b hb agg hagg
  by_cases heq : b.measure = measure
  · subst heq
    exact ⟨hat.unseeded, hat.typed, fun hseeded => absurd hunseeded hseeded⟩
  · exact hat.congr rfl ((SortedMap.get?_insert _ _ _ _).trans (if_neg heq)) rfl rfl rfl
      fun _ => rfl

end Mapper

/-! ## Runs -/

/-- A worker's mapper and model, how much of the log they have mapped and how
much of it each measure's seed saw. -/
structure Folding where
  mapper : Mapper
  model : Model
  mapped : Nat
  seen : MeasureId → Nat

namespace Folding

variable {cal : Calendar} {describe : Nat → Relation} {log : Log describe}

/-- What a seed query read of a binding's table, after the first `n` transactions
and no fewer than were mapped, its value column of the measure's type. -/
def Read (describe : Nat → Relation) (log : Log describe) (s : Folding) (rel : Nat) (b : Binding)
    (n : Nat) (outs : List FoldRow) (snap : Snap) : Prop :=
  s.mapped ≤ n ∧ (∀ i (h : i < log.txns.length), snap.sees log.txns[i].xid = true ↔ i < n) ∧
    ∀ agg, b.agg = some agg →
      SeedRows (SumsExactly agg) (describe rel) b agg (log.tables n rel) outs ∧
        (agg = .min ∨ agg = .max → ColumnType (vtOf s.model b) (valueOid (describe rel) b))

/-- A step of the worker: an item minted, a measure's compare given or its folds
seeded, or the next transactions mapped. -/
inductive Step (cal : Calendar) (log : Log describe) : Folding → Folding → Prop
  | mint (s : Folding) (c : CategoryId) (name : String) (id : ItemId)
      (hname : s.mapper.items.find c name = none) :
      Step cal log s
        { s with mapper := s.mapper.addItem c name id, model := s.model.addItem id c name }
  | collate (s : Folding) (measure : MeasureId) (c : Collation) (hcmp : Lawful (textCmp (some c)))
      (hunseeded : s.mapper.seeded.get? measure = none) :
      Step cal log s { s with mapper := s.mapper.collate measure c }
  | seed (s : Folding) (rel : Nat) (b : Binding) (n : Nat) (outs : List FoldRow) (snap : Snap)
      (mp : Mapper) (m : Model) (hb : b ∈ s.mapper.bound rel)
      (hunseeded : s.mapper.seeded.get? b.measure = none)
      (hread : Read describe log s rel b n outs snap)
      (hseed : s.mapper.seed cal s.model b.measure (valueOid (describe rel) b) outs snap =
        .ok (mp, m)) :
      Step cal log s
        { s with mapper := mp, model := m, seen := Function.update s.seen b.measure n }
  | batch (s : Folding) (rels : SortedMap Nat Relation) (n replayUntil : Nat) (es : List Edit)
      (mp : Mapper) (m : Model) (hrels : Mapper.Described rels describe)
      (hn : s.mapped + n ≤ log.txns.length)
      (hmap : s.mapper.map cal s.model rels ((log.txns.drop s.mapped).take n) replayUntil =
        .ok (es, mp, m)) :
      Step cal log s { s with mapper := mp, model := m, mapped := s.mapped + n }

/-- What the worker starts from: a model's items, no fold. -/
def start (m : Model) (bindings : SortedMap Nat (List Binding)) : Folding :=
  ⟨.new m bindings, m, 0, fun _ => 0⟩

/-- Every seeded measure's folds are those of the tables that they stand for. -/
structure Follows (cal : Calendar) (log : Log describe)
    (bindings : SortedMap Nat (List Binding)) (s : Folding) : Prop where
  binds : s.mapper.bindings = bindings
  ordered : s.mapper.Ordered
  saw : s.mapper.Saw log s.seen
  folds : Mapper.FoldsFollow cal describe s.mapper s.model (Mapper.standing log s.mapped s.seen)

namespace Follows

variable {bindings : SortedMap Nat (List Binding)} {s s' : Folding} {m : Model}

theorem start (honce : ((allBound bindings).map fun p => p.2.measure).Nodup) :
    Follows cal log bindings (start m bindings) := by
  refine ⟨rfl, ⟨honce, fun measure => ?_⟩, ?_, ?_⟩
  · exact lawful_none
  · intro measure snap hsnap
    cases hsnap
  · intro rel b _ agg _
    exact ⟨fun _ => rfl, fun hseeded => absurd rfl hseeded, fun hseeded => absurd rfl hseeded⟩

theorem saw_of_seed {mp : Mapper} {b : Binding} {n : Nat} {snap : Snap}
    (h : s.mapper.Saw log s.seen)
    (hsees : ∀ i (h : i < log.txns.length), snap.sees log.txns[i].xid = true ↔ i < n)
    (hunseeded : s.mapper.seeded.get? b.measure = none)
    (hseeded : mp.seeded = s.mapper.seeded ∨
      mp.seeded = s.mapper.seeded.insert b.measure snap) :
    mp.Saw log (Function.update s.seen b.measure n) := by
  intro measure snap' hsnap i hi
  rcases hseeded with hsame | hinsert
  · rw [hsame] at hsnap
    have hne : measure ≠ b.measure := by
      rintro rfl
      rw [hunseeded] at hsnap
      cases hsnap
    rw [Function.update_of_ne hne]
    exact h measure snap' hsnap i hi
  · rw [hinsert, SortedMap.get?_insert] at hsnap
    by_cases heq : measure = b.measure
    · rw [if_pos heq] at hsnap
      cases hsnap
      rw [heq, Function.update_self]
      exact hsees i hi
    · rw [if_neg heq] at hsnap
      rw [Function.update_of_ne heq]
      exact h measure snap' hsnap i hi

theorem seed {rel : Nat} {b : Binding} {n : Nat} {outs : List FoldRow} {snap : Snap}
    (h : Follows cal log bindings s) (hb : b ∈ s.mapper.bound rel)
    (hunseeded : s.mapper.seeded.get? b.measure = none)
    (hread : Read describe log s rel b n outs snap) :
    Outcome (fun r => Follows cal log bindings
        ⟨r.1, r.2, s.mapped, Function.update s.seen b.measure n⟩) InStep
      (s.mapper.seed cal s.model b.measure (valueOid (describe rel) b) outs snap) := by
  obtain ⟨hn, hsees, hrows⟩ := hread
  cases hagg : b.agg with
  | none =>
      unfold Mapper.seed
      apply (Mapper.find_outcome h.ordered hb).bind
      intro c hc
      subst c
      rw [hagg]
      exact (by decide : (⟨"not an aggregated binding"⟩ : Rebuild) ≠ outOfStep)
  | some agg =>
      obtain ⟨houts, htype⟩ := hrows agg hagg
      have hstanding : Mapper.standing log s.mapped
          (Function.update s.seen b.measure n) b.measure = log.tables n := by
        unfold Mapper.standing
        rw [Function.update_self, max_eq_right hn]
      have hothers : ∀ measure, measure ≠ b.measure → Mapper.standing log s.mapped
          (Function.update s.seen b.measure n) measure =
            Mapper.standing log s.mapped s.seen measure := by
        intro measure hne
        unfold Mapper.standing
        rw [Function.update_of_ne hne]
      refine Outcome.mono (Mapper.seed_follows h.ordered hb hagg hunseeded (hstanding ▸ houts)
        htype hothers h.folds) ?_
      rintro r ⟨hfolds, hbindings, hcollations, hseeded⟩
      refine ⟨hbindings.trans h.binds, ⟨?_, ?_⟩, saw_of_seed h.saw hsees hunseeded hseeded, hfolds⟩
      · rw [hbindings]
        exact h.ordered.once
      · rw [hcollations]
        exact h.ordered.lawful

theorem batch {rels : SortedMap Nat Relation} {n : Nat} (h : Follows cal log bindings s)
    (replayUntil : Nat) (hrels : Mapper.Described rels describe)
    (hn : s.mapped + n ≤ log.txns.length) :
    Outcome (fun r => Follows cal log bindings ⟨r.2.1, r.2.2, s.mapped + n, s.seen⟩) InStep
      (s.mapper.map cal s.model rels ((log.txns.drop s.mapped).take n) replayUntil) := by
  apply (Mapper.map_follows hrels h.ordered h.saw hn h.folds).mono
  rintro r ⟨hnames, hfolds⟩
  exact ⟨hnames.bindings.symm.trans h.binds, h.ordered.of_sameNames hnames,
    h.saw.of_sameNames hnames, hfolds⟩

theorem step (h : Follows cal log bindings s) (hstep : Step cal log s s') :
    Follows cal log bindings s' := by
  cases hstep with
  | mint c name id hname =>
      exact ⟨h.binds, ⟨h.ordered.once, h.ordered.lawful⟩, h.saw, h.folds.mint id hname⟩
  | collate measure c hcmp hunseeded =>
      refine ⟨h.binds, ⟨h.ordered.once, fun measure' => ?_⟩, h.saw, h.folds.collate c hunseeded⟩
      unfold Mapper.collate
      dsimp only
      rw [SortedMap.get?_insert]
      split
      · exact hcmp
      · exact h.ordered.lawful measure'
  | seed rel b n outs snap mp m hb hunseeded hread hseed =>
      have hfollows := h.seed hb hunseeded hread
      rw [hseed] at hfollows
      exact hfollows
  | batch rels n replayUntil es mp m hrels hn hmap =>
      have hfollows := h.batch replayUntil hrels hn
      rw [hmap] at hfollows
      exact hfollows

theorem run (honce : ((allBound bindings).map fun p => p.2.measure).Nodup)
    (h : Relation.ReflTransGen (Step cal log) (Folding.start m bindings) s) :
    Follows cal log bindings s := by
  induction h with
  | refl => exact .start honce
  | tail _ hstep ih => exact ih.step hstep

end Follows

/-- The rows that a seeded measure's folds stand for. -/
def rowsOf (log : Log describe) (s : Folding) (rel : Nat) (b : Binding) : List Tuple :=
  log.tables (max s.mapped (s.seen b.measure)) rel

def countBinding : Binding := ⟨⟨20⟩, "note", [(⟨1⟩, "region")], some .count⟩

def countBindings : SortedMap Nat (List Binding) := .ofList [(7, [countBinding])]

/-- A measure that counts the notes of each region. -/
def noteCounts : Model :=
  { regionsLoaded with
    measures := .ofList [(⟨20⟩, ⟨⟨20⟩, "Notes", .number, [⟨1⟩], .input, none, none⟩)]
    inputs := .empty }

def northNote (note : String) : Tuple := [.text "north", .text note]

/-- A note written where there was one. -/
def noteLog : Log fun _ => notes where
  txns := [⟨10, 5, [.insert 7 (northNote "shut")]⟩]
  tables := fun i rel => if rel = 7 then
    if i = 0 then [northNote "open"] else [northNote "shut", northNote "open"] else []
  passed := fun i h => by
    obtain rfl : i = 0 := by simpa using h
    refine ⟨_, ⟨northNote "shut", ?_, .refl _, fun q hq => ?_⟩, rfl⟩
    · exact .cons (.inr rfl) (.cons (.inr rfl) .nil)
    · dsimp only
      rw [if_neg hq, if_neg hq]

theorem once_countBindings : ((allBound countBindings).map fun p => p.2.measure).Nodup := by
  decide +kernel

/-- The seed's one row: the note that was there. -/
def openRow : FoldRow := ⟨[some "north"], none, 1, 1⟩

/-- Before the note was written. -/
def earlySnap : Snap := ⟨5, 5, []⟩

def northCell : Coordinate := .fromPairs [(⟨1⟩, ⟨1⟩)]

theorem read_open : Read (fun _ => notes) noteLog (start noteCounts countBindings) 7 countBinding
    0 [openRow] earlySnap := by
  refine ⟨Nat.le_refl 0, fun i hi => ?_, ?_⟩
  · obtain rfl : i = 0 := by simpa [noteLog] using hi
    have hsees : earlySnap.sees 10 = false := by decide +kernel
    change earlySnap.sees 10 = true ↔ 0 < 0
    rw [hsees]
    decide
  · rintro agg ⟨⟩
    refine ⟨⟨[[northNote "open"]], .refl _, .cons ⟨?_, rfl, ?_⟩ .nil⟩, fun hmin => ?_⟩
    · intro t ht
      obtain rfl := List.mem_singleton.mp ht
      rfl
    · exact ⟨[some "open"], .cons rfl .nil, rfl, rfl⟩
    · rcases hmin with hmin | hmin
      · cases hmin
      · cases hmin

/-- The seed, then the batch. -/
theorem seeded_then_mapped : (do
    let x ← (Mapper.new noteCounts countBindings).seed noCalendar noteCounts ⟨20⟩ 25 [openRow]
      earlySnap
    let y ← x.1.map noCalendar x.2 (.ofList [(7, notes)]) noteLog.txns 0
    .ok (y.2.2.inputs.get? ⟨⟨20⟩, northCell⟩, (y.2.1.seeded.get? ⟨20⟩).isSome) :
      Except Rebuild _) = .ok (some (.number (.ofNat 2)), true) := by
  decide +kernel

end Folding

end Improv.PgModel
