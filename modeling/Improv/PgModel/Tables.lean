import Improv.PgModel.Loading
import Improv.PgModel.Statements
/-!
# Tables and their changes

What the decoded changes say of the tables they were made to: a sent tuple shows
a stored row but for what was not sent again, an old row comes whole or as its
key, and a key is exactly the dimension columns where it stands for a row.
-/

namespace Improv.PgModel

open Improv.Lib Improv.CoreModel Improv.Engine

/-- How the loader reads a row: Postgres's casts of its dimension columns to
text, and of its value column to the measure's type. -/
abbrev Loader := Relation → Binding → ValueType → Tuple → ReadRow

/-- The casts read a row as its text does, wherever its text can be read. -/
structure Loader.Agrees (cal : Calendar) (read : Loader) : Prop where
  names : ∀ r (b : Binding) vt t names, (b.dims.mapM fun d => dimName r d.2 t) = .ok names →
    (read r b vt t).1 = names
  value : ∀ r b vt t v, value cal r b t vt = .ok v →
    (read r b vt t).2.map (toValue cal) = v.map some

/-- The rows of each relation. -/
abbrev Tables := Nat → List Tuple

/-- A sent tuple shows a stored row: each datum, or that it was not sent. -/
def Sent (t row : Tuple) : Prop := List.Forall₂ (fun d e => d = .unchanged ∨ d = e) t row

/-- Two tuples with one replica identity key. -/
def SameKey (r : Relation) (t u : Tuple) : Prop :=
  ∀ c ∈ r.columns, c.key = true → r.get t c.name = r.get u c.name

/-- What is sent of an old row: the row, or its key where that changed. -/
def OldSent (r : Relation) (old : Option Tuple) (row new : Tuple) : Prop :=
  if r.replicaIdentity = 'f' then ∀ t, old = some t → Sent t row
  else
    match old with
    | some t => SameKey r t row
    | none => SameKey r new row

/-- A change of the tables, as a message tells it. -/
def Took (describe : Nat → Relation) (T T' : Tables) : Message → Prop
  | .insert rel new => ∃ row, Sent new row ∧ (T' rel).Perm (row :: T rel) ∧
      ∀ q, q ≠ rel → T' q = T q
  | .update rel old new => ∃ before after rest, Sent new after ∧
      OldSent (describe rel) old before after ∧ (T rel).Perm (before :: rest) ∧
      (T' rel).Perm (after :: rest) ∧ ∀ q, q ≠ rel → T' q = T q
  | .delete rel old => ∃ row rest, OldSent (describe rel) (some old) row row ∧
      (T rel).Perm (row :: rest) ∧ (T' rel).Perm rest ∧ ∀ q, q ≠ rel → T' q = T q
  | .truncate gone => ∀ q, T' q = if q ∈ gone then [] else T q
  | .control => T' = T

/-! ## Reading what was sent -/

section Reading

variable {cal : Calendar} {r : Relation} {b : Binding} {t row : Tuple}

theorem Sent.get (h : Sent t row) {col : String} {d : Datum} (hd : r.get t col = some d)
    (hsent : d ≠ .unchanged) : r.get row col = some d := by
  unfold Relation.get at hd ⊢
  obtain ⟨i, hi, hget⟩ := Option.bind_eq_some_iff.mp hd
  rw [hi, Option.bind_some]
  obtain ⟨hlt, hti⟩ := List.getElem?_eq_some_iff.mp hget
  have hlen : i < row.length := h.length_eq ▸ hlt
  have hrel := List.Forall₂.get h hlt hlen
  simp only [List.get_eq_getElem] at hrel
  rw [hti] at hrel
  rw [List.getElem?_eq_getElem hlen]
  rcases hrel with hun | heq
  · exact absurd hun hsent
  · rw [heq]

/-- What is read of a sent tuple is so in the row. -/
theorem dimName_of_sent (h : Sent t row) {col : String} {x : Option String}
    (hx : dimName r col t = .ok x) : dimName r col row = .ok x := by
  unfold dimName at hx ⊢
  cases hd : r.get t col with
  | none => simp [hd] at hx
  | some d =>
      cases d with
      | unchanged => simp [hd] at hx
      | null =>
          rw [h.get hd (by simp)]
          rw [hd] at hx
          exact hx
      | text s =>
          rw [h.get hd (by simp)]
          rw [hd] at hx
          exact hx

theorem text_of_sent (h : Sent t row) {x : Option String} (hx : text r b t = .ok x) :
    text r b row = .ok x := by
  unfold text at hx ⊢
  cases hd : r.get t b.valueCol with
  | none => simp [hd] at hx
  | some d =>
      cases d with
      | unchanged => simp [hd] at hx
      | null =>
          rw [h.get hd (by simp)]
          rw [hd] at hx
          exact hx
      | text s =>
          rw [h.get hd (by simp)]
          rw [hd] at hx
          exact hx

theorem value_of_sent (h : Sent t row) {vt : ValueType} {x : Option Value}
    (hx : value cal r b t vt = .ok x) : value cal r b row vt = .ok x := by
  unfold value at hx ⊢
  rw [bind_eq_ok_iff] at hx
  obtain ⟨s, hs, hx⟩ := hx
  rw [text_of_sent h hs]
  exact hx

theorem mapM_ok_of {α β ε : Type} {f g : α → Except ε β} {as : List α} {bs : List β}
    (hfg : ∀ a ∈ as, ∀ b, f a = .ok b → g a = .ok b) (h : as.mapM f = .ok bs) :
    as.mapM g = .ok bs := by
  induction as generalizing bs with
  | nil => exact h
  | cons a as ih =>
      rw [List.mapM_cons, bind_eq_ok_iff] at h ⊢
      obtain ⟨b, hb, h⟩ := h
      rw [bind_eq_ok_iff] at h
      obtain ⟨bs', hbs, h⟩ := h
      refine ⟨b, hfg a List.mem_cons_self b hb, ?_⟩
      rw [bind_eq_ok_iff]
      exact ⟨bs', ih (fun x hx => hfg x (List.mem_cons_of_mem a hx)) hbs, h⟩

theorem mapM_length {α β ε : Type} {f : α → Except ε β} {as : List α} {bs : List β}
    (h : as.mapM f = .ok bs) : bs.length = as.length := by
  induction as generalizing bs with
  | nil =>
      cases h
      rfl
  | cons a as ih =>
      rw [List.mapM_cons, bind_eq_ok_iff] at h
      obtain ⟨b, _, h⟩ := h
      rw [bind_eq_ok_iff] at h
      obtain ⟨bs', hbs, h⟩ := h
      cases h
      rw [List.length_cons, List.length_cons, ih hbs]

/-- A key that is the dimension columns names the row's dimensions. -/
theorem dimName_of_sameKey (h : SameKey r t row) (hkeyed : keyed r b = true)
    {d : CategoryId × String} (hd : d ∈ b.dims) : dimName r d.2 t = dimName r d.2 row := by
  unfold keyed at hkeyed
  simp only [Bool.and_eq_true, List.all_eq_true, decide_eq_true_eq, List.mem_map,
    forall_exists_index, and_imp] at hkeyed
  obtain ⟨c, hc, hname⟩ := hkeyed.2 d.2 d hd rfl
  obtain ⟨hmem, hkey⟩ := List.mem_filter.mp hc
  have hget := h c hmem hkey
  rw [hname] at hget
  unfold dimName
  rw [hget]

/-! ## Coordinates -/

theorem rowNames_eq_none_iff {dims : List (Option String)} :
    rowNames dims = none ↔ none ∈ dims := by
  constructor
  · intro h
    by_contra hnot
    have hall : ∃ names : List String, dims = names.map some := by
      clear h
      induction dims with
      | nil => exact ⟨[], rfl⟩
      | cons d dims ih =>
          rw [List.mem_cons, not_or] at hnot
          obtain ⟨names, hnames⟩ := ih hnot.2
          cases d with
          | none => exact absurd rfl hnot.1
          | some n => exact ⟨n :: names, by rw [hnames, List.map_cons]⟩
    obtain ⟨names, hnames⟩ := hall
    rw [rowNames_eq_some_iff.mpr hnames] at h
    cases h
  · intro h
    by_contra hsome
    obtain ⟨names, hnames⟩ := Option.ne_none_iff_exists'.mp hsome
    rw [rowNames_eq_some_iff] at hnames
    rw [hnames] at h
    simp at h

theorem coordOf_go {items : Items} {l : List ((CategoryId × String) × Option String)}
    {pairs : List (CategoryId × ItemId)} {c : Option Coordinate}
    (h : coordOf.go items l pairs = .ok c) :
    (c = none ∧ none ∈ l.map (·.2)) ∨
      ∃ (names : List String) (ids : List (CategoryId × ItemId)), l.map (·.2) = names.map some ∧
        ((l.map fun p => p.1.1).zip names).mapM
          (fun p => (items.find p.1 p.2).map (p.1, ·)) = some ids ∧
        c = some (.fromPairs (pairs ++ ids)) := by
  induction l generalizing pairs with
  | nil =>
      unfold coordOf.go at h
      cases h
      exact .inr ⟨[], [], rfl, rfl, by rw [List.append_nil]⟩
  | cons p l ih =>
      obtain ⟨⟨cat, col⟩, n⟩ := p
      cases n with
      | none =>
          unfold coordOf.go at h
          cases h
          exact .inl ⟨rfl, by simp⟩
      | some n =>
          unfold coordOf.go at h
          cases hi : items.find cat n with
          | none => simp [hi] at h
          | some i =>
              simp only [hi] at h
              rcases ih h with ⟨hnone, hmem⟩ | ⟨names, ids, hnames, hids, hc⟩
              · exact .inl ⟨hnone, List.mem_cons_of_mem _ hmem⟩
              · refine .inr ⟨n :: names, (cat, i) :: ids, ?_, ?_, ?_⟩
                · rw [List.map_cons, List.map_cons, hnames]
                · rw [List.map_cons, List.zip_cons_cons, List.mapM_cons]
                  simp only [hi, Option.map_some, hids]
                  rfl
                · rw [hc, List.append_assoc]
                  rfl

/-- The coordinate of some dimension values, where each has an item up to the
first NULL. -/
theorem coordOf_ok {items : Items} {names : List (Option String)} {c : Option Coordinate}
    (hlen : names.length = b.dims.length) (h : coordOf items b names = .ok c) :
    (c = none ∧ rowNames names = none) ∨
      ∃ ns k, rowNames names = some ns ∧ c = some k ∧
        coordinate items (b.dims.map (·.1)) ns = some k := by
  have hsnd : (b.dims.zip names).map (·.2) = names := List.map_snd_zip hlen.le
  have hfst : (b.dims.zip names).map (fun p => p.1.1) = b.dims.map (·.1) := by
    rw [show (fun p : (CategoryId × String) × Option String => p.1.1) =
        (fun d : CategoryId × String => d.1) ∘ (·.1) from rfl, ← List.map_map,
      List.map_fst_zip hlen.ge]
  rcases coordOf_go h with ⟨hnone, hmem⟩ | ⟨ns, ids, hnames, hids, hc⟩
  · rw [hsnd] at hmem
    exact .inl ⟨hnone, rowNames_eq_none_iff.mpr hmem⟩
  · rw [hsnd] at hnames
    rw [hfst] at hids
    refine .inr ⟨ns, .fromPairs ids, rowNames_eq_some_iff.mpr hnames, ?_, ?_⟩
    · rw [hc, List.nil_append]
    · unfold coordinate
      rw [hids]
      rfl

end Reading

end Improv.PgModel
