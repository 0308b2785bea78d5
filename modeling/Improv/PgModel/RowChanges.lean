import Improv.PgModel.Tables
/-!
# Row changes reach the right cells

Through a binding without an aggregate a change takes the old row's cell away
and sets the new row's, and the measure's cells stay the view of the table.
-/

namespace Improv.PgModel

open Improv.Lib Improv.CoreModel Improv.Engine

variable {cal : Calendar} {read : Loader} {items : Items} {r : Relation} {b : Binding}
  {vt : ValueType} {t stored : Tuple} {m m' : Model} {touched touched' : Touched}

/-- The categories of a binding's dimensions. -/
def Binding.cats (b : Binding) : List CategoryId := b.dims.map (·.1)

/-! ## What a row is read as -/

/-- The coordinate of a sent tuple is that of the row it stands for. -/
theorem coord_read (ag : read.Agrees cal) (vt : ValueType) {c : Option Coordinate}
    (h : coord items r b t = .ok c)
    (hdims : ∀ d ∈ b.dims, ∀ x, dimName r d.2 t = .ok x → dimName r d.2 stored = .ok x) :
    (read r b vt stored).1.length = b.cats.length ∧
      ((c = none ∧ rowNames (read r b vt stored).1 = none) ∨
        ∃ ns k, rowNames (read r b vt stored).1 = some ns ∧ c = some k ∧
          coordinate items b.cats ns = some k) := by
  unfold coord at h
  rw [bind_eq_ok_iff] at h
  obtain ⟨names, hnames, h⟩ := h
  have hrow := ag.names r b vt stored names (mapM_ok_of hdims hnames)
  have hlen := mapM_length hnames
  rw [hrow]
  unfold Binding.cats
  rw [List.length_map]
  exact ⟨hlen, coordOf_ok hlen h⟩

theorem value_read (ag : read.Agrees cal) {v : Option Value}
    (h : value cal r b stored vt = .ok v) :
    (read r b vt stored).2.bind (toValue cal) = v ∧
      ∀ w, (read r b vt stored).2 = some w → (toValue cal w).isSome = true := by
  have hmap := ag.value r b vt stored v h
  cases hread : (read r b vt stored).2 with
  | none =>
      rw [hread] at hmap
      cases v with
      | none => exact ⟨rfl, fun w hw => by cases hw⟩
      | some v => cases hmap
  | some w =>
      rw [hread] at hmap
      cases v with
      | none => cases hmap
      | some v =>
          simp only [Option.map_some, Option.some.injEq] at hmap
          refine ⟨hmap, fun w' hw' => ?_⟩
          cases hw'
          rw [hmap]
          rfl

/-! ## One measure's cells -/

/-- A model but for some of one measure's cells. -/
structure Touches (measure : MeasureId) (m m' : Model) : Prop where
  rest : m' = { m with inputs := m'.inputs }
  others : ∀ k : Cell, k.measure ≠ measure → m'.inputs.get? k = m.inputs.get? k

theorem Touches.refl (measure : MeasureId) (m : Model) : Touches measure m m :=
  ⟨rfl, fun _ _ => rfl⟩

theorem Touches.trans {measure : MeasureId} {a b c : Model} (h : Touches measure a b)
    (h' : Touches measure b c) : Touches measure a c := by
  refine ⟨?_, fun k hk => (h'.others k hk).trans (h.others k hk)⟩
  rw [h'.rest, h.rest]

theorem Touches.insert (m : Model) (k : Cell) (v : Value) :
    Touches k.measure m { m with inputs := m.inputs.insert k v } := by
  refine ⟨rfl, fun j hj => ?_⟩
  have hne : j ≠ k := fun heq => hj (heq ▸ rfl)
  change (m.inputs.insert k v).get? j = _
  rw [SortedMap.get?_insert, if_neg hne]

theorem Touches.erase (m : Model) (k : Cell) :
    Touches k.measure m { m with inputs := m.inputs.erase k } := by
  refine ⟨rfl, fun j hj => ?_⟩
  have hne : j ≠ k := fun heq => hj (heq ▸ rfl)
  change (m.inputs.erase k).get? j = _
  rw [SortedMap.get?_erase, if_neg hne]

theorem view_insert (inputs : SortedMap Cell Value) (measure : MeasureId) (c : Coordinate)
    (v : Value) :
    (fun c' => (inputs.insert ⟨measure, c⟩ v).get? ⟨measure, c'⟩) =
      Function.update (fun c' => inputs.get? ⟨measure, c'⟩) c (some v) := by
  funext c'
  rw [SortedMap.get?_insert]
  by_cases hc : c' = c
  · rw [if_pos (by rw [hc]), hc, Function.update_self]
  · rw [if_neg (fun heq => hc (Cell.mk.injEq .. ▸ heq : _ ∧ _).2), Function.update_of_ne hc]

theorem view_erase (inputs : SortedMap Cell Value) (measure : MeasureId) (c : Coordinate) :
    (fun c' => (inputs.erase ⟨measure, c⟩).get? ⟨measure, c'⟩) =
      Function.update (fun c' => inputs.get? ⟨measure, c'⟩) c none := by
  funext c'
  rw [SortedMap.get?_erase]
  by_cases hc : c' = c
  · rw [if_pos (by rw [hc]), hc, Function.update_self]
  · rw [if_neg (fun heq => hc (Cell.mk.injEq .. ▸ heq : _ ∧ _).2), Function.update_of_ne hc]

section Rows

variable {rows : List ReadRow} {measure : MeasureId} {cats : List CategoryId} {rd : ReadRow}
  {inputs inputs' : SortedMap Cell Value}

/-- The rows left when one is taken out. -/
theorem Fits.tail (h : Fits cal items cats measure inputs (rd :: rows))
    (hshows : Shows (rowCell cal items cats) (fun c => inputs'.get? ⟨measure, c⟩) rows) :
    Fits cal items cats measure inputs' rows where
  length := fun u hu => h.length u (List.mem_cons_of_mem _ hu)
  found := fun u hu => h.found u (List.mem_cons_of_mem _ hu)
  held := fun u hu => h.held u (List.mem_cons_of_mem _ hu)
  shows := hshows

theorem Fits.cons (h : Fits cal items cats measure inputs rows)
    (hlength : rd.1.length = cats.length) (hfound : Found items cats rd) (hheld : Held cal rd)
    (hshows : Shows (rowCell cal items cats) (fun c => inputs'.get? ⟨measure, c⟩) (rd :: rows)) :
    Fits cal items cats measure inputs' (rd :: rows) where
  length := List.forall_mem_cons.mpr ⟨hlength, h.length⟩
  found := List.forall_mem_cons.mpr ⟨hfound, h.found⟩
  held := List.forall_mem_cons.mpr ⟨hheld, h.held⟩
  shows := hshows

end Rows

/-! ## Setting the new row's cell -/

/-- A row set at a free coordinate joins the rows shown. -/
theorem assert_fits (ag : read.Agrees cal) (hsent : Sent t stored) {rows : List ReadRow}
    (h : assert cal items r b vt false (some t) m touched = .ok (m', touched'))
    (hfits : Fits cal items b.cats b.measure m.inputs rows) :
    Fits cal items b.cats b.measure m'.inputs (read r b vt stored :: rows) ∧
      Touches b.measure m m' := by
  unfold assert at h
  simp only [bind_eq_ok_iff] at h
  obtain ⟨c, hc, v, hv, h⟩ := h
  obtain ⟨hlength, hcoord⟩ := coord_read ag vt hc fun d _ x hx => dimName_of_sent hsent hx
  obtain ⟨hvalue, hheld⟩ := value_read ag (value_of_sent hsent hv)
  rcases hcoord with ⟨rfl, hnames⟩ | ⟨ns, k, hnames, rfl, hk⟩
  · cases h
    have hcell : rowCell cal items b.cats (read r b vt stored) = none := by
      unfold rowCell
      rw [hnames]
    refine ⟨hfits.cons hlength ?_ ?_ ((Shows.cons_none hcell).mpr hfits.shows), .refl _ _⟩
    · intro ns hns
      rw [hnames] at hns
      cases hns
    · intro ns _ hns
      rw [hnames] at hns
      cases hns
  · have hfound : Found items b.cats (read r b vt stored) := by
      intro ns' hns'
      rw [hnames, Option.some.injEq] at hns'
      rw [← hns', hk]
      rfl
    have hheld' : Held cal (read r b vt stored) := fun _ w _ hw => hheld w hw
    cases v with
    | none =>
        cases h
        have hcell : rowCell cal items b.cats (read r b vt stored) = none := by
          unfold rowCell
          rw [hnames, hvalue]
        exact ⟨hfits.cons hlength hfound hheld' ((Shows.cons_none hcell).mpr hfits.shows),
          .refl _ _⟩
    | some v =>
        simp only [Bool.not_false, Bool.true_and, ite_error_eq_ok_iff] at h
        obtain ⟨hfree, h⟩ := h
        cases h
        have hcell : rowCell cal items b.cats (read r b vt stored) = some (k, v) := by
          unfold rowCell
          rw [hnames, hvalue]
          simp only [hk, Option.map_some]
        refine ⟨hfits.cons hlength hfound hheld' ?_, Touches.insert m ⟨b.measure, k⟩ v⟩
        change Shows _ (fun c' => (m.inputs.insert ⟨b.measure, k⟩ v).get? ⟨b.measure, c'⟩) _
        rw [view_insert]
        apply hfits.shows.insert hcell
        simpa [SortedMap.contains] using hfree

/-! ## Taking the old row's cell away -/

/-- A whole old row leaves the rows shown. -/
theorem retract_full_fits (ag : read.Agrees cal) (hsent : Sent t stored) {rows : List ReadRow}
    (h : retract cal items r b vt (some (t, true)) m touched = .ok (m', touched'))
    (hfits : Fits cal items b.cats b.measure m.inputs (read r b vt stored :: rows)) :
    Fits cal items b.cats b.measure m'.inputs rows ∧ Touches b.measure m m' := by
  unfold retract at h
  simp only [bind_eq_ok_iff] at h
  obtain ⟨c, hc, h⟩ := h
  obtain ⟨_, hcoord⟩ := coord_read ag vt hc fun d _ x hx => dimName_of_sent hsent hx
  rcases hcoord with ⟨rfl, hnames⟩ | ⟨ns, k, hnames, rfl, hk⟩
  · cases h
    have hcell : rowCell cal items b.cats (read r b vt stored) = none := by
      unfold rowCell
      rw [hnames]
    exact ⟨hfits.tail ((Shows.cons_none hcell).mp hfits.shows), .refl _ _⟩
  · simp only [if_true, bind_eq_ok_iff] at h
    obtain ⟨gone, hgone, h⟩ := h
    cases hv : value cal r b t vt with
    | error e =>
        rw [hv] at hgone
        cases hgone
    | ok v =>
        rw [hv] at hgone
        cases hgone
        obtain ⟨hvalue, _⟩ := value_read ag (value_of_sent hsent hv)
        cases v with
        | none =>
            cases h
            have hcell : rowCell cal items b.cats (read r b vt stored) = none := by
              unfold rowCell
              rw [hnames, hvalue]
            exact ⟨hfits.tail ((Shows.cons_none hcell).mp hfits.shows), .refl _ _⟩
        | some v =>
            cases h
            have hcell : rowCell cal items b.cats (read r b vt stored) = some (k, v) := by
              unfold rowCell
              rw [hnames, hvalue]
              simp only [hk, Option.map_some]
            refine ⟨hfits.tail ?_, Touches.erase m ⟨b.measure, k⟩⟩
            change Shows _ (fun c' => (m.inputs.erase ⟨b.measure, k⟩).get? ⟨b.measure, c'⟩) _
            rw [view_erase]
            exact hfits.shows.erase hcell

/-- No two names of a category are one item's. -/
def Items.OneName (items : Items) : Prop :=
  ∀ c n n' i, items.find c n = some i → items.find c n' = some i → n = n'

/-- Where names tell items apart, they tell coordinates apart. -/
theorem coordinate_injective (hone : items.OneName) {cats : List CategoryId} (hcats : cats.Nodup)
    {ns ns' : List String} (hlen : ns.length = cats.length) (hlen' : ns'.length = cats.length)
    {k : Coordinate} (h : coordinate items cats ns = some k)
    (h' : coordinate items cats ns' = some k) : ns = ns' := by
  have hpairs : ∀ {ns : List String}, ns.length = cats.length →
      coordinate items cats ns = some k →
      ∀ p ∈ cats.zip ns, ∃ i, items.find p.1 p.2 = some i ∧ k.get? p.1 = some i := by
    intro ns hlen h p hp
    have hfound := coordinate_isSome_iff.mp (by rw [h]; rfl)
    have hmap : (cats.zip ns).mapM (fun p => (items.find p.1 p.2).map (p.1, ·)) =
        some ((cats.zip ns).map fun p => (p.1, (items.find p.1 p.2).getD ⟨0⟩)) := by
      apply mapM_eq_some_map
      intro q hq
      obtain ⟨i, hi⟩ := hfound q hq
      rw [hi]
      rfl
    unfold coordinate at h
    rw [hmap, Option.map_some, Option.some.injEq] at h
    obtain ⟨i, hi⟩ := hfound p hp
    refine ⟨i, hi, ?_⟩
    have hkeys : ((((cats.zip ns).map fun p => (p.1, (items.find p.1 p.2).getD ⟨0⟩)) :
        List (CategoryId × ItemId)).map (·.1)).Nodup := by
      rw [List.map_map]
      change ((cats.zip ns).map (·.1)).Nodup
      rw [List.map_fst_zip hlen.ge]
      exact hcats
    rw [← h, Coordinate.fromPairs, SortedMap.get?_ofList_of_nodup hkeys]
    refine List.mem_map.mpr ⟨p, hp, ?_⟩
    rw [hi]
    rfl
  apply List.ext_getElem (hlen.trans hlen'.symm)
  intro i hi hi'
  have hci : i < cats.length := hlen ▸ hi
  have hmem : (cats[i], ns[i]) ∈ cats.zip ns :=
    List.mem_iff_getElem.mpr ⟨i, by rw [List.length_zip]; omega, List.getElem_zip⟩
  have hmem' : (cats[i], ns'[i]) ∈ cats.zip ns' :=
    List.mem_iff_getElem.mpr ⟨i, by rw [List.length_zip]; omega, List.getElem_zip⟩
  obtain ⟨j, hj, hkj⟩ := hpairs hlen h _ hmem
  obtain ⟨j', hj', hkj'⟩ := hpairs hlen' h' _ hmem'
  rw [hkj, Option.some.injEq] at hkj'
  subst hkj'
  exact hone _ _ _ _ hj hj'

/-- A row told by its key leaves the rows shown, where no other has its
dimension values. -/
theorem retract_key_fits (ag : read.Agrees cal) (hone : items.OneName) (hcats : b.cats.Nodup)
    (hdims : ∀ d ∈ b.dims, ∀ x, dimName r d.2 t = .ok x → dimName r d.2 stored = .ok x)
    {rows : List ReadRow} (hkey : ∀ u ∈ rows, u.1 ≠ (read r b vt stored).1)
    (h : retract cal items r b vt (some (t, false)) m touched = .ok (m', touched'))
    (hfits : Fits cal items b.cats b.measure m.inputs (read r b vt stored :: rows)) :
    Fits cal items b.cats b.measure m'.inputs rows ∧ Touches b.measure m m' := by
  unfold retract at h
  simp only [bind_eq_ok_iff] at h
  obtain ⟨c, hc, h⟩ := h
  obtain ⟨hlength, hcoord⟩ := coord_read ag vt hc hdims
  rcases hcoord with ⟨rfl, hnames⟩ | ⟨ns, k, hnames, rfl, hk⟩
  · cases h
    have hcell : rowCell cal items b.cats (read r b vt stored) = none := by
      unfold rowCell
      rw [hnames]
    exact ⟨hfits.tail ((Shows.cons_none hcell).mp hfits.shows), .refl _ _⟩
  · cases h
    refine ⟨hfits.tail ?_, Touches.erase m ⟨b.measure, k⟩⟩
    change Shows _ (fun c' => (m.inputs.erase ⟨b.measure, k⟩).get? ⟨b.measure, c'⟩) _
    rw [view_erase]
    cases hv : (read r b vt stored).2.bind (toValue cal) with
    | some v =>
        apply hfits.shows.erase (a := v)
        unfold rowCell
        rw [hnames, hv]
        simp only [hk, Option.map_some]
    | none =>
        have hcell : rowCell cal items b.cats (read r b vt stored) = none := by
          unfold rowCell
          rw [hnames, hv]
        have hshows := (Shows.cons_none hcell).mp hfits.shows
        -- No row is left at the coordinate: it would have the same names.
        have hfree : m.inputs.get? ⟨b.measure, k⟩ = none := by
          by_contra hsome
          obtain ⟨a, ha⟩ := Option.ne_none_iff_exists'.mp hsome
          obtain ⟨u, hu, hucell⟩ := hshows.exists_row (k := k) ha
          have hulen := hfits.length u (List.mem_cons_of_mem _ hu)
          unfold rowCell at hucell
          cases hun : rowNames u.1 with
          | none => simp [hun] at hucell
          | some ns' =>
              cases huv : u.2.bind (toValue cal) with
              | none => simp [hun, huv] at hucell
              | some w =>
                  simp only [hun, huv, Option.map_eq_some_iff, Prod.mk.injEq] at hucell
                  obtain ⟨k', hk', rfl, _⟩ := hucell
                  have hu1 := rowNames_eq_some_iff.mp hun
                  have hr1 := rowNames_eq_some_iff.mp hnames
                  have hl : ns.length = b.cats.length := by
                    rw [← hlength, hr1, List.length_map]
                  have hl' : ns'.length = b.cats.length := by
                    rw [← hulen, hu1, List.length_map]
                  have heq := coordinate_injective hone hcats hl hl' hk hk'
                  apply hkey u hu
                  rw [hu1, hr1, heq]
        have hsame : Function.update (fun c' => m.inputs.get? ⟨b.measure, c'⟩) k none =
            fun c' => m.inputs.get? ⟨b.measure, c'⟩ := by
          rw [← hfree]
          exact Function.update_eq_self k _
        rw [hsame]
        exact hshows

/-! ## One row change -/

/-- What is sent of an old row tells its dimension values, and where it is
whole its value. -/
theorem oldRow_sent {old new : Option Tuple} {o : Option (Tuple × Bool)} {after : Tuple}
    (ho : oldRow r b (some old) new = .ok o) (hold : OldSent r old stored after)
    (hnew : ∀ t, new = some t → Sent t after) (hsent : old = none → new ≠ none) :
    ∃ t known, o = some (t, known) ∧
      (∀ d ∈ b.dims, ∀ x, dimName r d.2 t = .ok x → dimName r d.2 stored = .ok x) ∧
      (known = true → Sent t stored) ∧
      (known = false → r.replicaIdentity ≠ 'f' ∧ keyed r b = true) := by
  unfold oldRow at ho
  unfold OldSent at hold
  by_cases hfull : r.replicaIdentity = 'f'
  · simp only [hfull, if_true] at ho hold
    cases old with
    | none => cases ho
    | some t =>
        cases ho
        exact ⟨t, true, rfl, fun d _ x hx => dimName_of_sent (hold t rfl) hx,
          fun _ => hold t rfl, fun hfalse => (by cases hfalse)⟩
  · simp only [hfull, if_false] at ho hold
    by_cases hkeyed : keyed r b = true
    · simp only [hkeyed, if_true] at ho
      cases old with
      | some t =>
          cases ho
          refine ⟨t, false, rfl, fun d hd x hx => ?_, fun htrue => (by cases htrue),
            fun _ => ⟨hfull, hkeyed⟩⟩
          rw [← dimName_of_sameKey hold hkeyed hd]
          exact hx
      | none =>
          cases new with
          | none => exact absurd rfl (hsent rfl)
          | some t =>
              cases ho
              refine ⟨t, false, rfl, fun d hd x hx => ?_, fun htrue => (by cases htrue),
                fun _ => ⟨hfull, hkeyed⟩⟩
              rw [← dimName_of_sameKey hold hkeyed hd]
              exact dimName_of_sent (hnew t rfl) hx
    · simp only [hkeyed, Bool.false_eq_true, if_false] at ho
      cases ho

/-- What a change sends of its old row takes the row off the rows shown. -/
theorem retract_old_fits (ag : read.Agrees cal) (hone : items.OneName) (hcats : b.cats.Nodup)
    {old : Option Tuple} {new : Option Tuple} {o : Option (Tuple × Bool)} {after : Tuple}
    (ho : oldRow r b (some old) new = .ok o) (hold : OldSent r old stored after)
    (hnew : ∀ t, new = some t → Sent t after) (hsent : old = none → new ≠ none)
    {rows : List ReadRow}
    (hkey : r.replicaIdentity ≠ 'f' → keyed r b = true → ∀ u ∈ rows, u.1 ≠ (read r b vt stored).1)
    (h : retract cal items r b vt o m touched = .ok (m', touched'))
    (hfits : Fits cal items b.cats b.measure m.inputs (read r b vt stored :: rows)) :
    Fits cal items b.cats b.measure m'.inputs rows ∧ Touches b.measure m m' := by
  obtain ⟨t, known, rfl, hdims, hwhole, hkeyed⟩ := oldRow_sent ho hold hnew hsent
  cases known with
  | true => exact retract_full_fits ag (hwhole rfl) h hfits
  | false =>
      obtain ⟨hfull, hkeyed⟩ := hkeyed rfl
      exact retract_key_fits ag hone hcats hdims (hkey hfull hkeyed) h hfits

theorem row_cases {old : Option (Option Tuple)} {new : Option Tuple} {replay : Bool}
    (h : row cal items r b old new replay m touched = .ok (m', touched')) :
    ∃ vt o m1 touched1, valueType m b.measure = .ok vt ∧ oldRow r b old new = .ok o ∧
      retract cal items r b vt o m touched = .ok (m1, touched1) ∧
      assert cal items r b vt replay new m1 touched1 = .ok (m', touched') := by
  unfold row at h
  simp only [bind_eq_ok_iff] at h
  obtain ⟨vt, hvt, o, ho, ⟨m1, touched1⟩, hretract, h⟩ := h
  exact ⟨vt, o, m1, touched1, hvt, ho, hretract, h⟩

/-! ## A relation's rows -/

/-- A bound measure's cells are the view of its relation's rows. -/
def FitsAt (cal : Calendar) (read : Loader) (describe : Nat → Relation) (items : Items)
    (T : Tables) (m : Model) (rel : Nat) (b : Binding) : Prop :=
  ∃ x, m.measures.get? b.measure = some x ∧ b.cats = x.categories ∧
    Fits cal items b.cats b.measure m.inputs ((T rel).map (read (describe rel) b x.valueType))

theorem Fits.congr {cats : List CategoryId} {measure : MeasureId}
    {inputs inputs' : SortedMap Cell Value} {rows : List ReadRow}
    (h : Fits cal items cats measure inputs rows)
    (hsame : ∀ c, inputs'.get? ⟨measure, c⟩ = inputs.get? ⟨measure, c⟩) :
    Fits cal items cats measure inputs' rows :=
  ⟨h.length, h.found, h.held, h.shows.keys, fun c v => by rw [hsame, h.shows.view]⟩

variable {describe : Nat → Relation} {T T' : Tables} {rel : Nat}

/-- Another measure's cells may change. -/
theorem FitsAt.of_touches {measure : MeasureId} (h : FitsAt cal read describe items T m rel b)
    (htouches : Touches measure m m') (hne : b.measure ≠ measure) :
    FitsAt cal read describe items T m' rel b := by
  obtain ⟨x, hx, hcats, hfits⟩ := h
  refine ⟨x, ?_, hcats, hfits.congr fun c => htouches.others ⟨b.measure, c⟩ hne⟩
  rw [htouches.rest]
  exact hx

theorem FitsAt.of_table (h : FitsAt cal read describe items T m rel b) (hT : T' rel = T rel) :
    FitsAt cal read describe items T' m rel b := by
  unfold FitsAt at h ⊢
  rw [hT]
  exact h

/-- A key is its row's alone: where a relation's identity is a key that is
exactly a binding's dimension columns, no two rows have the same dimension
values. -/
def KeysTell (read : Loader) (describe : Nat → Relation) (m : Model) (T : Tables) (rel : Nat)
    (b : Binding) : Prop :=
  (describe rel).replicaIdentity ≠ 'f' → keyed (describe rel) b = true →
    (T rel).Pairwise fun u v =>
      (read (describe rel) b (vtOf m b) u).1 ≠ (read (describe rel) b (vtOf m b) v).1

theorem vtOf_eq {x : Measure} (hx : m.measures.get? b.measure = some x) :
    vtOf m b = x.valueType := by
  unfold vtOf
  rw [hx]
  rfl

/-- No row left has the dimension values of one taken out. -/
theorem KeysTell.rest {x : Measure} (h : KeysTell read describe m T rel b)
    (hx : m.measures.get? b.measure = some x) {rest : List Tuple}
    (hperm : (T rel).Perm (stored :: rest)) (hfull : (describe rel).replicaIdentity ≠ 'f')
    (hkeyed : keyed (describe rel) b = true) :
    ∀ u ∈ rest.map (read (describe rel) b x.valueType),
      u.1 ≠ (read (describe rel) b x.valueType stored).1 := by
  have hpair := hperm.pairwise (h hfull hkeyed) fun hne heq => hne heq.symm
  rw [vtOf_eq hx, List.pairwise_cons] at hpair
  intro u hu
  obtain ⟨v, hv, rfl⟩ := List.mem_map.mp hu
  exact (hpair.1 v hv).symm

/-- A change through one binding keeps its measure's cells the view of the
relation's rows. -/
theorem row_fits (ag : read.Agrees cal) (hone : items.OneName) (hcats : b.cats.Nodup)
    (hkeys : KeysTell read describe m T rel b) {c : Message} {old : Option (Option Tuple)}
    {new : Option Tuple} (hchange : c = .insert rel (new.getD []) ∧ old = none ∧ new ≠ none ∨
      (∃ o, c = .update rel o (new.getD []) ∧ old = some o ∧ new ≠ none) ∨
      ∃ o, c = .delete rel o ∧ old = some (some o) ∧ new = none)
    (htook : Took describe T T' c)
    (h : row cal items (describe rel) b old new false m touched = .ok (m', touched'))
    (hfits : FitsAt cal read describe items T m rel b) :
    FitsAt cal read describe items T' m' rel b ∧ Touches b.measure m m' := by
  obtain ⟨x, hx, hxcats, hfits⟩ := hfits
  obtain ⟨vt, o, m1, touched1, hvt, ho, hretract, hassert⟩ := row_cases h
  have hvtx : vt = x.valueType := by
    unfold valueType at hvt
    rw [hx] at hvt
    exact (Except.ok.inj hvt).symm
  subst hvtx
  have hmeasures : ∀ {m2 : Model}, Touches b.measure m m2 →
      m2.measures.get? b.measure = some x := by
    intro m2 htouches
    rw [htouches.rest]
    exact hx
  rcases hchange with ⟨rfl, rfl, hnew⟩ | ⟨o', rfl, rfl, hnew⟩ | ⟨o', rfl, rfl, rfl⟩
  · obtain ⟨t, rfl⟩ := Option.ne_none_iff_exists'.mp hnew
    obtain ⟨stored, hsent, hperm, _⟩ := htook
    cases ho
    cases hretract
    obtain ⟨hfits', htouches⟩ := assert_fits ag hsent hassert hfits
    exact ⟨⟨x, hmeasures htouches, hxcats, hfits'.perm (hperm.map _).symm⟩, htouches⟩
  · obtain ⟨t, rfl⟩ := Option.ne_none_iff_exists'.mp hnew
    obtain ⟨before, after, rest, hsent, hold, hperm, hperm', _⟩ := htook
    obtain ⟨hfits1, htouches1⟩ := retract_old_fits ag hone hcats ho hold
      (fun t' ht' => by cases ht'; exact hsent) (fun _ => by simp)
      (fun hfull hkeyed => hkeys.rest hx hperm hfull hkeyed) hretract
      (hfits.perm (hperm.map _))
    obtain ⟨hfits2, htouches2⟩ := assert_fits ag hsent hassert hfits1
    have htouches := htouches1.trans htouches2
    exact ⟨⟨x, hmeasures htouches, hxcats, hfits2.perm (hperm'.map _).symm⟩, htouches⟩
  · obtain ⟨stored, rest, hold, hperm, hperm', _⟩ := htook
    obtain ⟨hfits1, htouches⟩ := retract_old_fits ag hone hcats ho hold
      (fun t' ht' => by cases ht') (fun hnone => by cases hnone)
      (fun hfull hkeyed => hkeys.rest hx hperm hfull hkeyed) hretract
      (hfits.perm (hperm.map _))
    cases hassert
    exact ⟨⟨x, hmeasures htouches, hxcats, hfits1.perm (hperm'.map _).symm⟩, htouches⟩

theorem Touches.vtOf_eq {measure : MeasureId} (h : Touches measure m m') (b : Binding) :
    vtOf m' b = vtOf m b := by
  unfold vtOf
  rw [h.rest]

theorem KeysTell.of_touches {measure : MeasureId}
    (h : KeysTell read describe m T rel b) (htouches : Touches measure m m') :
    KeysTell read describe m' T rel b := by
  unfold KeysTell at h ⊢
  rw [htouches.vtOf_eq]
  exact h

end Improv.PgModel
