import Improv.Engine.Dataflow
/-!
# Coordinates of a plan's cells

A plan is well formed when each node's declared categories are those its
operator gives its rows.  Every cell of a well-formed plan's collection then
names exactly one item of each declared category.
-/

namespace Improv.Engine

open Improv.Lib Improv.Lib.SparseKey Improv.CoreModel

/-- What a model gives the plans: each measure's categories and each category's
items. -/
structure Schema where
  dims : MeasureId → List CategoryId
  items : CategoryId → ItemId → Prop

/-- A coordinate over the categories `d`. -/
structure Coordinate (S : Schema) (d : List CategoryId) (k : CoordKey) : Prop where
  at_dim : At (d.map (·.id)) k
  item : ∀ x ∈ k, S.items ⟨x.1⟩ ⟨x.2⟩

/-- Every row's coordinate is over `d`. -/
def Ranges (S : Schema) {V : Type} (d : List CategoryId) (c : Multiset (CoordKey × V)) : Prop :=
  ∀ x ∈ c, Coordinate S d x.1

/-- The same categories, in any order. -/
def SameCats (d e : List CategoryId) : Prop := ∀ c, c ∈ d ↔ c ∈ e

variable {S : Schema} {V W : Type} {d e : List CategoryId} {k k' : CoordKey}

theorem SameCats.symm (h : SameCats d e) : SameCats e d := fun c => (h c).symm

theorem mem_map_id {c : CategoryId} : c.id ∈ d.map (·.id) ↔ c ∈ d := by
  constructor
  · intro h
    obtain ⟨c', hc', heq⟩ := List.mem_map.mp h
    have hcc : c' = c := congrArg CategoryId.mk heq
    exact hcc ▸ hc'
  · exact List.mem_map_of_mem

/-! ## Keys -/

namespace Coordinate

theorem congr (h : Coordinate S d k) (hde : SameCats d e) : Coordinate S e k where
  at_dim := h.at_dim.congr fun n => by
    rw [show n = (CategoryId.mk n).id from rfl, mem_map_id, mem_map_id]
    exact hde _
  item := h.item

theorem union (h : Coordinate S d k) (h' : Coordinate S e k') :
    Coordinate S (d ++ e) (SparseKey.union k k') where
  at_dim := by
    rw [List.map_append]
    exact h.at_dim.union h'.at_dim
  item := by
    intro x hx
    rcases mem_of_mem_union h.at_dim.sorted h'.at_dim.sorted hx with hx | hx
    · exact h.item x hx
    · exact h'.item x hx

theorem project (h : Coordinate S d k) (hsub : ∀ c ∈ e, c ∈ d) :
    Coordinate S e (projectKey k e) where
  at_dim := (h.at_dim.project _).congr fun n => by
    simp only [List.mem_filter, decide_eq_true_eq, and_iff_right_iff_imp, List.mem_map]
    rintro ⟨c, hc, rfl⟩
    exact ⟨c, hsub c hc, rfl⟩
  item := fun x hx => h.item x (List.mem_filter.mp hx).1

theorem nil : Coordinate S [] [] where
  at_dim := ⟨.nil, fun _ => Iff.rfl⟩
  item := by simp

theorem singleton {c : CategoryId} {i : ItemId} (hi : S.items c i) :
    Coordinate S [c] [(c.id, i.id)] where
  at_dim := ⟨List.pairwise_singleton _ _, fun _ => by simp [names]⟩
  item := by simpa using hi

end Coordinate

theorem perm_sortKey (k : CoordKey) : (sortKey k).Perm k := by
  unfold sortKey
  have h := (List.perm_insertionSort (· ≤ ·) (k.map toLex)).map ofLex
  have hid : (k.map toLex).map ofLex = k := by
    rw [List.map_map]
    exact List.map_id k
  rwa [hid] at h

/-- Sorting pairs of distinct categories gives a sorted key. -/
theorem sorted_sortKey (hk : (names k).Nodup) : Sorted (sortKey k) := by
  have hle : (sortKey k).Pairwise fun a b => toLex a ≤ toLex b := by
    unfold sortKey
    rw [List.pairwise_map]
    exact (List.pairwise_insertionSort (· ≤ ·) (k.map toLex)).imp fun h => h
  have hne : (sortKey k).Pairwise fun a b => a.1 ≠ b.1 := by
    have hnodup : ((sortKey k).map (·.1)).Nodup := ((perm_sortKey k).map _).nodup_iff.mpr hk
    exact List.pairwise_map.mp hnodup
  refine hle.imp₂ (fun a b hab hab' => ?_) hne
  rcases (Prod.Lex.toLex_le_toLex).mp hab with h | h
  · exact h
  · exact absurd h.1 hab'

/-- What a result's row adds to its group's coordinate: an item of each
category of `e`, in that order. -/
structure Landing (S : Schema) (e : List CategoryId) (k : CoordKey) : Prop where
  names_eq : names k = e.map (·.id)
  item : ∀ x ∈ k, S.items ⟨x.1⟩ ⟨x.2⟩

theorem nodup_map_id (he : e.Nodup) : (e.map (·.id)).Nodup :=
  he.map fun _ _ h => congrArg CategoryId.mk h

namespace Coordinate

theorem nodup_names (h : Coordinate S d k) : (names k).Nodup :=
  List.pairwise_map.mpr (h.at_dim.sorted.imp fun hlt => hlt.ne)

theorem mem_names (h : Coordinate S d k) {n : Nat} : n ∈ names k ↔ ⟨n⟩ ∈ d := by
  rw [h.at_dim.names, show n = (CategoryId.mk n).id from rfl, mem_map_id]

theorem nodup_append (h : Coordinate S d k) (h' : Landing S e k') (he : e.Nodup)
    (hdisj : ∀ c ∈ d, c ∉ e) : (names (k ++ k')).Nodup := by
  unfold names
  rw [List.map_append]
  refine h.nodup_names.append ?_ fun n hn hn' => ?_
  · change (names k').Nodup
    rw [h'.names_eq]
    exact nodup_map_id he
  · change n ∈ names k' at hn'
    rw [h'.names_eq, show n = (CategoryId.mk n).id from rfl, mem_map_id] at hn'
    exact hdisj _ (h.mem_names.mp hn) hn'

/-- A group's coordinate with the items its result lands on. -/
theorem append (h : Coordinate S d k) (h' : Landing S e k') (he : e.Nodup)
    (hdisj : ∀ c ∈ d, c ∉ e) : Coordinate S (d ++ e) (sortKey (k ++ k')) where
  at_dim := by
    refine ⟨sorted_sortKey (h.nodup_append h' he hdisj), fun n => ?_⟩
    have hperm : (names (sortKey (k ++ k'))).Perm (names (k ++ k')) := (perm_sortKey _).map _
    rw [hperm.mem_iff, names, List.map_append, List.mem_append, List.map_append,
      List.mem_append, ← h'.names_eq]
    exact or_congr (h.at_dim.names n) Iff.rfl
  item := by
    intro x hx
    rcases List.mem_append.mp ((perm_sortKey _).mem_iff.mp hx) with hx | hx
    · exact h.item x hx
    · exact h'.item x hx

/-- The group and the landing items are read off the result's coordinate. -/
theorem append_inj {k₁ k₁' : CoordKey} (h : Coordinate S d k) (h₁ : Coordinate S d k₁)
    (h' : Landing S e k') (h₁' : Landing S e k₁') (he : e.Nodup) (hdisj : ∀ c ∈ d, c ∉ e)
    (heq : sortKey (k ++ k') = sortKey (k₁ ++ k₁')) : k = k₁ ∧ k' = k₁' := by
  have hperm : (k ++ k').Perm (k₁ ++ k₁') :=
    (perm_sortKey _).symm.trans (heq ▸ perm_sortKey (k₁ ++ k₁'))
  have hnames : names k = names k₁ := h.at_dim.names_eq h₁.at_dim
  have hnames' : names (k ++ k') = names (k₁ ++ k₁') := by
    unfold names at hnames ⊢
    rw [List.map_append, List.map_append, hnames]
    exact congrArg _ (h'.names_eq.trans h₁'.names_eq.symm)
  have happend := eq_of_perm_of_names (h.nodup_append h' he hdisj) hnames' hperm
  have hlength : k.length = k₁.length := by
    simpa [names] using congrArg List.length hnames
  exact List.append_inj happend hlength

/-- A coordinate's item of one of its categories. -/
theorem itemOf_mem (h : Coordinate S d k) {c : CategoryId} (hc : c ∈ d) :
    lookup k c.id = some (itemOf k c) := by
  have hsome : (lookup k c.id).isSome := by
    rw [lookup_isSome_iff, h.at_dim.names, mem_map_id]
    exact hc
  obtain ⟨i, hi⟩ := Option.isSome_iff_exists.mp hsome
  unfold itemOf
  rw [hi]
  rfl

/-- A coordinate is determined by its part on some categories and its item of
the remaining one. -/
theorem eq_of_group (h : Coordinate S d k) (h' : Coordinate S d k') {c : CategoryId}
    (hsub : ∀ c' ∈ d, c' ∈ e ∨ c' = c) (hproject : projectKey k e = projectKey k' e)
    (hitem : itemOf k c = itemOf k' c) : k = k' := by
  refine h.at_dim.ext h'.at_dim fun n hn => ?_
  obtain ⟨c', hc', rfl⟩ := List.mem_map.mp hn
  rcases hsub c' hc' with hce | rfl
  · exact lookup_eq_of_project_eq hproject (List.mem_map_of_mem hce)
  · rw [h.itemOf_mem hc', h'.itemOf_mem hc', hitem]

/-- Joining a coordinate with one on some of its categories changes nothing. -/
theorem union_eq_left (h : Coordinate S d k) (h' : Coordinate S e k')
    (hsub : ∀ c ∈ e, c ∈ d) : SparseKey.union k k' = k := by
  have hunion : Coordinate S d (SparseKey.union k k') := by
    refine (h.union h').congr fun c => ?_
    rw [List.mem_append, or_iff_left_of_imp (hsub c)]
  refine hunion.at_dim.ext h.at_dim fun n hn => ?_
  obtain ⟨c, hc, rfl⟩ := List.mem_map.mp hn
  rw [lookup_union h.at_dim.sorted h'.at_dim.sorted, h.itemOf_mem hc]
  rfl

end Coordinate

/-! ## Grids -/

/-- The cells of a grid, the first category outermost. -/
def gridCells : ItemOrder → List CoordKey
  | [] => [[]]
  | g :: grid => g.2.flatMap fun i => (gridCells grid).map ((g.1.id, i.id) :: ·)

theorem gridKeys_eq (grid : ItemOrder) : gridKeys grid = gridCells grid := by
  have hfold : ∀ (grid : ItemOrder) (acc : List CoordKey),
      grid.foldl (fun acc g => acc.flatMap fun pre => g.2.map fun i => pre ++ [(g.1.id, i.id)])
        acc = acc.flatMap fun pre => (gridCells grid).map (pre ++ ·) := by
    intro grid
    induction grid with
    | nil => intro acc; simp [gridCells]
    | cons g grid ih =>
        intro acc
        rw [List.foldl_cons, ih]
        simp only [gridCells, List.flatMap_assoc, List.flatMap_map, List.map_flatMap,
          List.map_map, Function.comp_def, List.append_assoc, List.cons_append, List.nil_append]
  unfold gridKeys
  rw [hfold]
  simp

theorem landing_gridKeys {grid : ItemOrder} (hitems : ∀ g ∈ grid, ∀ i ∈ g.2, S.items g.1 i)
    (hk : k ∈ gridKeys grid) : Landing S (grid.map (·.1)) k := by
  rw [gridKeys_eq] at hk
  induction grid generalizing k with
  | nil =>
      rw [gridCells, List.mem_singleton] at hk
      subst hk
      exact ⟨rfl, by simp⟩
  | cons g grid ih =>
      simp only [gridCells, List.mem_flatMap, List.mem_map] at hk
      obtain ⟨i, hi, k', hk', rfl⟩ := hk
      have h := ih (fun g hg => hitems g (List.mem_cons_of_mem _ hg)) hk'
      refine ⟨by simpa [names] using h.names_eq, fun x hx => ?_⟩
      rcases List.mem_cons.mp hx with rfl | hx
      · exact hitems g List.mem_cons_self i hi
      · exact h.item x hx

theorem nodup_gridKeys {grid : ItemOrder} (hnodup : ∀ g ∈ grid, g.2.Nodup) :
    (gridKeys grid).Nodup := by
  rw [gridKeys_eq]
  induction grid with
  | nil => simp [gridCells]
  | cons g grid ih =>
      have hrest := ih fun g hg => hnodup g (List.mem_cons_of_mem _ hg)
      refine List.nodup_flatMap.mpr ⟨fun i _ => hrest.map fun a b h => (List.cons.inj h).2, ?_⟩
      refine (hnodup g List.mem_cons_self).imp fun {i j} hne => ?_
      intro k hk hk'
      simp only [List.mem_map] at hk hk'
      obtain ⟨_, _, rfl⟩ := hk
      obtain ⟨_, _, heq⟩ := hk'
      have hid : j.id = i.id := congrArg Prod.snd (List.cons.inj heq).1
      exact hne (congrArg ItemId.mk hid.symm)

/-- A grid in category order lands on coordinates. -/
theorem Landing.coordinate (h : Landing S e k) (he : e.Pairwise (· < ·)) : Coordinate S e k where
  at_dim := by
    refine ⟨?_, fun n => by rw [h.names_eq]⟩
    have hnames : (names k).Pairwise (· < ·) := by
      rw [h.names_eq]
      exact List.pairwise_map.mpr (he.imp fun hlt => hlt)
    exact List.pairwise_map.mp hnames
  item := h.item

end Improv.Engine
