import Mathlib.Data.List.Sort
import Mathlib.Data.List.Nodup
import Mathlib.Tactic.Common
/-!
# Sparse keys

A sparse key gives some names a value each: a list of pairs in strictly
increasing order of names.  Keys are restricted to a set of names, merged, and
compared name by name.
-/

namespace Improv.Lib.SparseKey

variable {ν ι : Type*} [LinearOrder ν]

/-- Strictly increasing names: sorted, and no name twice. -/
def Sorted (k : List (ν × ι)) : Prop := k.Pairwise fun a b => a.1 < b.1

instance (k : List (ν × ι)) : Decidable (Sorted k) :=
  inferInstanceAs (Decidable (List.Pairwise _ k))

def names (k : List (ν × ι)) : List ν := k.map (·.1)

/-- The value of a name. -/
def lookup (k : List (ν × ι)) (c : ν) : Option ι := (k.find? fun p => p.1 = c).map (·.2)

/-- The part of a key on the names in `keep`. -/
def project (k : List (ν × ι)) (keep : List ν) : List (ν × ι) := k.filter fun p => p.1 ∈ keep

/-- One step of the merge: `x` against a key, `rest` merging what follows `x`. -/
def mergeStep (x : ν × ι) (rest : List (ν × ι) → List (ν × ι)) : List (ν × ι) → List (ν × ι)
  | [] => x :: rest []
  | y :: b =>
    if x.1 < y.1 then x :: rest (y :: b)
    else if y.1 < x.1 then y :: mergeStep x rest b
    else x :: rest b

/-- Both keys merged; on a name they share the first key's value wins. -/
def union : List (ν × ι) → List (ν × ι) → List (ν × ι)
  | [], b => b
  | x :: a, b => mergeStep x (union a) b

/-- A sorted key that gives a value to exactly the names in `dim`. -/
structure At (dim : List ν) (k : List (ν × ι)) : Prop where
  sorted : Sorted k
  names : ∀ c, c ∈ names k ↔ c ∈ dim

/-! ## Lookup -/

@[simp] theorem lookup_nil (c : ν) : lookup ([] : List (ν × ι)) c = none := rfl

@[simp] theorem lookup_cons (x : ν × ι) (k : List (ν × ι)) (c : ν) :
    lookup (x :: k) c = if x.1 = c then some x.2 else lookup k c := by
  by_cases h : x.1 = c <;> simp [lookup, h]

theorem sorted_cons {x : ν × ι} {k : List (ν × ι)} :
    Sorted (x :: k) ↔ (∀ y ∈ k, x.1 < y.1) ∧ Sorted k :=
  List.pairwise_cons

theorem lookup_isSome_iff (k : List (ν × ι)) (c : ν) : (lookup k c).isSome ↔ c ∈ names k := by
  induction k with
  | nil => simp [names]
  | cons x k ih =>
      rw [lookup_cons]
      by_cases h : x.1 = c
      · simp [names, h]
      · simp [names, h, ih, Ne.symm h]

theorem lookup_eq_none_iff (k : List (ν × ι)) (c : ν) : lookup k c = none ↔ c ∉ names k := by
  rw [← lookup_isSome_iff]
  cases lookup k c <;> simp

theorem mem_of_lookup {k : List (ν × ι)} {c : ν} {i : ι} (h : lookup k c = some i) :
    (c, i) ∈ k := by
  induction k with
  | nil => simp at h
  | cons x k ih =>
      rw [lookup_cons] at h
      by_cases hx : x.1 = c
      · rw [if_pos hx] at h
        cases h
        subst hx
        exact List.mem_cons_self
      · rw [if_neg hx] at h
        exact List.mem_cons_of_mem _ (ih h)

theorem lookup_of_mem {k : List (ν × ι)} (hk : Sorted k) {c : ν} {i : ι} (h : (c, i) ∈ k) :
    lookup k c = some i := by
  induction k with
  | nil => simp at h
  | cons x k ih =>
      obtain ⟨hlt, hk⟩ := sorted_cons.mp hk
      rw [lookup_cons]
      rcases List.mem_cons.mp h with rfl | hmem
      · simp
      · have hne : x.1 ≠ c := (hlt _ hmem).ne
        rw [if_neg hne]
        exact ih hk hmem

/-- Two sorted keys that give every name the same value are equal. -/
theorem ext {a b : List (ν × ι)} (ha : Sorted a) (hb : Sorted b)
    (h : ∀ c, lookup a c = lookup b c) : a = b := by
  have hmem : ∀ p, p ∈ a ↔ p ∈ b := fun p =>
    ⟨fun hp => mem_of_lookup (h p.1 ▸ lookup_of_mem ha hp),
      fun hp => mem_of_lookup ((h p.1).symm ▸ lookup_of_mem hb hp)⟩
  have hnodup : ∀ {k : List (ν × ι)}, Sorted k → k.Nodup := fun hk =>
    List.Pairwise.imp (fun hlt heq => (heq ▸ hlt).false) hk
  have hperm : a.Perm b := (List.perm_ext_iff_of_nodup (hnodup ha) (hnodup hb)).mpr hmem
  exact hperm.eq_of_pairwise (fun x y _ _ hxy hyx => absurd hyx (lt_asymm hxy)) ha hb

/-- Two keys over one dimension give it its names in the same order. -/
theorem At.names_eq {d : List ν} {a b : List (ν × ι)} (ha : At d a) (hb : At d b) :
    SparseKey.names a = SparseKey.names b := by
  have hsorted : ∀ {k : List (ν × ι)}, Sorted k → (SparseKey.names k).Pairwise (· < ·) :=
    fun hk => List.pairwise_map.mpr hk
  have hperm : (SparseKey.names a).Perm (SparseKey.names b) :=
    (List.perm_ext_iff_of_nodup (List.Pairwise.imp (fun hlt => hlt.ne) (hsorted ha.sorted))
      (List.Pairwise.imp (fun hlt => hlt.ne) (hsorted hb.sorted))).mpr
      fun c => (ha.names c).trans (hb.names c).symm
  exact hperm.eq_of_pairwise (fun x y _ _ hxy hyx => absurd hyx (lt_asymm hxy))
    (hsorted ha.sorted) (hsorted hb.sorted)

omit [LinearOrder ν] in
/-- Pairs with the same distinct names in the same order, in any order of their
own, are the same. -/
theorem eq_of_perm_of_names {a b : List (ν × ι)} (hnodup : (names a).Nodup)
    (hnames : names a = names b) (h : a.Perm b) : a = b := by
  induction a generalizing b with
  | nil => exact (List.nil_perm.mp h).symm
  | cons x a ih =>
      cases b with
      | nil => exact absurd h (by simp)
      | cons y b =>
          simp only [names, List.map_cons, List.cons.injEq, List.nodup_cons] at hnames hnodup
          have hxy : x = y := by
            rcases List.mem_cons.mp (h.mem_iff.mp List.mem_cons_self) with hxy | hxb
            · exact hxy
            · have hmem : x.1 ∈ b.map (·.1) := List.mem_map_of_mem hxb
              rw [← hnames.2] at hmem
              exact absurd hmem hnodup.1
          subst hxy
          rw [ih hnodup.2 hnames.2 ((List.perm_cons x).mp h)]

/-! ## Restriction -/

theorem sorted_project {k : List (ν × ι)} (hk : Sorted k) (keep : List ν) :
    Sorted (project k keep) :=
  List.Pairwise.filter _ hk

theorem lookup_project (k : List (ν × ι)) (keep : List ν) (c : ν) :
    lookup (project k keep) c = if c ∈ keep then lookup k c else none := by
  induction k with
  | nil => simp [project]
  | cons x k ih =>
      rw [project] at ih ⊢
      by_cases hx : x.1 ∈ keep
      · rw [List.filter_cons_of_pos (by simpa using hx), lookup_cons, lookup_cons, ih]
        by_cases hc : x.1 = c
        · subst hc
          simp [hx]
        · simp [hc]
      · rw [List.filter_cons_of_neg (by simpa using hx), ih, lookup_cons]
        by_cases hc : x.1 = c
        · subst hc
          simp [hx]
        · simp [hc]

theorem mem_names_project {k : List (ν × ι)} {keep : List ν} {c : ν} :
    c ∈ names (project k keep) ↔ c ∈ names k ∧ c ∈ keep := by
  rw [← lookup_isSome_iff, lookup_project, ← lookup_isSome_iff]
  split <;> simp [*]

theorem At.project {dim : List ν} {k : List (ν × ι)} (hk : At dim k) (keep : List ν) :
    At (dim.filter (· ∈ keep)) (project k keep) where
  sorted := sorted_project hk.sorted keep
  names c := by rw [mem_names_project, hk.names]; simp

/-- Restrictions that agree give the same value to every kept name. -/
theorem lookup_eq_of_project_eq {a b : List (ν × ι)} {keep : List ν}
    (h : project a keep = project b keep) {c : ν} (hc : c ∈ keep) :
    lookup a c = lookup b c := by
  have heq := congrArg (lookup · c) h
  simpa [lookup_project, hc] using heq

/-! ## Merge -/

@[simp] theorem union_nil_left (b : List (ν × ι)) : union [] b = b := rfl

@[simp] theorem union_nil_right (a : List (ν × ι)) : union a [] = a := by
  induction a with
  | nil => rfl
  | cons x a ih => rw [union, mergeStep, ih]

/-- A merge whose first key starts with `x`: what stands first, and what is
merged after it. -/
theorem lookup_mergeStep {x : ν × ι} {rest : List (ν × ι) → List (ν × ι)} {b : List (ν × ι)}
    (hb : Sorted b) (a : List (ν × ι)) (hx : ∀ y ∈ a, x.1 < y.1)
    (hrest : ∀ b, Sorted b → ∀ c, lookup (rest b) c = (lookup a c).or (lookup b c)) (c : ν) :
    lookup (mergeStep x rest b) c = (lookup (x :: a) c).or (lookup b c) := by
  induction b with
  | nil =>
      rw [mergeStep, lookup_cons, lookup_cons, hrest [] List.Pairwise.nil]
      split <;> simp
  | cons y b ih =>
      obtain ⟨hy, hb'⟩ := sorted_cons.mp hb
      rw [mergeStep]
      split
      · rw [lookup_cons, lookup_cons, hrest _ hb]
        split <;> simp
      · next hxy =>
          split
          · next hyx =>
              rw [lookup_cons, ih hb', lookup_cons y b]
              by_cases hc : y.1 = c
              · subst hc
                have hnone : lookup (x :: a) y.1 = none := by
                  rw [lookup_eq_none_iff]
                  simp only [names, List.map_cons, List.mem_cons, List.mem_map, not_or,
                    not_exists, not_and]
                  exact ⟨hyx.ne, fun z hz => (hyx.trans (hx z hz)).ne'⟩
                simp [hnone]
              · simp [hc]
          · next hyx =>
              have heq : x.1 = y.1 := le_antisymm (not_lt.mp hyx) (not_lt.mp hxy)
              rw [lookup_cons, hrest b hb', lookup_cons, lookup_cons]
              by_cases hc : x.1 = c
              · simp [hc]
              · simp [hc, ← heq]

theorem lookup_union {a b : List (ν × ι)} (ha : Sorted a) (hb : Sorted b) (c : ν) :
    lookup (union a b) c = (lookup a c).or (lookup b c) := by
  induction a generalizing b c with
  | nil => simp
  | cons x a ih =>
      obtain ⟨hx, ha'⟩ := sorted_cons.mp ha
      exact lookup_mergeStep hb a hx (fun b hb c => ih ha' hb c) c

theorem sorted_mergeStep {x : ν × ι} {rest : List (ν × ι) → List (ν × ι)} {b : List (ν × ι)}
    (hb : Sorted b) (hsorted : ∀ b, Sorted b → Sorted (rest b))
    (hbound : ∀ b : List (ν × ι), (∀ y ∈ b, x.1 < y.1) → ∀ y ∈ rest b, x.1 < y.1)
    (hbelow : ∀ z : ν, z < x.1 → ∀ b : List (ν × ι), (∀ y ∈ b, z < y.1) →
      ∀ y ∈ rest b, z < y.1) :
    Sorted (mergeStep x rest b) ∧
      ∀ z : ν, z < x.1 → (∀ y ∈ b, z < y.1) → ∀ y ∈ mergeStep x rest b, z < y.1 := by
  induction b with
  | nil =>
      refine ⟨sorted_cons.mpr ⟨hbound [] (by simp), hsorted [] List.Pairwise.nil⟩, ?_⟩
      intro z hz _ y hy
      rcases List.mem_cons.mp hy with rfl | hy
      · exact hz
      · exact hbelow z hz [] (by simp) y hy
  | cons w b ih =>
      obtain ⟨hw, hb'⟩ := sorted_cons.mp hb
      obtain ⟨ihs, ihz⟩ := ih hb'
      rw [mergeStep]
      split
      · next hxw =>
          refine ⟨sorted_cons.mpr ⟨hbound _ ?_, hsorted _ hb⟩, ?_⟩
          · intro y hy
            rcases List.mem_cons.mp hy with rfl | hy
            · exact hxw
            · exact hxw.trans (hw y hy)
          · intro z hz hzb y hy
            rcases List.mem_cons.mp hy with rfl | hy
            · exact hz
            · exact hbelow z hz _ hzb y hy
      · next hxw =>
          split
          · next hwx =>
              refine ⟨sorted_cons.mpr ⟨ihz w.1 hwx hw, ihs⟩, ?_⟩
              intro z hz hzb y hy
              rcases List.mem_cons.mp hy with rfl | hy
              · exact hzb y List.mem_cons_self
              · exact ihz z hz (fun v hv => hzb v (List.mem_cons_of_mem _ hv)) y hy
          · next hwx =>
              have heq : x.1 = w.1 := le_antisymm (not_lt.mp hwx) (not_lt.mp hxw)
              refine ⟨sorted_cons.mpr ⟨hbound b (fun y hy => heq ▸ hw y hy), hsorted b hb'⟩, ?_⟩
              intro z hz hzb y hy
              rcases List.mem_cons.mp hy with rfl | hy
              · exact hz
              · exact hbelow z hz b (fun v hv => hzb v (List.mem_cons_of_mem _ hv)) y hy

theorem lt_of_mem_union {a b : List (ν × ι)} {z : ν} (ha : ∀ y ∈ a, z < y.1)
    (hb : ∀ y ∈ b, z < y.1) : ∀ y ∈ union a b, z < y.1 := by
  induction a generalizing b with
  | nil => exact hb
  | cons x a ih =>
      have hx : z < x.1 := ha x List.mem_cons_self
      have hrest : ∀ b : List (ν × ι), (∀ y ∈ b, z < y.1) → ∀ y ∈ union a b, z < y.1 :=
        fun b hb => ih (fun y hy => ha y (List.mem_cons_of_mem _ hy)) hb
      rw [union]
      induction b with
      | nil =>
          intro y hy
          rcases List.mem_cons.mp hy with rfl | hy
          · exact hx
          · exact hrest [] (by simp) y hy
      | cons w b ihb =>
          have hw : z < w.1 := hb w List.mem_cons_self
          have hb' : ∀ y ∈ b, z < y.1 := fun y hy => hb y (List.mem_cons_of_mem _ hy)
          intro y hy
          rw [mergeStep] at hy
          split at hy
          · rcases List.mem_cons.mp hy with rfl | hy
            · exact hx
            · exact hrest _ hb y hy
          · split at hy
            · rcases List.mem_cons.mp hy with rfl | hy
              · exact hw
              · exact ihb hb' y hy
            · rcases List.mem_cons.mp hy with rfl | hy
              · exact hx
              · exact hrest b hb' y hy

theorem sorted_union {a b : List (ν × ι)} (ha : Sorted a) (hb : Sorted b) :
    Sorted (union a b) := by
  induction a generalizing b with
  | nil => exact hb
  | cons x a ih =>
      obtain ⟨hx, ha'⟩ := sorted_cons.mp ha
      exact (sorted_mergeStep hb (fun b hb => ih ha' hb)
        (fun b hb => lt_of_mem_union hx hb)
        (fun z hz b hb => lt_of_mem_union (fun y hy => hz.trans (hx y hy)) hb)).1

theorem mem_names_union {a b : List (ν × ι)} (ha : Sorted a) (hb : Sorted b) {c : ν} :
    c ∈ names (union a b) ↔ c ∈ names a ∨ c ∈ names b := by
  rw [← lookup_isSome_iff, lookup_union ha hb, ← lookup_isSome_iff, ← lookup_isSome_iff]
  cases lookup a c <;> simp

theorem mem_of_mem_union {a b : List (ν × ι)} (ha : Sorted a) (hb : Sorted b) {x : ν × ι}
    (hx : x ∈ union a b) : x ∈ a ∨ x ∈ b := by
  have hlookup := lookup_of_mem (sorted_union ha hb) hx
  rw [lookup_union ha hb] at hlookup
  cases hxa : lookup a x.1 with
  | some i =>
      rw [hxa] at hlookup
      exact .inl (mem_of_lookup (hxa.trans hlookup))
  | none =>
      rw [hxa] at hlookup
      exact .inr (mem_of_lookup hlookup)

theorem At.union {d e : List ν} {a b : List (ν × ι)} (ha : At d a) (hb : At e b) :
    At (d ++ e) (union a b) where
  sorted := sorted_union ha.sorted hb.sorted
  names c := by
    rw [mem_names_union ha.sorted hb.sorted, ha.names, hb.names, List.mem_append]

theorem At.congr {d e : List ν} {k : List (ν × ι)} (h : At d k) (hde : ∀ c, c ∈ d ↔ c ∈ e) :
    At e k :=
  ⟨h.sorted, fun c => (h.names c).trans (hde c)⟩

/-- A key is determined by the values it gives the names of its dimension. -/
theorem At.ext {d : List ν} {a b : List (ν × ι)} (ha : At d a) (hb : At d b)
    (h : ∀ c ∈ d, lookup a c = lookup b c) : a = b := by
  refine SparseKey.ext ha.sorted hb.sorted fun c => ?_
  by_cases hc : c ∈ d
  · exact h c hc
  · rw [(lookup_eq_none_iff a c).mpr (hc <| (ha.names c).mp ·),
      (lookup_eq_none_iff b c).mpr (hc <| (hb.names c).mp ·)]

/-- Two keys that agree on the names they share are both read off their
merge. -/
theorem At.eq_of_union_eq {d e shared : List ν} {a a' b b' : List (ν × ι)}
    (ha : At d a) (ha' : At d a') (hb : At e b) (hb' : At e b')
    (hshared : ∀ c ∈ d, c ∈ e → c ∈ shared)
    (hab : SparseKey.project a shared = SparseKey.project b shared)
    (hab' : SparseKey.project a' shared = SparseKey.project b' shared)
    (h : SparseKey.union a b = SparseKey.union a' b') : a = a' ∧ b = b' := by
  have hlookup : ∀ c, (lookup a c).or (lookup b c) = (lookup a' c).or (lookup b' c) := by
    intro c
    rw [← lookup_union ha.sorted hb.sorted, ← lookup_union ha'.sorted hb'.sorted, h]
  have hsome : ∀ {k : List (ν × ι)} {c}, At d k → c ∈ d → ∃ i, lookup k c = some i :=
    fun hk hc => Option.isSome_iff_exists.mp ((lookup_isSome_iff _ _).mpr ((hk.names _).mpr hc))
  have haa' : a = a' := by
    refine ha.ext ha' fun c hc => ?_
    obtain ⟨i, hi⟩ := hsome ha hc
    obtain ⟨i', hi'⟩ := hsome ha' hc
    have hc' := hlookup c
    rw [hi, hi'] at hc' ⊢
    simpa using hc'
  subst haa'
  refine ⟨rfl, hb.ext hb' fun c hc => ?_⟩
  by_cases hcd : c ∈ d
  · have hcs := hshared c hcd hc
    rw [← lookup_eq_of_project_eq hab hcs, lookup_eq_of_project_eq hab' hcs]
  · have hnone : lookup a c = none := (lookup_eq_none_iff a c).mpr (hcd <| (ha.names c).mp ·)
    have hc' := hlookup c
    rw [hnone] at hc'
    simpa using hc'

end Improv.Lib.SparseKey
