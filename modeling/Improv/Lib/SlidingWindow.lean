import Mathlib.Data.List.DropRight
import Mathlib.Data.List.Range
import Mathlib.Order.MinMax
import Mathlib.Tactic.Common
/-!
# Sliding windows

Windows over a list whose two ends only move forward: the pointers that find
them in sorted positions, a machine that takes positions in at the far end and
lets them out at the near end, and the queue of the positions that may still
be the least.
-/

namespace Improv.Lib.Sliding

/-! ## Pointers -/

section Pointers

variable {α : Type*} {l : List α} {p : α → Bool}

/-- A pointer moved forward from `a` past the elements that `p` holds for. -/
def advance (l : List α) (p : α → Bool) (a : Nat) : Nat := a + ((l.drop a).takeWhile p).length

/-- `p` holds for a first part of the list and for nothing after it. -/
def Initial (p : α → Bool) (l : List α) : Prop := l.Pairwise fun x y => p y = true → p x = true

theorem Initial.countP_eq_zero {x : α} (h : Initial p (x :: l)) (hx : p x = false) :
    (x :: l).countP p = 0 := by
  rw [List.countP_eq_zero]
  intro y hy hp
  cases List.mem_cons.mp hy with
  | inl heq =>
      rw [heq, hx] at hp
      cases hp
  | inr hmem =>
      have hpx := (List.pairwise_cons.mp h).1 y hmem hp
      rw [hx] at hpx
      cases hpx

theorem advance_eq_countP (h : Initial p l) {a : Nat} (ha : a ≤ l.countP p) :
    advance l p a = l.countP p := by
  unfold advance
  induction l generalizing a with
  | nil =>
      rw [List.countP_nil] at ha ⊢
      simp only [List.drop_nil, List.takeWhile_nil, List.length_nil]
      omega
  | cons x l ih =>
      have hl := (List.pairwise_cons.mp h).2
      cases hx : p x with
      | false =>
          have hzero := h.countP_eq_zero hx
          rw [hzero] at ha ⊢
          rw [Nat.le_zero.mp ha, List.drop_zero, List.takeWhile_cons_of_neg (by rw [hx]; decide)]
          rfl
      | true =>
          rw [List.countP_cons_of_pos hx] at ha ⊢
          cases a with
          | zero =>
              have hrest := @ih hl 0 (Nat.zero_le _)
              rw [List.drop_zero] at hrest
              rw [List.drop_zero, List.takeWhile_cons_of_pos hx, List.length_cons]
              omega
          | succ a =>
              have hrest := @ih hl a (by omega)
              rw [List.drop_succ_cons]
              omega

theorem lt_countP_iff (h : Initial p l) {j : Nat} {x : α} (hx : l[j]? = some x) :
    j < l.countP p ↔ p x = true := by
  induction l generalizing j with
  | nil => cases hx
  | cons y l ih =>
      have hl := (List.pairwise_cons.mp h).2
      cases hy : p y with
      | false =>
          have hnone := List.countP_eq_zero.mp (h.countP_eq_zero hy) x (List.mem_of_getElem? hx)
          rw [h.countP_eq_zero hy]
          exact ⟨fun hlt => absurd hlt (Nat.not_lt_zero j), fun hp => absurd hp hnone⟩
      | true =>
          rw [List.countP_cons_of_pos hy]
          cases j with
          | zero =>
              rw [List.getElem?_cons_zero, Option.some.injEq] at hx
              rw [← hx, hy]
              exact ⟨fun _ => rfl, fun _ => Nat.succ_pos _⟩
          | succ j =>
              rw [List.getElem?_cons_succ] at hx
              rw [← ih hl hx]
              omega

end Pointers

/-! ## The machine -/

section Machine

universe u

variable {σ γ : Type u}

/-- What moves a window's state: a position joins at the far end or leaves at
the near one, and the state is read for the window `a..b`. -/
structure Machine (σ γ : Type u) where
  add : σ → Nat → Option σ
  remove : σ → Nat → Option σ
  read : σ → Nat → Nat → Option (γ × σ)

/-- Each window's reading.  The state holds `ra..rb`; both ends only move
forward. -/
def Machine.run (m : Machine σ γ) (s : σ) (ra rb : Nat) : List (Nat × Nat) → Option (List γ)
  | [] => some []
  | (a, b) :: rest => do
    let s ← (List.range' rb (max a b - rb)).foldlM m.add s
    let s ← (List.range' ra (a - ra)).foldlM m.remove s
    let (v, s) ← m.read s a b
    let out ← m.run s (max ra a) (max rb (max a b)) rest
    some (v :: out)

/-- The state tracks its window through every step within `n` positions, and
reads `result` off the windows `reads`. -/
structure Machine.Tracks (m : Machine σ γ) (holds : σ → Nat → Nat → Prop) (n : Nat)
    (reads : List (Nat × Nat)) (result : Nat → Nat → γ) : Prop where
  add : ∀ s a b, holds s a b → a ≤ b → b < n → ∃ s', m.add s b = some s' ∧ holds s' a (b + 1)
  remove : ∀ s a b, holds s a b → a < b → b ≤ n →
    ∃ s', m.remove s a = some s' ∧ holds s' (a + 1) b
  read : ∀ s a b, (a, b) ∈ reads → holds s a (max a b) →
    ∃ s', m.read s a b = some (result a b, s') ∧ holds s' a (max a b)

variable {m : Machine σ γ} {holds : σ → Nat → Nat → Prop} {n : Nat} {reads : List (Nat × Nat)}
  {result : Nat → Nat → γ}

theorem Machine.Tracks.addAll (h : m.Tracks holds n reads result) {s : σ} {a b : Nat}
    (hs : holds s a b) (hab : a ≤ b) (k : Nat) (hn : b + k ≤ n) :
    ∃ s', (List.range' b k).foldlM m.add s = some s' ∧ holds s' a (b + k) := by
  induction k generalizing s b with
  | zero => exact ⟨s, rfl, hs⟩
  | succ k ih =>
      obtain ⟨s₁, hadd, hs₁⟩ := h.add s a b hs hab (by omega)
      obtain ⟨s', hrest, hs'⟩ := ih hs₁ (by omega) (by omega)
      refine ⟨s', ?_, by rwa [show b + (k + 1) = b + 1 + k by omega]⟩
      rw [List.range'_succ, List.foldlM_cons, hadd]
      exact hrest

theorem Machine.Tracks.removeAll (h : m.Tracks holds n reads result) {s : σ} {a b : Nat}
    (hs : holds s a b) (k : Nat) (hk : a + k ≤ b) (hn : b ≤ n) :
    ∃ s', (List.range' a k).foldlM m.remove s = some s' ∧ holds s' (a + k) b := by
  induction k generalizing s a with
  | zero => exact ⟨s, rfl, hs⟩
  | succ k ih =>
      obtain ⟨s₁, hremove, hs₁⟩ := h.remove s a b hs (by omega) hn
      obtain ⟨s', hrest, hs'⟩ := ih hs₁ (by omega)
      refine ⟨s', ?_, by rwa [show a + (k + 1) = a + 1 + k by omega]⟩
      rw [List.range'_succ, List.foldlM_cons, hremove]
      exact hrest

/-- A run over windows whose ends only move forward reads each of them. -/
theorem Machine.Tracks.run_eq (h : m.Tracks holds n reads result) {s : σ} {ra rb : Nat}
    (hs : holds s ra rb) (hab : ra ≤ rb) {spans : List (Nat × Nat)} (hsub : spans ⊆ reads)
    (hmono : spans.Pairwise fun x y => x.1 ≤ y.1 ∧ x.2 ≤ y.2)
    (hn : ∀ x ∈ spans, x.1 ≤ n ∧ x.2 ≤ n)
    (hstart : ∀ x ∈ spans, ra ≤ x.1 ∧ rb ≤ max x.1 x.2) :
    m.run s ra rb spans = some (spans.map fun x => result x.1 x.2) := by
  induction spans generalizing s ra rb with
  | nil => rfl
  | cons x spans ih =>
      obtain ⟨a, b⟩ := x
      obtain ⟨hhead, htail⟩ := List.pairwise_cons.mp hmono
      have hfirst : ra ≤ a ∧ rb ≤ max a b := hstart (a, b) List.mem_cons_self
      have hlast : a ≤ n ∧ b ≤ n := hn (a, b) List.mem_cons_self
      have hrb : rb + (max a b - rb) = max a b := by omega
      have hra : ra + (a - ra) = a := by omega
      obtain ⟨s₁, hadd, hs₁⟩ := h.addAll hs hab (max a b - rb) (by omega)
      rw [hrb] at hs₁
      obtain ⟨s₂, hremove, hs₂⟩ := h.removeAll hs₁ (a - ra) (by omega) (by omega)
      rw [hra] at hs₂
      obtain ⟨s₃, hread, hs₃⟩ := h.read s₂ a b (hsub List.mem_cons_self) hs₂
      have hrest := ih hs₃ (le_max_left a b) (List.subset_of_cons_subset hsub) htail
        (fun y hy => hn y (List.mem_cons_of_mem _ hy)) fun y hy => by
          have hle : a ≤ y.1 ∧ b ≤ y.2 := hhead y hy
          exact ⟨hle.1, max_le_max hle.1 hle.2⟩
      unfold Machine.run
      simp only [hadd, hremove, hread, Option.bind_eq_bind, Option.bind_some]
      rw [show max ra a = a by omega, show max rb (max a b) = max a b by omega, hrest]
      rfl

end Machine

/-! ## The queue of the least -/

section Queue

variable {κ : Type*} [LinearOrder κ] {c : Nat → Option κ}

/-- Position `k` has a cost, and each later one before `b` a greater one or
none. -/
def stays (c : Nat → Option κ) (b k : Nat) : Bool :=
  (c k).any fun v => (List.range' (k + 1) (b - (k + 1))).all fun j => (c j).all (v < ·)

/-- The positions of the window `a..b` that may still be its least, in order. -/
def candidates (c : Nat → Option κ) (a b : Nat) : List Nat :=
  (List.range' a (b - a)).filter (stays c b)

theorem stays_iff {b k : Nat} : stays c b k = true ↔
    ∃ v, c k = some v ∧ ∀ j, k < j → j < b → ∀ u, c j = some u → v < u := by
  unfold stays
  rw [Option.any_eq_true]
  refine exists_congr fun v => and_congr_right fun _ => ?_
  rw [List.all_eq_true]
  constructor
  · intro h j hkj hjb u hu
    have hall := h j (List.mem_range'_1.mpr (by omega))
    rw [hu] at hall
    simpa using hall
  · intro h j hj
    rw [List.mem_range'_1] at hj
    cases hu : c j with
    | none => rfl
    | some u => simpa using h j (by omega) (by omega) u hu

theorem mem_candidates_iff {a b k : Nat} :
    k ∈ candidates c a b ↔ a ≤ k ∧ k < b ∧ stays c b k = true := by
  unfold candidates
  rw [List.mem_filter, List.mem_range'_1]
  constructor
  · rintro ⟨hk, hstays⟩
    exact ⟨by omega, by omega, hstays⟩
  · rintro ⟨ha, hb, hstays⟩
    exact ⟨by omega, hstays⟩

/-- Along the queue the costs grow. -/
theorem pairwise_candidates (a b : Nat) :
    (candidates c a b).Pairwise fun j k => ∀ v u, c j = some v → c k = some u → v < u := by
  have hlt : (candidates c a b).Pairwise (· < ·) := List.Pairwise.filter _ List.pairwise_lt_range'
  refine hlt.imp_of_mem fun {j k} hj hk hjk v u hv hu => ?_
  obtain ⟨-, -, hstays⟩ := mem_candidates_iff.mp hj
  obtain ⟨w, hw, hlater⟩ := stays_iff.mp hstays
  rw [hv, Option.some.injEq] at hw
  rw [hw]
  exact hlater k hjk (mem_candidates_iff.mp hk).2.1 u hu

theorem candidates_self (a : Nat) : candidates c a a = [] := by
  unfold candidates
  rw [Nat.sub_self]
  rfl

/-- The positions of a list in order, without those that a last part of it
drops. -/
theorem rdropWhile_eq_filter {α : Type*} {p : α → Bool} {l : List α}
    (h : l.Pairwise fun x y => p x = true → p y = true) :
    l.rdropWhile p = l.filter fun x => !p x := by
  induction l using List.reverseRecOn with
  | nil => rfl
  | append_singleton l x ih =>
      have hl := (List.pairwise_append.mp h).1
      have hlast := (List.pairwise_append.mp h).2.2
      rw [List.filter_append]
      cases hx : p x with
      | true =>
          rw [List.rdropWhile_concat_pos _ _ _ hx, ih hl]
          simp [hx]
      | false =>
          rw [List.rdropWhile_concat_neg _ _ _ (by rw [hx]; decide)]
          have hkeep : l.filter (fun x => !p x) = l := by
            rw [List.filter_eq_self]
            intro y hy
            cases hy' : p y with
            | false => rfl
            | true =>
                have hpx := hlast y hy x (List.mem_singleton_self x) hy'
                rw [hx] at hpx
                cases hpx
          rw [hkeep]
          simp [hx]

theorem stays_succ {b k : Nat} (hk : k < b) :
    stays c (b + 1) k = true ↔ stays c b k = true ∧ ∀ v u, c k = some v → c b = some u → v < u := by
  rw [stays_iff, stays_iff]
  constructor
  · rintro ⟨v, hv, hlater⟩
    refine ⟨⟨v, hv, fun j hkj hjb => hlater j hkj (by omega)⟩, fun w u hw hu => ?_⟩
    rw [hv, Option.some.injEq] at hw
    rw [← hw]
    exact hlater b hk (by omega) u hu
  · rintro ⟨⟨v, hv, hlater⟩, hnew⟩
    refine ⟨v, hv, fun j hkj hjb u hu => ?_⟩
    by_cases hj : j = b
    · rw [hj] at hu
      exact hnew v u hv hu
    · exact hlater j hkj (by omega) u hu

/-- A position without a cost leaves the queue as it is. -/
theorem candidates_skip {a b : Nat} (hab : a ≤ b) (hb : c b = none) :
    candidates c a (b + 1) = candidates c a b := by
  have hlast : stays c (b + 1) b = false := by
    unfold stays
    rw [hb]
    rfl
  unfold candidates
  rw [show b + 1 - a = b - a + 1 by omega, List.range'_concat, List.filter_append,
    show a + 1 * (b - a) = b by omega, List.filter_singleton, hlast, Bool.cond_false,
    List.append_nil]
  refine List.filter_congr fun k hk => ?_
  rw [List.mem_range'_1] at hk
  rw [Bool.eq_iff_iff, stays_succ (by omega)]
  exact and_iff_left fun v u _ hu => by rw [hb] at hu; cases hu

/-- A position joins the queue behind those that cost less. -/
theorem candidates_push {a b : Nat} (hab : a ≤ b) {u : κ} (hb : c b = some u) {p : Nat → Bool}
    (hp : ∀ k ∈ candidates c a b, p k = true ↔ ∃ v, c k = some v ∧ u ≤ v) :
    candidates c a (b + 1) = (candidates c a b).rdropWhile p ++ [b] := by
  have hlast : stays c (b + 1) b = true :=
    stays_iff.mpr ⟨u, hb, fun j hbj hjb => absurd hbj (by omega)⟩
  have hsuffix : (candidates c a b).Pairwise fun x y => p x = true → p y = true := by
    refine (pairwise_candidates a b).imp_of_mem fun {j k} hj hk hcost hpj => ?_
    obtain ⟨v, hv, huv⟩ := (hp j hj).mp hpj
    obtain ⟨w, hw, -⟩ := stays_iff.mp (mem_candidates_iff.mp hk).2.2
    exact (hp k hk).mpr ⟨w, hw, huv.trans (hcost v w hv hw).le⟩
  rw [rdropWhile_eq_filter hsuffix]
  unfold candidates
  rw [show b + 1 - a = b - a + 1 by omega, List.range'_concat, List.filter_append,
    show a + 1 * (b - a) = b by omega, List.filter_singleton, hlast, Bool.cond_true,
    List.filter_filter]
  congr 1
  refine List.filter_congr fun k hk => ?_
  rw [List.mem_range'_1] at hk
  rw [Bool.eq_iff_iff, stays_succ (by omega), Bool.and_eq_true, and_comm,
    Bool.not_eq_true']
  refine and_congr_left fun hstays => ?_
  have hpk := hp k (mem_candidates_iff.mpr ⟨by omega, by omega, hstays⟩)
  obtain ⟨v, hv, -⟩ := stays_iff.mp hstays
  rw [Bool.eq_false_iff, Ne, hpk]
  constructor
  · rintro hless ⟨w, hw, huw⟩
    exact absurd (hless w u hw hb) (not_lt.mpr huw)
  · intro hnot w x hw hx
    rw [hb, Option.some.injEq] at hx
    rw [← hx]
    exact not_le.mp fun hle => hnot ⟨w, hw, hle⟩

/-- The near end leaves the queue where it is the queue's front. -/
theorem candidates_pop {a b : Nat} (hab : a < b) :
    candidates c (a + 1) b =
      if (candidates c a b).head? = some a then (candidates c a b).tail else candidates c a b := by
  have hsplit : candidates c a b = (if stays c b a then [a] else []) ++ candidates c (a + 1) b := by
    unfold candidates
    rw [show b - a = b - (a + 1) + 1 by omega, List.range'_succ, List.filter_cons]
    split <;> rfl
  rw [hsplit]
  by_cases hstays : stays c b a = true
  · rw [if_pos hstays, List.singleton_append, List.head?_cons, if_pos rfl, List.tail_cons]
  · rw [if_neg hstays, List.nil_append, if_neg]
    intro hhead
    have hmem := mem_candidates_iff.mp (List.mem_of_mem_head? hhead)
    omega

theorem exists_candidate {a b j : Nat} {u : κ} (haj : a ≤ j) (hjb : j < b) (hu : c j = some u) :
    ∃ k ∈ candidates c a b, ∃ v, c k = some v ∧ v ≤ u := by
  by_cases hstays : stays c b j = true
  · exact ⟨j, mem_candidates_iff.mpr ⟨haj, hjb, hstays⟩, u, hu, le_rfl⟩
  · -- a later position costs no more
    rw [stays_iff] at hstays
    push Not at hstays
    obtain ⟨j', hlt, hjb', w, hw, hle⟩ := hstays u hu
    obtain ⟨k, hk, v, hv, hvw⟩ := exists_candidate (haj.trans hlt.le) hjb' hw
    exact ⟨k, hk, v, hv, hvw.trans hle⟩
termination_by b - j

/-- The front of the queue costs least in the window. -/
theorem candidates_head {a b k : Nat} (h : (candidates c a b).head? = some k) :
    a ≤ k ∧ k < b ∧ ∃ v, c k = some v ∧ ∀ j, a ≤ j → j < b → ∀ u, c j = some u → v ≤ u := by
  obtain ⟨ha, hb, hstays⟩ := mem_candidates_iff.mp (List.mem_of_mem_head? h)
  obtain ⟨v, hv, -⟩ := stays_iff.mp hstays
  refine ⟨ha, hb, v, hv, fun j haj hjb u hu => ?_⟩
  obtain ⟨k', hk', w, hw, hwu⟩ := exists_candidate haj hjb hu
  have hgrow := @pairwise_candidates κ _ c a b
  cases hq : candidates c a b with
  | nil =>
      rw [hq] at h
      cases h
  | cons x q =>
      rw [hq] at h hk' hgrow
      rw [List.head?_cons, Option.some.injEq] at h
      cases List.mem_cons.mp hk' with
      | inl heq =>
          rw [heq, h, hv, Option.some.injEq] at hw
          rw [hw]
          exact hwu
      | inr hmem =>
          rw [← h] at hv
          exact ((List.pairwise_cons.mp hgrow).1 k' hmem v w hv hw).le.trans hwu

theorem candidates_eq_nil {a b : Nat} (h : candidates c a b = []) {j : Nat} (haj : a ≤ j)
    (hjb : j < b) : c j = none := by
  cases hu : c j with
  | none => rfl
  | some u =>
      obtain ⟨k, hk, -⟩ := exists_candidate haj hjb hu
      rw [h] at hk
      cases hk

end Queue

end Improv.Lib.Sliding
