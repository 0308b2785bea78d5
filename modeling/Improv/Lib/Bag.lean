import Mathlib.Data.Finmap
import Mathlib.Data.Finset.Sort
import Mathlib.Data.List.Sort
import Mathlib.Data.Multiset.Bind
import Mathlib.Data.Multiset.Dedup
import Mathlib.Data.Multiset.UnionInter
import Mathlib.Data.Prod.Lex
import Mathlib.Tactic.Common
/-!
# Collections of keyed rows

Multisets of rows with the operators of a dataflow: a join on a key, a
reduction of the rows of each key, and the property that every key has at most
one row.
-/

namespace Improv.Lib.Bag

variable {κ κ' α β γ : Type*}

/-- Every pair of rows with one key, combined. -/
def join [DecidableEq κ] (left : α → κ) (right : β → κ) (combine : α → β → γ)
    (l : Multiset α) (r : Multiset β) : Multiset γ :=
  l.bind fun a => (r.filter fun b => right b = left a).map (combine a)

/-- The rows of each key reduced together, in any order of the keys. -/
def reduce [DecidableEq κ] (key : α → κ) (logic : κ → Multiset α → Multiset β)
    (rows : Multiset α) : Multiset β :=
  (rows.map key).dedup.bind fun k => logic k (rows.filter fun a => key a = k)

/-- The rows in increasing order, copies included. -/
def inOrder [LinearOrder α] (rows : Multiset α) : List α :=
  Quot.liftOn rows (List.insertionSort (· ≤ ·)) fun a b h =>
    List.Perm.eq_of_pairwise (fun _ _ _ _ hxy hyx => le_antisymm hxy hyx)
      (List.pairwise_insertionSort (· ≤ ·) a) (List.pairwise_insertionSort (· ≤ ·) b)
      (((List.perm_insertionSort (· ≤ ·) a).trans h).trans
        (List.perm_insertionSort (· ≤ ·) b).symm)

/-- The values of each key reduced together, in increasing order. -/
def reduceInOrder [DecidableEq κ] [LinearOrder α] (logic : List α → List β)
    (rows : Multiset (κ × α)) : Multiset (κ × β) :=
  reduce Prod.fst (fun k group => ((logic (inOrder (group.map Prod.snd))).map (k, ·) : List _)) rows

/-- Every key has at most one row. -/
def OneValued (rows : Multiset (κ × α)) : Prop := (rows.map Prod.fst).Nodup

/-! ## Membership -/

@[simp] theorem coe_inOrder [LinearOrder α] (rows : Multiset α) :
    (inOrder rows : Multiset α) = rows :=
  Quot.inductionOn rows fun l => Quot.sound (List.perm_insertionSort (· ≤ ·) l)

theorem mem_inOrder [LinearOrder α] {rows : Multiset α} {a : α} :
    a ∈ inOrder rows ↔ a ∈ rows := by
  rw [← Multiset.mem_coe, coe_inOrder]

theorem mem_join [DecidableEq κ] {left : α → κ} {right : β → κ} {combine : α → β → γ}
    {l : Multiset α} {r : Multiset β} {c : γ} :
    c ∈ join left right combine l r ↔
      ∃ a ∈ l, ∃ b ∈ r, right b = left a ∧ combine a b = c := by
  simp [join, and_assoc]

theorem mem_reduce [DecidableEq κ] {key : α → κ} {logic : κ → Multiset α → Multiset β}
    {rows : Multiset α} {b : β} :
    b ∈ reduce key logic rows ↔
      ∃ a ∈ rows, b ∈ logic (key a) (rows.filter fun x => key x = key a) := by
  simp [reduce]

theorem mem_reduceInOrder [DecidableEq κ] [LinearOrder α] {logic : List α → List β}
    {rows : Multiset (κ × α)} {x : κ × β} :
    x ∈ reduceInOrder logic rows ↔
      (∃ r ∈ rows, r.1 = x.1) ∧
        x.2 ∈ logic (inOrder ((rows.filter fun r => r.1 = x.1).map Prod.snd)) := by
  obtain ⟨k, v⟩ := x
  rw [reduceInOrder, mem_reduce]
  constructor
  · intro h
    obtain ⟨r, hr, hv⟩ := h
    rw [Multiset.mem_coe, List.mem_map] at hv
    obtain ⟨w, hw, heq⟩ := hv
    cases heq
    exact ⟨⟨r, hr, rfl⟩, hw⟩
  · intro h
    obtain ⟨⟨r, hr, rfl⟩, hv⟩ := h
    exact ⟨r, hr, by simpa using hv⟩

/-! ## One row for each key -/

theorem OneValued.nodup {rows : Multiset (κ × α)} (h : OneValued rows) : rows.Nodup :=
  Multiset.Nodup.of_map _ h

theorem oneValued_zero : OneValued (0 : Multiset (κ × α)) := by
  simp [OneValued]

theorem oneValued_singleton (p : κ × α) : OneValued ({p} : Multiset (κ × α)) := by
  simp [OneValued]

theorem OneValued.eq_of_key_eq {rows : Multiset (κ × α)} (h : OneValued rows) {p q : κ × α}
    (hp : p ∈ rows) (hq : q ∈ rows) (hkey : p.1 = q.1) : p = q :=
  Multiset.inj_on_of_nodup_map h p hp q hq hkey

theorem OneValued.mono {rows rows' : Multiset (κ × α)} (h : OneValued rows)
    (hle : rows' ≤ rows) : OneValued rows' :=
  Multiset.nodup_of_le (Multiset.map_le_map hle) h

/-- Changing values keeps every key at most one row. -/
theorem OneValued.map_values {rows : Multiset (κ × α)} (h : OneValued rows)
    (f : κ × α → β) : OneValued (rows.map fun p => (p.1, f p)) := by
  simpa [OneValued, Function.comp_def] using h

theorem nodup_bind_of {s : Multiset α} {t : α → Multiset β} (hs : s.Nodup)
    (ht : ∀ a ∈ s, (t a).Nodup)
    (hdisj : ∀ a ∈ s, ∀ b ∈ s, ∀ c ∈ t a, c ∈ t b → a = b) : (s.bind t).Nodup := by
  refine Multiset.nodup_bind.mpr ⟨ht, Multiset.Nodup.pairwise (fun a ha b hb hne => ?_) hs⟩
  exact Multiset.disjoint_left.mpr fun hca hcb => hne (hdisj a ha b hb _ hca hcb)

/-- Renaming keys one to one keeps every key at most one row. -/
theorem OneValued.filterMap {rows : Multiset (κ × α)} (h : OneValued rows)
    {f : κ × α → Option (κ' × β)}
    (hf : ∀ p ∈ rows, ∀ q ∈ rows, ∀ p' q', f p = some p' → f q = some q' →
      p'.1 = q'.1 → p = q) :
    OneValued (rows.filterMap f) := by
  have hnodup : ((rows.filterMap f).map Prod.fst).Nodup := by
    rw [Multiset.filterMap_eq_bind, Multiset.map_bind]
    refine nodup_bind_of h.nodup (fun p _ => ?_) (fun p hp q hq k hk hk' => ?_)
    · cases f p <;> simp
    · cases hfp : f p with
      | none => simp [hfp] at hk
      | some p' =>
          cases hfq : f q with
          | none => simp [hfq] at hk'
          | some q' =>
              simp only [hfp, hfq] at hk hk'
              refine hf p hp q hq p' q' hfp hfq ?_
              simp_all
  exact hnodup

/-- A join has at most one row for each key when a result's key tells both of
its rows. -/
theorem OneValued.join [DecidableEq κ'] {l : Multiset (κ × α)} {r : Multiset (κ × β)}
    (hl : OneValued l) (hr : OneValued r) {left : κ × α → κ'} {right : κ × β → κ'}
    {combine : κ × α → κ × β → κ × γ}
    (hkeys : ∀ a ∈ l, ∀ b ∈ r, right b = left a → ∀ a' ∈ l, ∀ b' ∈ r, right b' = left a' →
      (combine a b).1 = (combine a' b').1 → a.1 = a'.1 ∧ b.1 = b'.1) :
    OneValued (Bag.join left right combine l r) := by
  unfold OneValued Bag.join
  rw [Multiset.map_bind]
  refine nodup_bind_of hl.nodup (fun a ha => ?_) (fun a ha a' ha' k hk hk' => ?_)
  · rw [Multiset.map_map]
    refine Multiset.Nodup.map_on (fun b hb b' hb' heq => ?_) (hr.nodup.filter _)
    obtain ⟨hb, hab⟩ := Multiset.mem_filter.mp hb
    obtain ⟨hb', hab'⟩ := Multiset.mem_filter.mp hb'
    exact hr.eq_of_key_eq hb hb' (hkeys a ha b hb hab a ha b' hb' hab' heq).2
  · simp only [Multiset.mem_map, Multiset.mem_filter] at hk hk'
    obtain ⟨c, ⟨b, ⟨hb, hab⟩, rfl⟩, hc⟩ := hk
    obtain ⟨c', ⟨b', ⟨hb', hab'⟩, rfl⟩, hc'⟩ := hk'
    exact hl.eq_of_key_eq ha ha' (hkeys a ha b hb hab a' ha' b' hb' hab' (hc.trans hc'.symm)).1

/-- A reduction has at most one row for each key when each group's results do
and no two groups have results at one key. -/
theorem oneValued_reduce [DecidableEq κ'] {key : α → κ'}
    {logic : κ' → Multiset α → Multiset (κ × β)} {rows : Multiset α}
    (hgroup : ∀ k, OneValued (logic k (rows.filter fun a => key a = k)))
    (hkeys : ∀ k k' g g', ∀ p ∈ logic k g, ∀ q ∈ logic k' g', p.1 = q.1 → k = k') :
    OneValued (reduce key logic rows) := by
  unfold OneValued reduce
  rw [Multiset.map_bind]
  refine nodup_bind_of (Multiset.nodup_dedup _) (fun k _ => hgroup k) ?_
  intro k _ k' _ c hc hc'
  obtain ⟨p, hp, rfl⟩ := Multiset.mem_map.mp hc
  obtain ⟨q, hq, heq⟩ := Multiset.mem_map.mp hc'
  exact hkeys _ _ _ _ p hp q hq heq.symm

/-- A reduction to at most one value gives every key at most one row. -/
theorem oneValued_reduceInOrder [DecidableEq κ] [LinearOrder α] {logic : List α → List β}
    {rows : Multiset (κ × α)} (hlogic : ∀ l, (logic l).length ≤ 1) :
    OneValued (reduceInOrder logic rows) := by
  refine oneValued_reduce (fun k => ?_) (fun k k' g g' p hp q hq hpq => ?_)
  · have hone := hlogic (inOrder ((rows.filter fun a => a.1 = k).map Prod.snd))
    unfold OneValued
    generalize logic _ = l at hone
    match l, hone with
    | [], _ => simp
    | [v], _ => simp
  · simp only [Multiset.mem_coe, List.mem_map] at hp hq
    obtain ⟨v, _, rfl⟩ := hp
    obtain ⟨w, _, rfl⟩ := hq
    exact hpq

/-- The labels of each group's values tell a reduction's rows apart when each
group's labels are distinct. -/
theorem nodup_map_reduceInOrder [DecidableEq κ] [LinearOrder α] {logic : List α → List β}
    {label : β → γ} {rows : Multiset (κ × α)}
    (hlogic : ∀ k, ((logic (inOrder ((rows.filter fun r => r.1 = k).map Prod.snd))).map
      label).Nodup) :
    ((reduceInOrder logic rows).map fun x => (x.1, label x.2)).Nodup := by
  unfold reduceInOrder reduce
  rw [Multiset.map_bind]
  refine nodup_bind_of (Multiset.nodup_dedup _) (fun k _ => ?_) (fun k _ k' _ c hc hc' => ?_)
  · rw [Multiset.map_coe, Multiset.coe_nodup, List.map_map]
    refine List.Nodup.of_map Prod.snd ?_
    rw [List.map_map]
    exact hlogic k
  · simp only [Multiset.map_coe, Multiset.mem_coe, List.mem_map] at hc hc'
    obtain ⟨_, ⟨_, _, rfl⟩, rfl⟩ := hc
    obtain ⟨_, ⟨_, _, rfl⟩, heq⟩ := hc'
    exact (congrArg Prod.fst heq).symm

/-! ## Reductions in blocks -/

variable {σ ρ : Type*}

/-- Rows in increasing order are told by what they are and that they are
sorted. -/
theorem eq_inOrder [LinearOrder α] {rows : Multiset α} {l : List α} (h : (l : Multiset α) = rows)
    (hsorted : l.Pairwise (· ≤ ·)) : l = inOrder rows := by
  subst h
  exact List.Perm.eq_of_pairwise (fun _ _ _ _ hxy hyx => le_antisymm hxy hyx) hsorted
    (List.pairwise_insertionSort (· ≤ ·) l) (List.perm_insertionSort (· ≤ ·) l).symm

theorem pairwise_inOrder [LinearOrder α] (rows : Multiset α) :
    (inOrder rows).Pairwise (· ≤ ·) :=
  Quot.inductionOn rows fun l => List.pairwise_insertionSort (· ≤ ·) l

theorem inOrder_filter [LinearOrder α] (p : α → Prop) [DecidablePred p] (rows : Multiset α) :
    inOrder (rows.filter p) = (inOrder rows).filter p := by
  refine (eq_inOrder ?_ ((pairwise_inOrder rows).filter _)).symm
  rw [← Multiset.filter_coe, coe_inOrder]

theorem nodup_inOrder [LinearOrder α] {rows : Multiset α} (h : rows.Nodup) :
    (inOrder rows).Nodup := by
  rw [← Multiset.coe_nodup, coe_inOrder]
  exact h

/-- The blocks of some rows, in increasing order. -/
def blocks [LinearOrder σ] (block : α → σ) (l : List α) : List σ :=
  inOrder ((l : Multiset α).map block).dedup

theorem mem_blocks [LinearOrder σ] {block : α → σ} {l : List α} {b : σ} :
    b ∈ blocks block l ↔ ∃ a ∈ l, block a = b := by
  unfold blocks
  rw [mem_inOrder, Multiset.mem_dedup, Multiset.map_coe, Multiset.mem_coe, List.mem_map]

/-- A list's classes hold, in all, the list. -/
theorem flatten_classes_perm [DecidableEq κ] (f : α → κ) {ks : List κ} {l : List α}
    (hks : ks.Nodup) (hmem : ∀ a ∈ l, f a ∈ ks) :
    (ks.map fun k => l.filter fun a => f a = k).flatten.Perm l := by
  induction ks generalizing l with
  | nil =>
      have hnil : l = [] := List.eq_nil_iff_forall_not_mem.mpr fun a ha => by
        simpa using hmem a ha
      rw [hnil]
      rfl
  | cons k ks ih =>
      obtain ⟨hk, hks⟩ := List.nodup_cons.mp hks
      have hrest : (ks.map fun k' => l.filter fun a => f a = k') =
          ks.map fun k' => (l.filter fun a => !decide (f a = k)).filter fun a => f a = k' := by
        refine List.map_congr_left fun k' hk' => ?_
        rw [List.filter_filter]
        refine List.filter_congr fun a _ => ?_
        by_cases ha : f a = k'
        · have hne : ¬k' = k := fun h => hk (h ▸ hk')
          simp [ha, hne]
        · simp [ha]
      rw [List.map_cons, List.flatten_cons, hrest]
      refine ((ih hks fun a ha => ?_).append_left _).trans
        (List.filter_append_perm (fun a => decide (f a = k)) l)
      obtain ⟨ha, hne⟩ := List.mem_filter.mp ha
      exact (List.mem_cons.mp (hmem a ha)).resolve_left (by simpa using hne)

/-- A reduction to one value of every group. -/
theorem reduceInOrder_singleton [DecidableEq κ] [LinearOrder α] (f : List α → β)
    (rows : Multiset (κ × α)) :
    reduceInOrder (fun l => if l.isEmpty then [] else [f l]) rows =
      (rows.map Prod.fst).dedup.map fun k =>
        (k, f (inOrder ((rows.filter fun x => x.1 = k).map Prod.snd))) := by
  unfold reduceInOrder reduce
  refine Eq.trans (Multiset.bind_congr fun k hk => ?_) (Multiset.bind_singleton _ _)
  obtain ⟨x, hx, rfl⟩ := Multiset.mem_map.mp (Multiset.mem_dedup.mp hk)
  have hmem : x.2 ∈ inOrder ((rows.filter fun y => y.1 = x.1).map Prod.snd) :=
    mem_inOrder.mpr (Multiset.mem_map_of_mem _ (Multiset.mem_filter.mpr ⟨hx, rfl⟩))
  have hne : ¬(inOrder ((rows.filter fun y => y.1 = x.1).map Prod.snd)).isEmpty = true := by
    rw [List.isEmpty_iff]
    exact List.ne_nil_of_mem hmem
  dsimp only
  rw [if_neg hne]
  rfl

/-- Reductions that agree on every group agree. -/
theorem reduceInOrder_congr [DecidableEq κ] [LinearOrder α] {f g : List α → List β}
    {rows : Multiset (κ × α)}
    (h : ∀ x ∈ rows, f (inOrder ((rows.filter fun y => y.1 = x.1).map Prod.snd)) =
      g (inOrder ((rows.filter fun y => y.1 = x.1).map Prod.snd))) :
    reduceInOrder f rows = reduceInOrder g rows := by
  unfold reduceInOrder reduce
  refine Multiset.bind_congr fun k hk => ?_
  obtain ⟨x, hx, rfl⟩ := Multiset.mem_map.mp (Multiset.mem_dedup.mp hk)
  dsimp only
  rw [h x hx]

/-- The rows of one key and block. -/
theorem filter_block [DecidableEq κ] [DecidableEq σ] (block : α → σ) (rows : Multiset (κ × α))
    (k : κ) (b : σ) :
    ((rows.map fun x => ((x.1, block x.2), x.2)).filter fun x => x.1 = (k, b)).map Prod.snd =
      ((rows.filter fun x => x.1 = k).map Prod.snd).filter (block · = b) := by
  rw [Multiset.filter_map, Multiset.filter_map, Multiset.map_map, Multiset.filter_filter]
  refine congrArg _ (Multiset.filter_congr fun x _ => ?_)
  simp [and_comm]

/-- The blocks of one key. -/
theorem filter_keys [DecidableEq κ] [DecidableEq σ] (block : α → σ) (rows : Multiset (κ × α))
    (k : κ) :
    (rows.map fun x => (x.1, block x.2)).dedup.filter (fun x => x.1 = k) =
      (((rows.filter fun x => x.1 = k).map Prod.snd).map block).dedup.map (k, ·) := by
  have hinj : Function.Injective (Prod.mk k : σ → κ × σ) := fun _ _ h => (Prod.mk.inj h).2
  rw [← Multiset.dedup_map_of_injective hinj, Multiset.map_map, Multiset.map_map]
  have hfilter : (rows.filter fun x => x.1 = k).map
      ((Prod.mk k ∘ block) ∘ Prod.snd) =
        (rows.map fun x => (x.1, block x.2)).filter fun x => x.1 = k := by
    rw [Multiset.filter_map]
    refine Multiset.map_congr rfl fun x hx => ?_
    obtain ⟨_, rfl⟩ := Multiset.mem_filter.mp hx
    rfl
  rw [hfilter]
  refine (Multiset.Nodup.ext ((Multiset.nodup_dedup _).filter _) (Multiset.nodup_dedup _)).mpr
    fun x => ?_
  rw [Multiset.mem_filter, Multiset.mem_dedup, Multiset.mem_dedup, Multiset.mem_filter]

/-- Rows reduced block by block, and then the blocks' results in block order, are
reduced in one go. -/
theorem reduceInOrder_blocks [DecidableEq κ] [LinearOrder α] [LinearOrder σ] [LinearOrder ρ]
    (block : α → σ) (part : List α → ρ) (whole : List (σ ×ₗ ρ) → List β)
    (rows : Multiset (κ × α)) :
    reduceInOrder whole ((reduceInOrder (fun l => if l.isEmpty then [] else [part l])
        (rows.map fun x => ((x.1, block x.2), x.2))).map fun x => (x.1.1, toLex (x.1.2, x.2))) =
      reduceInOrder (fun l => whole ((blocks block l).map fun b =>
        toLex (b, part (l.filter (block · = b))))) rows := by
  rw [reduceInOrder_singleton, Multiset.map_map, Multiset.map_map]
  have hkeys : ((rows.map fun x => (x.1, block x.2)).dedup.map Prod.fst).dedup =
      (rows.map Prod.fst).dedup := by
    rw [Multiset.dedup_map_dedup_eq, Multiset.map_map]
    rfl
  unfold reduceInOrder reduce
  rw [Multiset.map_map]
  refine Eq.trans (congrArg₂ Multiset.bind hkeys rfl) (Multiset.bind_congr fun k _ => ?_)
  dsimp only
  congr 4
  refine (eq_inOrder ?_ ?_).symm
  · have hblocks :
        ((blocks block (inOrder ((rows.filter fun a => a.1 = k).map Prod.snd)) : List σ) :
          Multiset σ) = (((rows.filter fun a => a.1 = k).map Prod.snd).map block).dedup := by
      rw [blocks, coe_inOrder, coe_inOrder]
    rw [← Multiset.map_coe, hblocks]
    conv_rhs => rw [Multiset.filter_map, Multiset.map_map]
    have hkey := filter_keys block rows k
    refine Eq.trans ?_ (congrArg (Multiset.map _) hkey.symm)
    conv_rhs => rw [Multiset.map_map]
    refine Multiset.map_congr rfl fun b _ => ?_
    simp only [Function.comp_apply]
    rw [filter_block, inOrder_filter]
  · refine List.pairwise_map.mpr ?_
    have hlt : (blocks block (inOrder ((rows.filter fun a => a.1 = k).map Prod.snd))).Pairwise
        (· < ·) := by
      refine ((pairwise_inOrder _).and (nodup_inOrder (Multiset.nodup_dedup _))).imp ?_
      rintro a b ⟨hle, hne⟩
      exact lt_of_le_of_ne hle hne
    exact hlt.imp fun h => Prod.Lex.toLex_le_toLex.mpr (.inl h)

end Improv.Lib.Bag

/-!
## Maps as collections

The entries of a finite map as a collection of rows with one row for each key,
and how setting and removing a key changes it.
-/

namespace Improv.Lib

variable {κ α : Type*}

/-- The entries of a map, as rows. -/
def rows (m : Finmap fun _ : κ => α) : Multiset (κ × α) := m.entries.map fun x => (x.1, x.2)

/-- A collection with one row for each key is the rows of a map. -/
theorem oneValued_rows (m : Finmap fun _ : κ => α) : Bag.OneValued (rows m) := by
  unfold Bag.OneValued rows
  rw [Multiset.map_map]
  exact Multiset.nodup_keys.mpr m.nodupKeys

@[simp] theorem rows_empty : rows (∅ : Finmap fun _ : κ => α) = 0 := rfl

/-- Two collections with one row for each key and the same rows are equal. -/
theorem eq_of_mem_iff {r s : Multiset (κ × α)} (hr : Bag.OneValued r) (hs : Bag.OneValued s)
    (h : ∀ k v, (k, v) ∈ r ↔ (k, v) ∈ s) : r = s :=
  (Multiset.Nodup.ext hr.nodup hs.nodup).mpr fun x => h x.1 x.2

variable [DecidableEq κ]

@[simp] theorem mem_rows {m : Finmap fun _ : κ => α} {k : κ} {v : α} :
    (k, v) ∈ rows m ↔ m.lookup k = some v := by
  induction m using Finmap.induction_on with
  | H a =>
      unfold rows
      rw [Finmap.lookup_toFinmap, AList.toFinmap_entries]
      simp only [Multiset.map_coe, Multiset.mem_coe, List.mem_map, Prod.mk.injEq]
      have hlookup := List.mem_dlookup_iff a.nodupKeys (a := k) (b := v)
      rw [Option.mem_def] at hlookup
      rw [AList.lookup, hlookup]
      constructor
      · intro h
        obtain ⟨x, hx, rfl, rfl⟩ := h
        exact hx
      · intro h
        exact ⟨⟨k, v⟩, h, rfl, rfl⟩

theorem rows_injective : Function.Injective (@rows κ α) := by
  intro m n h
  refine Finmap.ext_lookup fun k => Option.ext fun v => ?_
  rw [← mem_rows, ← mem_rows, h]

theorem rows_erase [DecidableEq α] {m : Finmap fun _ : κ => α} {k : κ} {v : α}
    (h : m.lookup k = some v) :
    rows (m.erase k) = (rows m).erase (k, v) := by
  have hnodup := (oneValued_rows m).nodup
  refine eq_of_mem_iff (oneValued_rows _) ((oneValued_rows m).mono (Multiset.erase_le _ _)) ?_
  intro k' v'
  rw [hnodup.mem_erase_iff, mem_rows, mem_rows]
  by_cases hk : k' = k
  · subst hk
    rw [Finmap.lookup_erase, h]
    simp only [reduceCtorEq, Option.some.injEq, ne_eq, Prod.mk.injEq, true_and, false_iff]
    exact fun hne => hne.1 hne.2.symm
  · rw [Finmap.lookup_erase_ne hk]
    simp [hk]

theorem rows_insert {m : Finmap fun _ : κ => α} {k : κ} (v : α) (h : m.lookup k = none) :
    rows (m.insert k v) = (k, v) ::ₘ rows m := by
  have hkey : k ∉ (rows m).map Prod.fst := by
    intro hmem
    obtain ⟨⟨k', v'⟩, hx, rfl⟩ := Multiset.mem_map.mp hmem
    rw [mem_rows, h] at hx
    cases hx
  have hone : Bag.OneValued ((k, v) ::ₘ rows m) := by
    unfold Bag.OneValued
    rw [Multiset.map_cons, Multiset.nodup_cons]
    exact ⟨hkey, oneValued_rows m⟩
  refine eq_of_mem_iff (oneValued_rows _) hone fun k' v' => ?_
  rw [Multiset.mem_cons, mem_rows, mem_rows]
  by_cases hk : k' = k
  · subst hk
    rw [Finmap.lookup_insert, h]
    simp [eq_comm]
  · rw [Finmap.lookup_insert_of_ne _ hk]
    simp [hk]

end Improv.Lib
