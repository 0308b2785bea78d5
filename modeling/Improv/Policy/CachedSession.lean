import Improv.Policy.Questions
/-!
# The session's caches are invisible

A session asks the engine only the policies that can apply, keeps each decision
for all resources of its class, and answers about a cell from the kept decisions
where it can.  Whatever it was asked before, it answers what the composite rule
gives where every question is asked afresh of all policies.
-/

namespace Improv.Policy.Cedar

open Improv.Lib Improv.CoreModel Improv.Service
open Improv.Lib.Cached (Yields)

/-! ## Sessions -/

/-- What follows a plus sign, if there is one. -/
def unsigned : List Char → List Char
  | '+' :: cs => cs
  | cs => cs

/-- A 32-bit number as the standard library reads it. -/
def parseU32 (s : String) : Option Nat :=
  let digits := unsigned s.toList
  if digits.isEmpty || !digits.all Decimal.isDigit then none
  else if Decimal.ofDigits digits ≤ u32Max then some (Decimal.ofDigits digits)
  else none

/-- The items some policy names. -/
def Policies.namedItems {C : Engine} (p : Policies C) : List ItemId :=
  (p.named.filter (·.1 = "Improv::Item")).filterMap fun q => (parseU32 q.2).map ItemId.mk

/-- What a session keeps between questions: per action the policies that can
apply, and decisions by class. -/
structure Kept (C : Engine) where
  sets : List (Action × List C.CedarPolicy)
  cache : List ((Action × Class) × Bool)

def Kept.empty (C : Engine) : Kept C := ⟨[], []⟩

/-- A question to a session. -/
abbrev Asking (C : Engine) := Cached String (Kept C)

/-- One principal's view of one model under one policy version. -/
structure CachedSession (C : Engine) where
  policies : Option (Policies C)
  principal : Entity
  base : Entities
  channel : Channel
  shape : Structure
  named : List ItemId

/-- One question a composite check asked, and its answer. -/
structure Check where
  action : Action
  resource : Resource
  decision : Decision
deriving DecidableEq

namespace CachedSession

variable {C : Engine}

def new (policies : Option (Policies C)) (model : Model) (principal : Principal)
    (channel : Channel) : CachedSession C :=
  let me := principalEntity principal
    ((policies.map fun p => p.groups.of principal.user).getD [])
  { policies
    principal := me
    base := baseEntities me
    channel
    shape := Structure.of model
    named := (policies.map Policies.namedItems).getD [] }

variable (s : CachedSession C)

/-- The session without its caches: each question is asked of all policies. -/
def afresh : Session where
  shape := s.shape
  answers := s.policies.map fun p a r =>
    granted (Cedar.ask C p.set s.base s.shape s.principal s.channel a r)

def ownClass (i : ItemId) : Option ItemId := if i ∈ s.named then some i else none

def classOf : Resource → Option Class
  | .model => some .model
  | .category c => some (.category c)
  | .item i => (s.shape.items.get? i).map fun c => .item c (s.ownClass i)
  | .measure m => some (.measure m)
  | .view v => some (.view v)
  | .cell m coord => some (.cell m (coord.values.filter (· ∈ s.named)))

/-- The policies that can apply to an action, kept from its first question. -/
def applicableTo (p : Policies C) (a : Action) : Asking C (List C.CedarPolicy) := do
  match (← get).sets.lookup a with
  | some set => return set
  | none =>
      let set := applicable C p.set s.principal a
      modify fun k => { k with sets := (a, set) :: k.sets }
      return set

/-- Ask of the policies that can apply, uncached. -/
def ask (p : Policies C) (a : Action) (r : Resource) : Asking C (Except String Decision) := do
  let set ← s.applicableTo p a
  return Cedar.ask C set s.base s.shape s.principal s.channel a r

/-- One raw question, cached.  False for a resource not in the model. -/
def decide (a : Action) (r : Resource) : Asking C Bool := do
  match s.policies with
  | none => return true
  | some p =>
      match s.classOf r with
      | none => return false
      | some c =>
          match (← get).cache.lookup (a, c) with
          | some d => return d
          | none =>
              let allow := granted (← s.ask p a r)
              modify fun k => { k with cache := ((a, c), allow) :: k.cache }
              return allow

/-- The classes the cell rule asks about. -/
def cellClasses (a : Action) (m : MeasureId) (items : List ItemId) : List (Action × Class) :=
  let named := items.filter (· ∈ s.named)
  (.viewModel, .model) :: (.readMeasure, .measure m) ::
    (items.map fun i => (.readItem,
      .item ((s.shape.items.get? i).getD ⟨0⟩) (s.ownClass i))) ++
    (.readCell, .cell m named) ::
    if a = .editCell then [(.editCell, .cell m named)] else []

/-- The cell rule from the cache alone: none where a step is not cached yet. -/
def cellCached (a : Action) (m : MeasureId) (coord : Coordinate) : Asking C (Option Bool) := do
  match s.shape.cellItems m coord with
  | .error _ => return none
  | .ok items => return Restricted.cachedAll (← get).cache (s.cellClasses a m items)

/-- The cached answer to a question about a cell. -/
def hit : Action → Resource → Asking C (Option Bool)
  | .readCell, .cell m coord => s.cellCached .readCell m coord
  | .editCell, .cell m coord => s.cellCached .editCell m coord
  | _, _ => return none

/-- Whether the principal may do an action on a resource, by the composite
rules. -/
def allowed (a : Action) (r : Resource) : Asking C Bool := do
  if s.policies.isNone then return s.shape.holds r
  if a = .editCell && !s.afresh.isInput r then return false
  match ← s.hit a r with
  | some d => return d
  | none =>
      match s.afresh.steps a r with
      | .ok steps => steps.allM fun p => s.decide p.1 p.2
      | .error _ => return false

/-- A read or an edit of a cell, from the cache where it can be. -/
def cell (a : Action) (m : MeasureId) (coord : Coordinate) : Asking C Bool := do
  if s.policies.isSome && (a ≠ .editCell || s.afresh.isInput (.cell m coord)) then
    match ← s.cellCached a m coord with
    | some d => return d
    | none => s.allowed a (.cell m coord)
  else s.allowed a (.cell m coord)

/-- Some questions, up to the first that is denied. -/
def explainSteps (p : Policies C) : List (Action × Resource) → Asking C (List Check)
  | [] => return []
  | (a, r) :: steps => do
      match ← s.ask p a r with
      | .error e => throw e
      | .ok d =>
          if d.allow then return ⟨a, r, d⟩ :: (← explainSteps p steps)
          else return [⟨a, r, d⟩]

/-- Every question `allowed` asks, uncached, with the policies that decided
each. -/
def explain (a : Action) (r : Resource) : Asking C (List Check) := do
  match s.policies with
  | none =>
      if s.shape.holds r then return [⟨a, r, ⟨true, [], []⟩⟩]
      else throw "the resource is not in the model"
  | some p =>
      match s.afresh.steps a r with
      | .error e => throw e
      | .ok steps =>
          if a = .editCell && !s.afresh.isInput r then
            return [⟨a, r, ⟨false, [], ["the measure is derived: its cells are computed"]⟩⟩]
          else s.explainSteps p steps

/-- Questions a session is asked. -/
inductive Question
  | allowed (a : Action) (r : Resource)
  | cell (a : Action) (m : MeasureId) (coord : Coordinate)
  | explain (a : Action) (r : Resource)

/-- What a session keeps after a question. -/
def after (k : Kept C) : Question → Kept C
  | .allowed a r => ((s.allowed a r).ask k).2
  | .cell a m coord => ((s.cell a m coord).ask k).2
  | .explain a r => ((s.explain a r).ask k).2

end CachedSession

/-! ## The composite rule -/

/-- What has to be allowed for an action on a resource, where `ok` says what all
policies allow: the model to be viewed, what the resource needs to be read, and
the action itself.  Nothing is of what is not in the model, and no edit of a
derived cell. -/
def composite (s : Structure) (ok : Action → Resource → Bool) (a : Action) (r : Resource) : Bool :=
  s.holds r && ok .viewModel .model && ok a r &&
    match a, r with
    | .readCell, .cell m coord => readable m coord
    | .editCell, .cell m coord =>
        (s.measures.get? m).any MeasureShape.input && readable m coord
    | .editCell, _ => false
    | .defineMeasure, .measure m => ok .readMeasure (.measure m)
    | .editStructure, .item i => ok .readItem (.item i)
    | .manageViews, .view v => (s.views.get? v).any fun m => ok .readMeasure (.measure m)
    | _, _ => true
where
  /-- The cell's measure, each of its items and the cell can be read. -/
  readable (m : MeasureId) (coord : Coordinate) : Bool :=
    ok .readMeasure (.measure m) &&
      (match s.cellItems m coord with
        | .ok items => items.all fun i => ok .readItem (.item i)
        | .error _ => false) &&
      ok .readCell (.cell m coord)

/-- The composite rule, every question asked afresh of all policies. -/
def Policies.permits {C : Engine} (p : Policies C) (model : Model) (principal : Principal)
    (channel : Channel) (a : Action) (r : Resource) : Bool :=
  composite (Structure.of model) (fun a r => granted (p.authorize model principal channel a r)) a r

/-- The explanation ends in an allowing decision. -/
def endsInAllow : Except String (List Check) → Bool
  | .ok checks => checks.getLast?.any fun c => c.decision.allow
  | .error _ => false

/-! ## The named items -/

theorem parseU32_repr {n : Nat} (hn : n ≤ u32Max) : parseU32 (toString n) = some n := by
  have hlist : (toString n).toList = Nat.toDigits 10 n := Nat.toList_repr
  have hdigits : ∀ c ∈ Nat.toDigits 10 n, Decimal.isDigit c = true :=
    fun c hc => Decimal.isDigit_of_mem_toDigits hc
  have hunsigned : unsigned (Nat.toDigits 10 n) = Nat.toDigits 10 n := by
    unfold unsigned
    split
    · rename_i cs hcs
      exact absurd (hdigits '+' (hcs ▸ List.mem_cons_self)) (by decide)
    · rfl
  unfold parseU32
  rw [hlist, hunsigned]
  simp only [List.all_eq_true.mpr hdigits, Decimal.ofDigits_toDigits, hn, if_true]
  simp [Nat.toDigits_ne_nil]

namespace Policies

variable {C : Engine} {groups : Groups} {set : List C.CedarPolicy} {p : Policies C}

/-- A document that passed the check. -/
theorem of_check (h : check groups set = .ok p) : p.groups = groups ∧ p.set = set ∧
    p.named = set.flatMap (fun x => (C.entityLiterals x).map fun u => (u.type, u.id)) ∧
    ∀ x ∈ set, ∀ u ∈ C.entityLiterals x, u.type ≠ "Improv::Cell" := by
  unfold check at h
  dsimp only at h
  split at h
  · rename_i hnil
    cases h
    refine ⟨rfl, rfl, rfl, fun x hx u hu hcell => ?_⟩
    rw [List.isEmpty_iff, List.append_eq_nil_iff, List.flatMap_eq_nil_iff] at hnil
    have hfilter := List.map_eq_nil_iff.mp (hnil.1 x hx)
    rw [List.filter_eq_nil_iff] at hfilter
    exact hfilter u hu (decide_eq_true hcell)
  · cases h

/-- An item a policy names is among the named ones. -/
theorem mem_namedItems (h : check groups set = .ok p) {x : C.CedarPolicy} (hx : x ∈ p.set)
    {i : ItemId} (hi : itemUid i ∈ C.entityLiterals x) (hid : i.id ≤ u32Max) :
    i ∈ p.namedItems := by
  obtain ⟨_, hset, hnamed, _⟩ := of_check h
  unfold namedItems
  rw [List.mem_filterMap]
  refine ⟨((itemUid i).type, (itemUid i).id), ?_, ?_⟩
  · rw [List.mem_filter, hnamed, List.mem_flatMap]
    exact ⟨⟨x, hset ▸ hx, List.mem_map.mpr ⟨_, hi, rfl⟩⟩, rfl⟩
  · rw [show (itemUid i).id = toString i.id from rfl, parseU32_repr hid]
    rfl

end Policies

/-! ## A session of a document -/

namespace CachedSession

variable {C : Engine} {gs : Groups} {set : List C.CedarPolicy} {p : Policies C} {model : Model}
  {who : Principal} {channel : Channel}

/-- What all policies of a document answer. -/
def fresh (p : Policies C) (model : Model) (who : Principal) (channel : Channel) (a : Action)
    (r : Resource) : Bool :=
  granted (p.authorize model who channel a r)

/-- The session's classes, with what all policies answer. -/
def rules (s : CachedSession C) (model : Model) : Restricted := ⟨s.afresh, s.named, model⟩

theorem answers_new (p : Policies C) (model : Model) (who : Principal) (channel : Channel) :
    ((new (some p) model who channel).rules model).session.answers =
      some (fresh p model who channel) := rfl

theorem slices_of_fresh {a : Action} {r : Resource} (h : fresh p model who channel a r = true) :
    (Structure.of model).slices r = true := by
  rw [← exists_slice_iff]
  unfold fresh Policies.authorize Cedar.ask at h
  cases hs : slice (Structure.of model) r with
  | error e =>
      rw [hs] at h
      cases h
  | ok q => exact ⟨q, rfl⟩

theorem fresh_of_not_slices {a : Action} {r : Resource}
    (h : ¬(Structure.of model).slices r = true) : fresh p model who channel a r = false :=
  Bool.eq_false_iff.mpr fun hf => h (slices_of_fresh hf)

theorem decide_afresh (a : Action) (r : Resource) :
    (new (some p) model who channel).afresh.decide a r = fresh p model who channel a r := by
  have hdecide := Restricted.decide_eq (answers_new p model who channel) a r
  refine hdecide.trans ?_
  cases hf : fresh p model who channel a r with
  | false => exact Bool.and_false _
  | true =>
      rw [Bool.and_true]
      exact slices_of_fresh hf

/-- An action that is neither a read nor an edit of cells does not apply to a
cell. -/
theorem fresh_cell {a : Action} (hread : a ≠ .readCell) (hedit : a ≠ .editCell) (m : MeasureId)
    (coord : Coordinate) : fresh p model who channel a (.cell m coord) = false := by
  unfold fresh Policies.authorize Cedar.ask
  cases hs : slice (Structure.of model) (.cell m coord) with
  | error e => rfl
  | ok q =>
      obtain ⟨items, _, hu, _⟩ := slice_cell hs
      have htype : q.1.type ∉ (appliesTo a).map ("Improv::" ++ ·) := by
        rw [hu, show (cellUid m items).type = "Improv::Cell" from rfl]
        cases a <;> first | exact absurd rfl hread | exact absurd rfl hedit | decide
      simp only [bind, Except.bind, htype, not_false_eq_true, if_true]
      rfl

section

variable (hids : ∀ i c, (Structure.of model).items.get? i = some c → i.id ≤ u32Max)
  (hp : Policies.check gs set = .ok p)

include hids hp

theorem itemUid_ne_literal {i : ItemId} {c : CategoryId}
    (hi : (Structure.of model).items.get? i = some c) (hin : i ∉ p.namedItems)
    {x : C.CedarPolicy} (hx : x ∈ p.set) {v : EntityUid} (hv : v ∈ C.entityLiterals x) :
    v ≠ itemUid i :=
  fun heq => hin (Policies.mem_namedItems hp hx (heq ▸ hv) (hids i c hi))

/-- What a policy names above the items of one cell is above those of another
with the same named items. -/
theorem above_of_literal {x : C.CedarPolicy} (hx : x ∈ p.set) {v : EntityUid}
    (hv : v ∈ C.entityLiterals x) {m : MeasureId} {coord coord' : Coordinate}
    {is js : List ItemId} (his : (Structure.of model).cellItems m coord = .ok is)
    (hjs : (Structure.of model).cellItems m coord' = .ok js)
    (hnamed : ∀ i ∈ p.namedItems, i ∈ is ↔ i ∈ js)
    (h : ∃ i ∈ is, ∃ c, (Structure.of model).items.get? i = some c ∧
      (v = itemUid i ∨ v = categoryUid c)) :
    ∃ j ∈ js, ∃ c, (Structure.of model).items.get? j = some c ∧
      (v = itemUid j ∨ v = categoryUid c) := by
  obtain ⟨shape, hshape, _, rfl, hall⟩ := Restricted.of_cellItems his
  obtain ⟨shape', hshape', _, rfl, hall'⟩ := Restricted.of_cellItems hjs
  cases hshape.symm.trans hshape'
  obtain ⟨i, hi, c, hc, rfl | rfl⟩ := h
  · by_cases hin : i ∈ p.namedItems
    · exact ⟨i, (hnamed i hin).mp hi, c, hc, .inl rfl⟩
    · exact absurd rfl (itemUid_ne_literal hids hp hc hin hx hv)
  · obtain ⟨d, hd, hid⟩ := List.mem_filterMap.mp hi
    obtain ⟨i', hi', hic⟩ := hall d hd
    cases hid.symm.trans hi'
    cases hc.symm.trans hic
    obtain ⟨j, hj, hjc⟩ := hall' c hd
    exact ⟨j, List.mem_filterMap.mpr ⟨c, hd, hj⟩, c, hjc, .inr rfl⟩

variable (hC : C.Lawful)

include hC

theorem fresh_item_congr {a : Action} {i j : ItemId} {c : CategoryId}
    (hi : (Structure.of model).items.get? i = some c)
    (hj : (Structure.of model).items.get? j = some c)
    (hin : i ∉ p.namedItems) (hjn : j ∉ p.namedItems) :
    fresh p model who channel a (.item i) = fresh p model who channel a (.item j) := by
  by_cases hcat : (Structure.of model).categories.contains c = true
  · have hsi : (Structure.of model).slices (.item i) = true := by
      simpa [Structure.slices, Structure.slicesItem, hi] using hcat
    have hsj : (Structure.of model).slices (.item j) = true := by
      simpa [Structure.slices, Structure.slicesItem, hj] using hcat
    obtain ⟨⟨u, es⟩, h⟩ := exists_slice_iff.mpr hsi
    obtain ⟨⟨u', es'⟩, h'⟩ := exists_slice_iff.mpr hsj
    obtain ⟨d, hd, rfl, rfl⟩ := slice_item h
    obtain ⟨d', hd', rfl, rfl⟩ := slice_item h'
    cases hi.symm.trans hd
    cases hj.symm.trans hd'
    refine granted_congr hC h h' rfl ?_ ?_ fun x hx v hv => ?_
    · exact attrsOf_of_mem (functional_store _ _ h) (e := itemOf i c) (by simp [store]) rfl
    · exact attrsOf_of_mem (functional_store _ _ h') (e := itemOf j c) (by simp [store]) rfl
    · have hvi := itemUid_ne_literal hids hp hi hin hx hv
      have hvj := itemUid_ne_literal hids hp hj hjn hx hv
      refine ⟨iff_of_false (Ne.symm hvi) (Ne.symm hvj), ?_⟩
      obtain ⟨n, hn⟩ := exists_length_store who (p.groups.of who.user)
        [itemOf i c, categoryOf c, modelEntity]
      obtain ⟨n', hn'⟩ := exists_length_store who (p.groups.of who.user)
        [itemOf j c, categoryOf c, modelEntity]
      unfold isIn
      rw [hn, hn', Bool.eq_iff_iff,
        isBelow_item (functional_store _ _ h) (c := c) (by simp [store]) (by simp [store])
          (by simp [store]),
        isBelow_item (functional_store _ _ h') (c := c) (by simp [store]) (by simp [store])
          (by simp [store])]
      simp [hvi, hvj]
  · rw [fresh_of_not_slices, fresh_of_not_slices]
    · simpa [Structure.slices, Structure.slicesItem, hj] using hcat
    · simpa [Structure.slices, Structure.slicesItem, hi] using hcat

theorem fresh_cell_congr {a : Action} {m : MeasureId} {x y : Coordinate} {is js : List ItemId}
    (hx : (Structure.of model).cellItems m x = .ok is)
    (hy : (Structure.of model).cellItems m y = .ok js)
    (hnamed : ∀ i ∈ p.namedItems, i ∈ is ↔ i ∈ js) :
    fresh p model who channel a (.cell m x) = fresh p model who channel a (.cell m y) := by
  obtain ⟨shape, hshape, _, his, hxs⟩ := Restricted.of_cellItems hx
  obtain ⟨shape', hshape', _, hjs, hys⟩ := Restricted.of_cellItems hy
  cases hshape.symm.trans hshape'
  have hslices := (Restricted.slices_cell hx hshape).trans (Restricted.slices_cell hy hshape).symm
  by_cases hs : (Structure.of model).slices (.cell m x) = true
  · obtain ⟨⟨u, es⟩, h⟩ := exists_slice_iff.mpr hs
    obtain ⟨⟨u', es'⟩, h'⟩ := exists_slice_iff.mpr (hslices ▸ hs)
    obtain ⟨is', his', rfl, hcell⟩ := slice_cell h
    obtain ⟨js', hjs', rfl, hcell'⟩ := slice_cell h'
    cases hx.symm.trans his'
    cases hy.symm.trans hjs'
    refine granted_congr hC h h' rfl ?_ ?_ fun z hz v hv => ?_
    · exact attrsOf_of_mem (functional_store _ _ h) (e := cellOf m is)
        (List.mem_append_right _ hcell.cell) rfl
    · exact attrsOf_of_mem (functional_store _ _ h') (e := cellOf m js)
        (List.mem_append_right _ hcell'.cell) rfl
    · obtain ⟨_, hset, _, hvalid⟩ := Policies.of_check hp
      have hne : ∀ items, cellUid m items ≠ v := by
        intro items heq
        exact hvalid z (hset ▸ hz) v hv (heq ▸ rfl)
      refine ⟨iff_of_false (hne is) (hne js), ?_⟩
      obtain ⟨n, hn⟩ := exists_length_store who (p.groups.of who.user) es
      obtain ⟨n', hn'⟩ := exists_length_store who (p.groups.of who.user) es'
      have hmoved := above_of_literal hids hp hz hv hx hy hnamed
      have hback := above_of_literal hids hp hz hv hy hx fun i hi => (hnamed i hi).symm
      unfold isIn
      rw [hn, hn', Bool.eq_iff_iff]
      unfold store
      rw [isBelow_cell (functional_store _ _ h) hcell,
        isBelow_cell (functional_store _ _ h') hcell']
      constructor
      · rintro (heq | hm | hm | habove)
        · exact absurd heq.symm (hne is)
        · exact .inr (.inl hm)
        · exact .inr (.inr (.inl hm))
        · exact .inr (.inr (.inr (hmoved habove)))
      · rintro (heq | hm | hm | habove)
        · exact absurd heq.symm (hne js)
        · exact .inr (.inl hm)
        · exact .inr (.inr (.inl hm))
        · exact .inr (.inr (.inr (hback habove)))
  · rw [fresh_of_not_slices hs, fresh_of_not_slices (hslices ▸ hs)]

theorem alike (who : Principal) (channel : Channel) :
    ((new (some p) model who channel).rules model).Alike (fresh p model who channel) where
  items _ _ _ _ hi hj hin hjn := fresh_item_congr hids hp hC hi hj hin hjn
  cells _ _ _ _ _ _ hx hy hnamed := fresh_cell_congr hids hp hC hx hy hnamed

end

/-! ## What a session keeps is right -/

abbrev session (p : Policies C) (model : Model) (who : Principal) (channel : Channel) :
    CachedSession C := new (some p) model who channel

/-- The policies kept are those that can apply, and a decision kept for a class
is that of all its resources. -/
structure Right (p : Policies C) (model : Model) (who : Principal) (channel : Channel)
    (k : Kept C) : Prop where
  sets : ∀ a set, k.sets.lookup a = some set →
    set = applicable C p.set (principalEntity who (p.groups.of who.user)) a
  decisions : ∀ a c d, k.cache.lookup (a, c) = some d →
    ∀ x, ((session p model who channel).rules model).InClass c x →
      (session p model who channel).afresh.decide a x = d
  others : ∀ a m named d, k.cache.lookup (a, .cell m named) = some d → a ≠ .readCell →
    a ≠ .editCell → d = false

theorem right_empty : Right p model who channel (Kept.empty C) where
  sets _ _ h := by cases h
  decisions _ _ _ h := by cases h
  others _ _ _ _ h := by cases h

theorem applicableTo_yields (a : Action) :
    Yields (Right p model who channel) ((session p model who channel).applicableTo p a)
      (.ok (applicable C p.set (principalEntity who (p.groups.of who.user)) a)) := by
  unfold applicableTo
  refine Yields.get_bind fun k hk => ?_
  cases hl : k.sets.lookup a with
  | some set =>
      rw [← hk.sets a set hl]
      exact Yields.pure set
  | none =>
      refine Yields.bind (Yields.modify fun k' hk' => ?_) (Yields.pure _)
      refine ⟨fun b set hset => ?_, hk'.decisions, hk'.others⟩
      rw [List.lookup_cons] at hset
      split at hset
      · rename_i heq
        rw [eq_of_beq heq]
        exact (Option.some.inj hset).symm
      · exact hk'.sets b set hset

/-- What is asked of the policies that can apply is what all policies answer. -/
theorem ask_yields (hC : C.Lawful) (a : Action) (r : Resource) :
    Yields (Right p model who channel) ((session p model who channel).ask p a r)
      (.ok (p.authorize model who channel a r)) := by
  unfold ask
  refine (applicableTo_yields a).bind ?_
  have happlicable := ask_applicable p.set (Structure.of model) who
    (p.groups.of who.user) channel a hC r
  unfold Policies.authorize
  rw [← happlicable]
  exact Yields.pure _

/-- A question whose answer may be kept under the resource's class. -/
def Keepable (p : Policies C) (model : Model) (who : Principal) (channel : Channel) (a : Action)
    (x : Resource) : Prop :=
  ∀ c, (session p model who channel).classOf x = some c →
    ((session p model who channel).rules model).InClass c x ∨
      ∃ m coord, x = .cell m coord ∧ a ≠ .readCell ∧ a ≠ .editCell

theorem classOf_rules (s : CachedSession C) (x : Resource) :
    (s.rules model).classOf x = s.classOf x := by
  cases x <;> rfl

theorem policies_session : (session p model who channel).policies = some p := rfl

section

variable (hC : C.Lawful)
  (halike : ((session p model who channel).rules model).Alike (fresh p model who channel))

include hC halike

theorem decide_yields {a : Action} {x : Resource} (hx : Keepable p model who channel a x) :
    Yields (Right p model who channel) ((session p model who channel).decide a x)
      (.ok ((session p model who channel).afresh.decide a x)) := by
  unfold CachedSession.decide
  rw [policies_session]
  dsimp only
  cases hc : (session p model who channel).classOf x with
  | none =>
      have hnone := Restricted.decide_of_classOf_none (a := a) (x := x)
        (answers_new p model who channel) hc
      rw [show (session p model who channel).afresh.decide a x = false from hnone]
      exact Yields.pure false
  | some c =>
      refine Yields.get_bind fun k hk => ?_
      cases hl : k.cache.lookup (a, c) with
      | some d =>
          have hd : (session p model who channel).afresh.decide a x = d := by
            rcases hx c hc with hin | ⟨m, coord, rfl, hread, hedit⟩
            · exact hk.decisions a c d hl x hin
            · rw [decide_afresh, fresh_cell hread hedit]
              cases hc
              exact (hk.others a m _ d hl hread hedit).symm
          rw [hd]
          exact Yields.pure d
      | none =>
          refine (ask_yields hC a x).bind ?_
          rw [decide_afresh]
          refine Yields.bind (Yields.modify fun k' hk' => ?_) (Yields.pure _)
          refine ⟨hk'.sets, fun b c' d hd y hy => ?_, fun b m named d hd hread hedit => ?_⟩
          · rw [List.lookup_cons] at hd
            split at hd
            · rename_i heq
              obtain ⟨rfl, rfl⟩ := Prod.mk.inj (eq_of_beq heq)
              rw [← Option.some.inj hd]
              rcases hx _ hc with hin | ⟨m, coord, rfl, hread, hedit⟩
              · have hcongr :=
                  Restricted.decide_congr (answers_new p model who channel) halike hy hin b
                exact hcongr.trans (decide_afresh b x)
              · cases hc
                cases y with
                | cell m' coord' =>
                    rw [decide_afresh, fresh_cell hread hedit]
                    exact (fresh_cell hread hedit m coord).symm
                | item i =>
                    obtain ⟨_, _, heq⟩ := Option.map_eq_some_iff.mp hy
                    cases heq
                | _ => cases hy
            · exact hk'.decisions b c' d hd y hy
          · rw [List.lookup_cons] at hd
            split at hd
            · rename_i heq
              obtain ⟨rfl, rfl⟩ := Prod.mk.inj (eq_of_beq heq)
              rw [← Option.some.inj hd]
              cases x with
              | cell m' coord => exact fresh_cell hread hedit m' coord
              | item i =>
                  obtain ⟨_, _, heq⟩ := Option.map_eq_some_iff.mp hc
                  cases heq
              | _ => cases hc
            · exact hk'.others b m named d hd hread hedit

theorem decides : ((session p model who channel).rules model).Decides
    (Right p model who channel) (session p model who channel).decide :=
  fun _ _ hx => decide_yields hC halike fun c hc => .inl (hx c hc)

end

section

variable (hcats : ∀ m x, (Structure.of model).measures.get? m = some x → x.categories.Nodup)

include hcats

/-- Where a measure lists no category twice, a coordinate that fits it names no
other category. -/
theorem ownKeys {m : MeasureId} {coord : Coordinate} {items : List ItemId}
    (h : (Structure.of model).cellItems m coord = .ok items) :
    ((session p model who channel).rules model).OwnKeys m coord := by
  intro x hx c hc
  obtain ⟨y, hy, hsize, _, hall⟩ := Restricted.of_cellItems h
  cases hx.symm.trans hy
  have hsub : x.categories ⊆ coord.keys := by
    intro d hd
    obtain ⟨i, hi, _⟩ := hall d hd
    exact SortedMap.mem_keys_of_get? hi
  have hlength : coord.keys.length ≤ x.categories.length := by
    rw [← hsize, SortedMap.length_keys]
  have hperm := (List.subperm_of_subset (hcats m x hx) hsub).perm_of_length_le hlength
  exact hperm.mem_iff.mpr hc

/-- The cell rule from the cache, or else from some other right source. -/
theorem cellCached_yields {m : MeasureId} {coord : Coordinate} {slow : Asking C Bool} {a : Action}
    (hslow : Yields (Right p model who channel) slow
      (.ok (((session p model who channel).rules model).cellAnswer a m coord))) :
    Yields (Right p model who channel)
      ((session p model who channel).cellCached a m coord >>= fun hit =>
        match hit with
        | some d => pure d
        | none => slow)
      (.ok (((session p model who channel).rules model).cellAnswer a m coord)) := by
  unfold CachedSession.cellCached
  cases hitems : (session p model who channel).shape.cellItems m coord with
  | error e => exact Yields.bind (Yields.pure none) hslow
  | ok items =>
      rw [bind_assoc]
      refine Yields.get_bind fun k hk => ?_
      rw [pure_bind]
      cases hd : Restricted.cachedAll k.cache
          ((session p model who channel).cellClasses a m items) with
      | none => exact hslow
      | some d =>
          have hitems' : ((session p model who channel).rules model).session.shape.cellItems m
              coord = .ok items := hitems
          have heq := Restricted.cachedAll_eq hk.decisions
            (Restricted.fits_cellClasses ⟨hitems', ownKeys hcats hitems⟩ a) hd
          unfold Restricted.cellAnswer
          rw [hitems', heq]
          exact Yields.pure _

end

/-! ## The answers -/

theorem allowed_cell {a : Action} (ha : a = .readCell ∨ a = .editCell) (m : MeasureId)
    (coord : Coordinate) :
    (session p model who channel).afresh.allowed a (.cell m coord) =
      if a = .editCell && !(session p model who channel).afresh.isInput (.cell m coord) then false
      else ((session p model who channel).rules model).cellAnswer a m coord :=
  Restricted.allowed_cell_eq (answers_new p model who channel) ha m coord

theorem mem_steps_cell {a : Action} (hread : a ≠ .readCell) (hedit : a ≠ .editCell)
    {m : MeasureId} {coord : Coordinate} {steps : List (Action × Resource)}
    (h : (session p model who channel).afresh.steps a (.cell m coord) = .ok steps) :
    steps = [(.viewModel, .model), (a, .cell m coord)] := by
  unfold Session.steps Session.needs at h
  cases a <;> first | exact absurd rfl hread | exact absurd rfl hedit | skip
  all_goals
    simp [bind, Except.bind, pure, Except.pure] at h
    exact h.symm

theorem hit_of_not_cell {a : Action} {x : Resource}
    (hx : ∀ m coord, x = .cell m coord → a ≠ .readCell ∧ a ≠ .editCell) :
    (session p model who channel).hit a x = pure none := by
  cases x with
  | cell m coord =>
      obtain ⟨hread, hedit⟩ := hx m coord rfl
      cases a <;> first | exact absurd rfl hread | exact absurd rfl hedit | rfl
  | _ => cases a <;> rfl

section

variable (hC : C.Lawful)
  (halike : ((session p model who channel).rules model).Alike (fresh p model who channel))

include hC halike

/-- What is asked about anything else than reading or editing a cell. -/
theorem steps_yields {a : Action} {x : Resource}
    (hx : ∀ m coord, x = .cell m coord → a ≠ .readCell ∧ a ≠ .editCell)
    {steps : List (Action × Resource)}
    (h : (session p model who channel).afresh.steps a x = .ok steps) :
    Yields (Right p model who channel)
      (steps.allM fun q => (session p model who channel).decide q.1 q.2)
      (.ok (steps.all fun q => (session p model who channel).afresh.decide q.1 q.2)) := by
  refine Yields.allM fun q hq => decide_yields hC halike fun c hc => ?_
  have hcase : (∀ m coord, q.2 ≠ .cell m coord) ∨
      ∃ m coord, q.2 = .cell m coord ∧ q.1 ≠ .readCell ∧ q.1 ≠ .editCell := by
    cases x with
    | cell m coord =>
        obtain ⟨hread, hedit⟩ := hx m coord rfl
        rw [mem_steps_cell hread hedit h] at hq
        simp only [List.mem_cons, List.not_mem_nil, or_false] at hq
        rcases hq with rfl | rfl
        · exact .inl fun _ _ heq => by cases heq
        · exact .inr ⟨m, coord, rfl, hread, hedit⟩
    | _ =>
        refine .inl (Restricted.ne_cell_of_steps (r := (session p model who channel).rules model)
          (fun _ _ heq => ?_) h q hq)
        cases heq
  rcases hcase with hne | hcell
  · exact .inl (Restricted.inClass_of_classOf hne ((classOf_rules _ _).trans hc))
  · exact .inr hcell

variable (hcats : ∀ m x, (Structure.of model).measures.get? m = some x → x.categories.Nodup)

include hcats

theorem steps_cell_yields {a : Action} (ha : a = .readCell ∨ a = .editCell) (m : MeasureId)
    (coord : Coordinate) :
    Yields (Right p model who channel)
      (match (session p model who channel).afresh.steps a (.cell m coord) with
      | .ok steps => steps.allM fun q => (session p model who channel).decide q.1 q.2
      | .error _ => pure false)
      (.ok (((session p model who channel).rules model).cellAnswer a m coord)) :=
  (decides hC halike).steps_cell_yields ha fun _ h => ownKeys hcats h

/-- Whatever was asked before, a session allows what it does asked afresh. -/
theorem allowed_yields (a : Action) (x : Resource) :
    Yields (Right p model who channel) ((session p model who channel).allowed a x)
      (.ok ((session p model who channel).afresh.allowed a x)) := by
  unfold CachedSession.allowed
  rw [policies_session]
  by_cases hcell : ∃ m coord, x = .cell m coord ∧ (a = .readCell ∨ a = .editCell)
  · obtain ⟨m, coord, rfl, ha⟩ := hcell
    rw [allowed_cell ha]
    by_cases hedit : (a = .editCell &&
        !(session p model who channel).afresh.isInput (.cell m coord)) = true
    · rw [if_pos hedit]
      simp only [Option.isNone_some, Bool.false_eq_true, if_false, hedit, if_true]
      exact Yields.pure false
    · rw [if_neg hedit]
      simp only [Option.isNone_some, Bool.false_eq_true, if_false, hedit]
      have hsteps := steps_cell_yields hC halike hcats ha m coord
      rcases ha with rfl | rfl
      · exact cellCached_yields hcats hsteps
      · exact cellCached_yields hcats hsteps
  · have hx : ∀ m coord, x = .cell m coord → a ≠ .readCell ∧ a ≠ .editCell := by
      intro m coord heq
      exact ⟨fun ha => hcell ⟨m, coord, heq, .inl ha⟩, fun ha => hcell ⟨m, coord, heq, .inr ha⟩⟩
    unfold Session.allowed
    rw [show (session p model who channel).afresh.answers =
      some (fresh p model who channel) from rfl]
    by_cases hedit : (a = .editCell && !(session p model who channel).afresh.isInput x) = true
    · simp only [Option.isNone_some, Bool.false_eq_true, if_false, hedit, if_true]
      exact Yields.pure false
    · simp only [Option.isNone_some, Bool.false_eq_true, if_false, hedit,
        hit_of_not_cell hx, pure_bind]
      cases hsteps : (session p model who channel).afresh.steps a x with
      | error e => exact Yields.pure false
      | ok steps => exact steps_yields hC halike hx hsteps

theorem cell_yields {a : Action} (ha : a = .readCell ∨ a = .editCell) (m : MeasureId)
    (coord : Coordinate) :
    Yields (Right p model who channel) ((session p model who channel).cell a m coord)
      (.ok ((session p model who channel).afresh.allowed a (.cell m coord))) := by
  have hslow := allowed_yields hC halike hcats a (.cell m coord)
  unfold CachedSession.cell
  rw [policies_session]
  by_cases hinput : (a ≠ .editCell ||
      (session p model who channel).afresh.isInput (.cell m coord)) = true
  · simp only [Option.isSome_some, Bool.true_and, hinput, if_true]
    have hcell : (session p model who channel).afresh.allowed a (.cell m coord) =
        ((session p model who channel).rules model).cellAnswer a m coord := by
      refine (allowed_cell ha m coord).trans (if_neg fun hderived => ?_)
      rw [Bool.and_eq_true, decide_eq_true_eq, Bool.not_eq_true'] at hderived
      simp [hderived] at hinput
    rw [hcell] at hslow ⊢
    exact cellCached_yields hcats hslow
  · simp only [Option.isSome_some, Bool.true_and, hinput, if_false, Bool.false_eq_true]
    exact hslow

/-- A question about a cell leaves right what is kept, whatever its action. -/
theorem right_cell (a : Action) (m : MeasureId) (coord : Coordinate) {k : Kept C}
    (hk : Right p model who channel k) :
    Right p model who channel (((session p model who channel).cell a m coord).ask k).2 := by
  have hallowed := (allowed_yields hC halike hcats a (.cell m coord) k hk).2
  unfold CachedSession.cell
  split
  · have hcached : ∃ hit, ((session p model who channel).cellCached a m coord).ask k =
        (.ok hit, k) := by
      unfold CachedSession.cellCached
      split
      · exact ⟨none, rfl⟩
      · exact ⟨_, rfl⟩
    obtain ⟨hit, hcached⟩ := hcached
    rw [Cached.ask_bind_of_ok (congrArg Prod.fst hcached), hcached]
    cases hit with
    | none => exact hallowed
    | some d => exact hk
  · exact hallowed

end

/-! ## The composite rule, asked afresh -/

theorem holds_of_slices {s : Structure} {x : Resource} (h : s.slices x = true) :
    s.holds x = true := by
  cases x with
  | item i =>
      obtain ⟨c, hc, _⟩ := (Option.any_eq_true _ _).mp h
      exact Option.isSome_iff_exists.mpr ⟨c, hc⟩
  | view v =>
      obtain ⟨m, hm, _⟩ := (Option.any_eq_true _ _).mp h
      exact Option.isSome_iff_exists.mpr ⟨m, hm⟩
  | cell m coord =>
      simp only [Structure.slices] at h
      simp only [Structure.holds]
      cases hitems : s.cellItems m coord with
      | error e =>
          rw [hitems] at h
          cases h
      | ok items => rfl
  | _ => exact h

/-- The questions of the composite rule, each asked once. -/
theorem exists_steps {s : Session} {a : Action} {x : Resource} {needs : List (Action × Resource)}
    (h : s.needs a x = .ok needs) : ∃ steps, s.steps a x = .ok steps ∧
      ∀ ok, steps.all ok = (ok (.viewModel, .model) && needs.all ok && ok (a, x)) := by
  unfold Session.steps
  rw [h]
  refine ⟨_, rfl, fun ok => ?_⟩
  split
  · rename_i hmem
    rw [← List.all_cons, Bool.eq_iff_iff, Bool.and_eq_true, iff_self_and, List.all_eq_true]
    exact fun hall => hall _ hmem
  · rw [List.all_append, List.all_cons, List.all_cons, List.all_nil, Bool.and_true]

/-- What cannot be asked about is not in the model. -/
theorem holds_of_needs_error {s : Session} {a : Action} {x : Resource} {e : String}
    (h : s.needs a x = .error e) : s.shape.holds x = false := by
  unfold Session.needs at h
  split at h
  case h_1 m coord =>
      simp only [Structure.holds]
      cases hitems : s.shape.cellItems m coord with
      | error e => rfl
      | ok items =>
          rw [hitems] at h
          cases h
  case h_2 m coord =>
      simp only [Structure.holds]
      cases hitems : s.shape.cellItems m coord with
      | error e => rfl
      | ok items =>
          rw [hitems] at h
          cases h
  case h_5 v =>
      cases hv : s.shape.views.get? v with
      | none => simp [Structure.holds, SortedMap.contains, hv]
      | some m =>
          rw [hv] at h
          cases h
  all_goals cases h

theorem allowed_afresh (p : Policies C) (model : Model) (who : Principal) (channel : Channel)
    (a : Action) (x : Resource) :
    (session p model who channel).afresh.allowed a x = p.permits model who channel a x := by
  have hanswers : (session p model who channel).afresh.answers =
    some (fresh p model who channel) := rfl
  have hshape : (session p model who channel).afresh.shape = Structure.of model := rfl
  have hdecide : (fun q : Action × Resource =>
      (session p model who channel).afresh.decide q.1 q.2) =
      fun q => fresh p model who channel q.1 q.2 := by
    funext q
    exact decide_afresh q.1 q.2
  have hfresh : (fun a x => granted (p.authorize model who channel a x)) =
    fresh p model who channel := rfl
  have hsteps : ∀ needs, (session p model who channel).afresh.needs a x = .ok needs →
      (session p model who channel).afresh.allowed a x =
        if a = .editCell && !(session p model who channel).afresh.isInput x then false
        else fresh p model who channel .viewModel .model &&
          (needs.all fun q => fresh p model who channel q.1 q.2) &&
          fresh p model who channel a x := by
    intro needs hneeds
    obtain ⟨steps, hsteps, hall⟩ := exists_steps hneeds
    unfold Session.allowed
    rw [hanswers, hsteps, hdecide]
    dsimp only
    rw [hall]
  unfold Policies.permits
  rw [hfresh]
  cases hneeds : (session p model who channel).afresh.needs a x with
  | error e =>
      have hnot : (Structure.of model).holds x = false := holds_of_needs_error hneeds
      have hrule : composite (Structure.of model) (fresh p model who channel) a x = false := by
        simp [composite, hnot]
      rw [hrule]
      unfold Session.allowed Session.steps
      rw [hanswers, hneeds]
      simp [bind, Except.bind]
  | ok needs =>
      rw [hsteps needs hneeds]
      cases hf : fresh p model who channel a x with
      | false => simp [composite, hf]
      | true =>
          have hholds := holds_of_slices (slices_of_fresh hf)
          unfold composite
          rw [hholds, hf]
          unfold Session.needs at hneeds
          rw [hshape] at hneeds
          cases a with
          | readCell =>
              cases x with
              | cell m coord =>
                  obtain ⟨items, hitems, hneeds⟩ := bind_eq_ok_iff.mp hneeds
                  cases hneeds
                  simp [composite.readable, hitems, hf, Function.comp_def]
              | _ => cases hneeds; simp
          | editCell =>
              cases x with
              | cell m coord =>
                  obtain ⟨items, hitems, hneeds⟩ := bind_eq_ok_iff.mp hneeds
                  cases hneeds
                  have hinput : (session p model who channel).afresh.isInput (.cell m coord) =
                    ((Structure.of model).measures.get? m).any MeasureShape.input := rfl
                  rw [hinput]
                  cases hin : ((Structure.of model).measures.get? m).any MeasureShape.input <;>
                    simp [composite.readable, hitems, hin, Function.comp_def, Bool.and_assoc]
              | _ => simp [Session.isInput]
          | manageViews =>
              cases x with
              | view v =>
                  dsimp only at hneeds
                  cases hv : (Structure.of model).views.get? v with
                  | none =>
                      rw [hv] at hneeds
                      cases hneeds
                  | some m =>
                      rw [hv] at hneeds
                      cases hneeds
                      simp [hv]
              | _ => cases hneeds; simp
          | _ => cases x <;> cases hneeds <;> simp

/-! ## Explanations -/

/-- Some questions asked afresh, up to the first that is denied. -/
def explained (ask : Action → Resource → Except String Decision) :
    List (Action × Resource) → Except String (List Check)
  | [] => .ok []
  | (a, r) :: steps =>
      match ask a r with
      | .error e => .error e
      | .ok d =>
          if d.allow then (explained ask steps).map (⟨a, r, d⟩ :: ·) else .ok [⟨a, r, d⟩]

theorem explained_ne_nil {ask : Action → Resource → Except String Decision}
    {q : Action × Resource} {steps : List (Action × Resource)} {checks : List Check}
    (h : explained ask (q :: steps) = .ok checks) : checks ≠ [] := by
  unfold explained at h
  split at h
  · cases h
  · split at h
    · cases hrest : explained ask steps with
      | error e =>
          rw [hrest] at h
          cases h
      | ok rest =>
          rw [hrest] at h
          cases h
          simp
    · cases h
      simp

/-- An explanation ends in an allowing decision when each question is granted. -/
theorem endsInAllow_explained {ask : Action → Resource → Except String Decision}
    {q : Action × Resource} {steps : List (Action × Resource)} :
    endsInAllow (explained ask (q :: steps)) =
      ((q :: steps).all fun q => granted (ask q.1 q.2)) := by
  induction steps generalizing q with
  | nil =>
      unfold explained
      cases hq : ask q.1 q.2 with
      | error e => simp [hq, endsInAllow, granted]
      | ok d => cases hd : d.allow <;> simp [hq, hd, endsInAllow, granted, explained, Except.map]
  | cons q' steps ih =>
      rw [List.all_cons, ← ih, explained]
      cases hq : ask q.1 q.2 with
      | error e => rfl
      | ok d =>
          cases hd : d.allow with
          | false => simp [hd, endsInAllow, granted]
          | true =>
              cases hrest : explained ask (q' :: steps) with
              | error e => simp [hd, endsInAllow, Except.map]
              | ok rest =>
                  obtain ⟨c, cs, rfl⟩ := List.exists_cons_of_ne_nil (explained_ne_nil hrest)
                  simp [hd, endsInAllow, granted, Except.map]

theorem explainSteps_yields (hC : C.Lawful) (steps : List (Action × Resource)) :
    Yields (Right p model who channel) ((session p model who channel).explainSteps p steps)
      (explained (p.authorize model who channel) steps) := by
  induction steps with
  | nil => exact Yields.pure []
  | cons q steps ih =>
      obtain ⟨a, r⟩ := q
      unfold explainSteps explained
      refine (ask_yields hC a r).bind ?_
      cases p.authorize model who channel a r with
      | error e => exact Yields.throw e
      | ok d =>
          cases hd : d.allow with
          | false =>
              simp only [hd, Bool.false_eq_true, if_false]
              exact Yields.pure _
          | true =>
              simp only [hd, if_true]
              cases hrest : explained (p.authorize model who channel) steps with
              | error e =>
                  rw [hrest] at ih
                  exact ih.bind_error
              | ok checks =>
                  rw [hrest] at ih
                  exact ih.bind (Yields.pure _)

theorem exists_cons_of_steps {s : Session} {a : Action} {x : Resource}
    {steps : List (Action × Resource)} (h : s.steps a x = .ok steps) :
    ∃ q rest, steps = q :: rest := by
  unfold Session.steps at h
  obtain ⟨needs, _, h⟩ := bind_eq_ok_iff.mp h
  rw [← Except.ok.inj h]
  split
  · exact ⟨_, _, rfl⟩
  · exact ⟨_, _, rfl⟩

/-- An explanation ends in an allowing decision where the rule allows. -/
theorem explain_yields (p : Policies C) (model : Model) (who : Principal) (channel : Channel)
    (hC : C.Lawful) (a : Action) (x : Resource) :
    ∃ r, Yields (Right p model who channel) ((session p model who channel).explain a x) r ∧
      endsInAllow r = p.permits model who channel a x := by
  have hpermits := allowed_afresh p model who channel a x
  unfold Session.allowed at hpermits
  unfold explain
  rw [policies_session, ← hpermits]
  dsimp only
  cases hsteps : (session p model who channel).afresh.steps a x with
  | error e => exact ⟨.error e, Yields.throw e, by simp [endsInAllow, afresh, new]⟩
  | ok steps =>
      dsimp only
      by_cases hedit : (a = .editCell && !(session p model who channel).afresh.isInput x) = true
      · rw [if_pos hedit, if_pos hedit]
        exact ⟨_, Yields.pure _, rfl⟩
      · rw [if_neg hedit, if_neg hedit]
        refine ⟨_, explainSteps_yields hC steps, ?_⟩
        obtain ⟨q, rest, rfl⟩ := exists_cons_of_steps hsteps
        rw [endsInAllow_explained]
        have hall : (fun q' : Action × Resource =>
              granted (p.authorize model who channel q'.1 q'.2)) =
            fun q' => (session p model who channel).afresh.decide q'.1 q'.2 :=
          funext fun q' => (decide_afresh q'.1 q'.2).symm
        rw [hall]
        rfl

section

variable (hC : C.Lawful)
  (hids : ∀ i c, (Structure.of model).items.get? i = some c → i.id ≤ u32Max)
  (hp : Policies.check gs set = .ok p)
  (hcats : ∀ m x, (Structure.of model).measures.get? m = some x → x.categories.Nodup)

include hC hids hp hcats

/-- A question leaves right what a session keeps. -/
theorem right_after (q : Question) {k : Kept C} (hk : Right p model who channel k) :
    Right p model who channel ((session p model who channel).after k q) := by
  have halike := alike hids hp hC who channel
  cases q with
  | allowed a x => exact (allowed_yields hC halike hcats a x k hk).2
  | cell a m coord => exact right_cell hC halike hcats a m coord hk
  | explain a x =>
      obtain ⟨r, hr, _⟩ := explain_yields p model who channel hC a x
      exact (hr k hk).2

theorem right_run (who : Principal) (channel : Channel) (qs : List Question) :
    Right p model who channel
      (qs.foldl (session p model who channel).after (Kept.empty C)) := by
  have hrun : ∀ k, Right p model who channel k →
      Right p model who channel (qs.foldl (session p model who channel).after k) := by
    induction qs with
    | nil => exact fun k hk => hk
    | cons q qs ih => exact fun k hk => ih _ (right_after hC hids hp hcats q hk)
  exact hrun _ right_empty

end

/-- A session's caches are invisible: whatever it was asked before, it answers
what the composite rule gives where every question is asked afresh of all
policies, and an explanation ends in an allowing decision where that rule
allows. -/
theorem caches_invisible (hC : C.Lawful) (hp : Policies.check gs set = .ok p)
    (hids : ∀ i c, (Structure.of model).items.get? i = some c → i.id ≤ u32Max)
    (hcats : ∀ m x, (Structure.of model).measures.get? m = some x → x.categories.Nodup)
    (who : Principal) (channel : Channel) (qs : List Question) :
    let s := new (some p) model who channel
    let k := qs.foldl s.after (Kept.empty C)
    (∀ a x, ((s.allowed a x).ask k).1 = .ok (p.permits model who channel a x)) ∧
    (∀ a m coord, a = .readCell ∨ a = .editCell →
      ((s.cell a m coord).ask k).1 = .ok (p.permits model who channel a (.cell m coord))) ∧
    ∀ a x, endsInAllow ((s.explain a x).ask k).1 = p.permits model who channel a x := by
  have halike := alike hids hp hC who channel
  have hright := right_run hC hids hp hcats who channel qs
  refine ⟨fun a x => ?_, fun a m coord ha => ?_, fun a x => ?_⟩
  · rw [← allowed_afresh]
    exact (allowed_yields hC halike hcats a x).of_ask hright
  · rw [← allowed_afresh]
    exact (cell_yields hC halike hcats ha m coord).of_ask hright
  · obtain ⟨r, hr, hends⟩ := explain_yields p model who channel hC a x
    rw [← hends]
    exact congrArg endsInAllow (hr.of_ask hright)

/-- Everyone may read, and the interns not item 7. -/
def readers : List ScopedPolicy :=
  [⟨"policy0", true, .any, .in_ [uid "Action" "Read"], .any⟩,
    ⟨"policy1", false, .in_ (uid "Group" "interns"), .any, .in_ (uid "Item" "7")⟩]

/-- Prices of two products. -/
def prices : Model := { Model.new with
  categories := .ofList [(⟨1⟩, ⟨⟨1⟩, "Product", [⟨7⟩, ⟨8⟩]⟩)]
  items := .ofList [(⟨7⟩, ⟨⟨7⟩, ⟨1⟩, "Falcon"⟩), (⟨8⟩, ⟨⟨8⟩, ⟨1⟩, "Kite"⟩)]
  measures := .ofList [(⟨101⟩, ⟨⟨101⟩, "Price", .number, [⟨1⟩], .input, none, none⟩)] }

def interns : Groups := .ofList [("interns", ⟨["ada"], []⟩)]

def readersDocument : Policies scopes where
  groups := interns
  set := readers
  named := [("Improv::Action", "Read"), ("Improv::Group", "interns"), ("Improv::Item", "7")]

theorem readers_checked : Policies.check (C := scopes) interns readers = .ok readersDocument :=
  rfl

theorem interns_of_ada : interns.of "ada" = ["interns"] := by
  have hmore : interns.more "interns" ["interns"] = [] := by decide +kernel
  have hclose : interns.close ["interns"] ["interns"] = ["interns"] := by
    rw [Groups.close, if_pos hmore, Groups.close]
  exact hclose

theorem caches_invisible_readers :
    let s := new (some readersDocument) prices ⟨"ada", []⟩ .server
    let at_ := fun i => Coordinate.fromPairs [((⟨1⟩ : CategoryId), (⟨i⟩ : ItemId))]
    let k := [Question.cell .readCell ⟨101⟩ (at_ 7), .allowed .readItem (.item ⟨8⟩)].foldl s.after
      (Kept.empty scopes)
    ((s.cell .readCell ⟨101⟩ (at_ 8)).ask k).1 = .ok true ∧
      ((s.cell .readCell ⟨101⟩ (at_ 7)).ask k).1 = .ok false := by
  intro s at_ k
  have hids : ∀ i c, (Structure.of prices).items.get? i = some c → i.id ≤ u32Max := by
    intro i c hc
    have hall : ∀ p ∈ (Structure.of prices).items.entries, p.1.id ≤ u32Max := by decide +kernel
    exact hall (i, c) (SortedMap.get?_eq_some_iff.mp hc)
  have hcats : ∀ m x, (Structure.of prices).measures.get? m = some x → x.categories.Nodup := by
    intro m x hx
    have hall : ∀ p ∈ (Structure.of prices).measures.entries, p.2.categories.Nodup := by
      decide +kernel
    exact hall (m, x) (SortedMap.get?_eq_some_iff.mp hx)
  obtain ⟨_, hcell, _⟩ := caches_invisible scopes_lawful readers_checked hids hcats ⟨"ada", []⟩
    .server
    [.cell .readCell ⟨101⟩ (at_ 7), .allowed .readItem (.item ⟨8⟩)]
  have hgroups : readersDocument.groups.of "ada" = ["interns"] := interns_of_ada
  refine ⟨(hcell _ _ _ (.inl rfl)).trans ?_, (hcell _ _ _ (.inl rfl)).trans ?_⟩
  · unfold Policies.permits Policies.authorize
    rw [hgroups]
    exact congrArg Except.ok (by decide +kernel)
  · unfold Policies.permits Policies.authorize
    rw [hgroups]
    exact congrArg Except.ok (by decide +kernel)

end CachedSession

end Improv.Policy.Cedar
