import Improv.Lib.Decimal
import Improv.Lib.ExceptLemmas
import Improv.Lib.ListLemmas
import Improv.Policy.Session
import Mathlib.Logic.Relation
/-!
# Questions to the policy engine

A model's policies are text for Cedar, which this development takes as a
parameter: its policies, its store of entities and its authorizer, with what its
documentation says of them as laws.  What is built here is what is asked: the
entities of a principal and of a resource, the request, and of all policies
those that can apply to it.
-/

namespace Improv.Policy.Cedar

open Improv.Lib Improv.CoreModel Improv.Service Relation

/-! ## Entities -/

structure EntityUid where
  type : String
  id : String
deriving DecidableEq

/-- An entity of one of the schema's types. -/
def uid (ty id : String) : EntityUid := ⟨"Improv::" ++ ty, id⟩

inductive Attribute
  | string (s : String)
  | entity (u : EntityUid)
deriving DecidableEq

structure Entity where
  uid : EntityUid
  parents : List EntityUid
  attrs : List (String × Attribute)
deriving DecidableEq

abbrev Entities := List Entity

/-- `u` is `v` or below it, by at most so many parents. -/
def isBelow (es : Entities) : Nat → EntityUid → EntityUid → Bool
  | 0, u, v => u == v
  | n + 1, u, v =>
      u == v || es.any fun e => e.uid == u && e.parents.any fun p => isBelow es n p v

/-- `u` equals `v` or is in it. -/
def isIn (es : Entities) (u v : EntityUid) : Bool := isBelow es es.length u v

def attrsOf (es : Entities) (u : EntityUid) : List (String × Attribute) :=
  (es.filter (·.uid = u)).flatMap Entity.attrs

/-! ## The engine -/

structure Request where
  principal : EntityUid
  action : EntityUid
  resource : EntityUid
  context : List (String × String)
deriving DecidableEq

/-- Whether the policies allow, those that decided it, and evaluation errors. -/
structure Response where
  allow : Bool
  reason : List String
  errors : List String
deriving DecidableEq

def Response.allows (r : Response) : Bool := r.allow && r.errors.isEmpty

inductive PrincipalConstraint
  | any
  | is (ty : String)
  | eq (u : EntityUid)
  | in_ (u : EntityUid)
  | isIn (ty : String) (u : EntityUid)
deriving DecidableEq

def PrincipalConstraint.takes (es : Entities) (u : EntityUid) : PrincipalConstraint → Bool
  | .any => true
  | .is ty => u.type = ty
  | .eq v => u = v
  | .in_ v => Cedar.isIn es u v
  | .isIn ty v => u.type = ty && Cedar.isIn es u v

inductive ActionConstraint
  | any
  | eq (a : EntityUid)
  | in_ (as : List EntityUid)
deriving DecidableEq

def ActionConstraint.takes (es : Entities) (u : EntityUid) : ActionConstraint → Bool
  | .any => true
  | .eq a => u = a
  | .in_ as => as.any fun a => isIn es u a

/-- What is used of Cedar. -/
structure Engine where
  CedarPolicy : Type
  id : CedarPolicy → String
  principalConstraint : CedarPolicy → PrincipalConstraint
  actionConstraint : CedarPolicy → ActionConstraint
  /-- The entities a policy names. -/
  entityLiterals : CedarPolicy → List EntityUid
  /-- What strict validation against the schema finds wrong. -/
  validate : List CedarPolicy → List String
  /-- Why an action does not apply to a type of resource. -/
  mismatch : Request → String
  addEntities : Entities → List Entity → Except String Entities
  isAuthorized : Request → List CedarPolicy → Entities → Response

namespace Engine

variable (C : Engine)

/-- The principal's and the action's part of a policy's scope. -/
def InScope (q : Request) (es : Entities) (p : C.CedarPolicy) : Prop :=
  (C.principalConstraint p).takes es q.principal = true ∧
    (C.actionConstraint p).takes es q.action = true

/-- What the engine's documentation says of it, and that a decision depends on
the principal with its groups and roles, the action, the context, and of the
resource its type, its attributes and which of the entities the policies name it
equals or is in. -/
structure Lawful : Prop where
  addEntities : ∀ es more, (∀ e ∈ es ++ more, ∀ e' ∈ es ++ more, e.uid = e'.uid → e = e') →
    C.addEntities es more = .ok (es ++ more)
  scope : ∀ q es set keep, (∀ p ∈ set, C.InScope q es p → keep p = true) →
    C.isAuthorized q (set.filter keep) es = C.isAuthorized q set es
  depends : ∀ set q q' es es', q.principal = q'.principal → q.action = q'.action →
    q.context = q'.context → (∀ u, isIn es q.principal u = isIn es' q'.principal u) →
    (∀ u, isIn es q.action u = isIn es' q'.action u) →
    q.resource.type = q'.resource.type → attrsOf es q.resource = attrsOf es' q'.resource →
    (∀ name u, (name, .entity u) ∈ attrsOf es q.resource → attrsOf es u = attrsOf es' u) →
    (∀ p ∈ set, ∀ u ∈ C.entityLiterals p, (q.resource = u ↔ q'.resource = u) ∧
      isIn es q.resource u = isIn es' q'.resource u) →
    (C.isAuthorized q set es).allows = (C.isAuthorized q' set es').allows

end Engine

/-! ## Policies without conditions -/

inductive ResourceConstraint
  | any
  | eq (u : EntityUid)
  | in_ (u : EntityUid)
deriving DecidableEq

def ResourceConstraint.takes (es : Entities) (u : EntityUid) : ResourceConstraint → Bool
  | .any => true
  | .eq v => u = v
  | .in_ v => isIn es u v

/-- A policy that is all scope. -/
structure ScopedPolicy where
  id : String
  permit : Bool
  principal : PrincipalConstraint
  action : ActionConstraint
  resource : ResourceConstraint
deriving DecidableEq

namespace ScopedPolicy

def literals (p : ScopedPolicy) : List EntityUid :=
  (match p.principal with
    | .eq u | .in_ u | .isIn _ u => [u]
    | _ => []) ++
  (match p.action with
    | .any => []
    | .eq a => [a]
    | .in_ as => as) ++
  match p.resource with
    | .any => []
    | .eq u | .in_ u => [u]

/-- The scope takes the request. -/
def applies (p : ScopedPolicy) (q : Request) (es : Entities) : Bool :=
  p.principal.takes es q.principal && p.action.takes es q.action && p.resource.takes es q.resource

end ScopedPolicy

/-- A forbid wins, and what nothing permits is denied. -/
def authorizeScoped (q : Request) (set : List ScopedPolicy) (es : Entities) : Response :=
  let forbids := set.filter fun p => p.applies q es && !p.permit
  let permits := set.filter fun p => p.applies q es && p.permit
  if forbids.isEmpty then ⟨!permits.isEmpty, permits.map ScopedPolicy.id, []⟩
  else ⟨false, forbids.map ScopedPolicy.id, []⟩

theorem authorizeScoped_filter {q : Request} {es : Entities} {set : List ScopedPolicy}
    {keep : ScopedPolicy → Bool} (h : ∀ p ∈ set, p.applies q es = true → keep p = true) :
    authorizeScoped q (set.filter keep) es = authorizeScoped q set es := by
  have hkept : ∀ f : ScopedPolicy → Bool,
      ((set.filter keep).filter fun p => p.applies q es && f p) =
        set.filter fun p => p.applies q es && f p := by
    intro f
    rw [List.filter_filter]
    refine List.filter_congr fun p hp => ?_
    cases ha : p.applies q es with
    | false => rfl
    | true => rw [h p hp ha, Bool.and_true]
  unfold authorizeScoped
  rw [hkept, hkept]

theorem authorizeScoped_congr {q q' : Request} {es es' : Entities} {set : List ScopedPolicy}
    (h : ∀ p ∈ set, p.applies q es = p.applies q' es') :
    authorizeScoped q set es = authorizeScoped q' set es' := by
  have happlies : ∀ f : ScopedPolicy → Bool, (set.filter fun p => p.applies q es && f p) =
      set.filter fun p => p.applies q' es' && f p :=
    fun f => List.filter_congr fun p hp => by rw [h p hp]
  unfold authorizeScoped
  rw [happlies, happlies]

/-- The engine on policies without conditions. -/
def scopes : Engine where
  CedarPolicy := ScopedPolicy
  id := ScopedPolicy.id
  principalConstraint := ScopedPolicy.principal
  actionConstraint := ScopedPolicy.action
  entityLiterals := ScopedPolicy.literals
  validate _ := []
  mismatch q := q.resource.type
  addEntities es more :=
    if ∀ e ∈ es ++ more, ∀ e' ∈ es ++ more, e.uid = e'.uid → e = e' then .ok (es ++ more)
    else .error "duplicate entity"
  isAuthorized := authorizeScoped

/-- Which requests a scope takes depends on where the principal and the action
are, and on which named entities the resource equals or is in. -/
theorem applies_congr {p : ScopedPolicy} {q q' : Request} {es es' : Entities}
    (hp : q.principal = q'.principal) (ha : q.action = q'.action)
    (hprincipal : ∀ u, isIn es q.principal u = isIn es' q'.principal u)
    (haction : ∀ u, isIn es q.action u = isIn es' q'.action u)
    (hlit : ∀ u ∈ p.literals, (q.resource = u ↔ q'.resource = u) ∧
      isIn es q.resource u = isIn es' q'.resource u) :
    p.applies q es = p.applies q' es' := by
  have hprincipal' : p.principal.takes es q.principal = p.principal.takes es' q'.principal := by
    cases p.principal <;> simp [PrincipalConstraint.takes, hprincipal] <;> simp [hp]
  have haction' : p.action.takes es q.action = p.action.takes es' q'.action := by
    rw [ha] at haction
    cases p.action <;> simp [ActionConstraint.takes, haction, ha]
  have hresource : p.resource.takes es q.resource = p.resource.takes es' q'.resource := by
    cases hr : p.resource with
    | any => rfl
    | eq u => simp [ResourceConstraint.takes, (hlit u (by simp [ScopedPolicy.literals, hr])).1]
    | in_ u => exact (hlit u (by simp [ScopedPolicy.literals, hr])).2
  unfold ScopedPolicy.applies
  rw [hprincipal', haction', hresource]

theorem inScope_of_applies {q : Request} {es : Entities} {p : ScopedPolicy}
    (h : p.applies q es = true) : scopes.InScope q es p := by
  unfold ScopedPolicy.applies at h
  rw [Bool.and_eq_true, Bool.and_eq_true] at h
  exact h.1

theorem scopes_lawful : scopes.Lawful where
  addEntities _ _ h := if_pos h
  scope _ _ _ _ h :=
    authorizeScoped_filter fun p hp happlies => h p hp (inScope_of_applies happlies)
  depends _ _ _ _ _ hp ha _ hprincipal haction _ _ _ hlit :=
    congrArg Response.allows (authorizeScoped_congr fun p hp' =>
      applies_congr hp ha hprincipal haction (hlit p hp'))

/-! ## The schema -/

/-- The groups the schema puts an action in. -/
def memberOf : Action → List String
  | .viewModel | .readMeasure | .readItem | .readCell => ["Read"]
  | .editCell => ["Write"]
  | .defineMeasure | .editStructure | .manageViews => ["Build"]
  | .admin => []

/-- The types of resource an action applies to. -/
def appliesTo : Action → List String
  | .viewModel => ["Model"]
  | .readMeasure => ["Measure"]
  | .readItem => ["Item"]
  | .readCell => ["Cell"]
  | .editCell => ["Cell"]
  | .defineMeasure => ["Model", "Measure"]
  | .editStructure => ["Model", "Category", "Item"]
  | .manageViews => ["Model", "View"]
  | .admin => ["Model"]

def Action.all : List Action :=
  [.viewModel, .readMeasure, .readItem, .readCell, .editCell, .defineMeasure, .editStructure,
    .manageViews, .admin]

def Action.name : Action → String
  | .viewModel => "ViewModel"
  | .readMeasure => "ReadMeasure"
  | .readItem => "ReadItem"
  | .readCell => "ReadCell"
  | .editCell => "EditCell"
  | .defineMeasure => "DefineMeasure"
  | .editStructure => "EditStructure"
  | .manageViews => "ManageViews"
  | .admin => "Admin"

def actionUid (a : Action) : EntityUid := uid "Action" (Action.name a)

/-- The schema's action entities. -/
def actionEntities : List Entity :=
  (["Read", "Write", "Build"].map fun g => ⟨uid "Action" g, [], []⟩) ++
    Action.all.map fun a => ⟨actionUid a, (memberOf a).map (uid "Action"), []⟩

/-! ## The document -/

structure Members where
  users : List String
  groups : List String
deriving DecidableEq

/-- Each group's member users and member groups. -/
abbrev Groups := SortedMap String Members

namespace Groups

variable (gs : Groups)

/-- The groups a group is a member of, those found aside. -/
def more (g : String) (found : List String) : List String :=
  (gs.entries.filter fun p => g ∈ p.2.groups ∧ p.1 ∉ found).map (·.1)

/-- The groups not found yet. -/
def unfound (found : List String) : List String := gs.keys.filter (· ∉ found)

theorem length_unfound_lt {g : String} {found : List String} (h : gs.more g found ≠ []) :
    (gs.unfound (found ++ gs.more g found)).length < (gs.unfound found).length := by
  obtain ⟨x, hx⟩ := List.exists_mem_of_ne_nil _ h
  have hfresh : x ∈ gs.unfound found := by
    simp only [more, unfound, List.mem_map, List.mem_filter, decide_eq_true_eq,
      SortedMap.keys] at hx ⊢
    obtain ⟨p, ⟨hp, _, hnew⟩, rfl⟩ := hx
    exact ⟨⟨p, hp, rfl⟩, hnew⟩
  have hsub : gs.unfound (found ++ gs.more g found) =
      (gs.unfound found).filter (· ∉ gs.more g found) := by
    unfold unfound
    rw [List.filter_filter]
    apply List.filter_congr
    intro y _
    simp [Bool.and_comm]
  rw [hsub]
  exact List.length_filter_lt_length_iff_exists.mpr ⟨x, hfresh, by simp [hx]⟩

/-- The groups found from those still to follow up, the last found first. -/
def close (todo found : List String) : List String :=
  match todo with
  | [] => found
  | g :: todo =>
      if gs.more g found = [] then close todo found
      else close ((gs.more g found).reverse ++ todo) (found ++ gs.more g found)
termination_by ((gs.unfound found).length, todo.length)
decreasing_by
  · exact Prod.Lex.right _ (by simp)
  · exact Prod.Lex.left _ _ (gs.length_unfound_lt (by assumption))

/-- Every group a user is in, directly or through nested groups. -/
def of (user : String) : List String :=
  let found := (gs.entries.filter fun p => user ∈ p.2.users).map (·.1)
  gs.close found.reverse found

/-- A group lists the user. -/
def Lists (user g : String) : Prop := ∃ m, gs.get? g = some m ∧ user ∈ m.users

/-- A group is a member of another. -/
def Inside (g h : String) : Prop := ∃ m, gs.get? h = some m ∧ g ∈ m.groups

variable {gs}

theorem mem_more_iff {g h : String} {found : List String} :
    h ∈ gs.more g found ↔ gs.Inside g h ∧ h ∉ found := by
  simp only [more, List.mem_map, List.mem_filter, decide_eq_true_eq, Inside]
  constructor
  · rintro ⟨p, ⟨hp, hg, hnew⟩, rfl⟩
    exact ⟨⟨p.2, SortedMap.get?_eq_some_iff.mpr hp, hg⟩, hnew⟩
  · rintro ⟨⟨m, hm, hg⟩, hnew⟩
    exact ⟨(h, m), ⟨SortedMap.get?_eq_some_iff.mp hm, hg, hnew⟩, rfl⟩

/-- The groups found so far: those still to follow up are among them, and what
the others are inside of too. -/
structure Following (gs : Groups) (todo found : List String) : Prop where
  pending : ∀ g ∈ todo, g ∈ found
  followed : ∀ g ∈ found, g ∉ todo → ∀ h, Inside gs g h → h ∈ found

/-- Found, or to be found from a group still to follow up. -/
def Reached (gs : Groups) (todo found : List String) (g : String) : Prop :=
  g ∈ found ∨ ∃ t ∈ todo, ReflTransGen (Inside gs) t g

theorem Following.reached_of_path {todo found : List String} (h : Following gs todo found)
    {g g' : String} (hg : Reached gs todo found g) (hpath : ReflTransGen (Inside gs) g g') :
    Reached gs todo found g' := by
  induction hpath with
  | refl => exact hg
  | @tail x y _ hinside ih =>
      rcases ih with hx | ⟨t, ht, hpath⟩
      · by_cases hpending : x ∈ todo
        · exact .inr ⟨x, hpending, .single hinside⟩
        · exact .inl (h.followed x hx hpending y hinside)
      · exact .inr ⟨t, ht, hpath.tail hinside⟩

theorem mem_close_iff {todo found : List String} (h : Following gs todo found) (g : String) :
    g ∈ gs.close todo found ↔ Reached gs todo found g := by
  fun_induction close gs todo found with
  | case1 found => simp [Reached]
  | case2 found t todo hmore ih =>
      have hfollowing : Following gs todo found := by
        refine ⟨fun x hx => h.pending x (List.mem_cons_of_mem t hx), fun x hx hnot y hy => ?_⟩
        by_cases hxt : x = t
        · by_contra hnew
          exact List.not_mem_nil (hmore ▸ mem_more_iff.mpr ⟨hxt ▸ hy, hnew⟩)
        · exact h.followed x hx (by simp [hxt, hnot]) y hy
      rw [ih hfollowing]
      constructor
      · rintro (hg | ⟨x, hx, hpath⟩)
        · exact .inl hg
        · exact .inr ⟨x, List.mem_cons_of_mem t hx, hpath⟩
      · rintro (hg | ⟨x, hx, hpath⟩)
        · exact .inl hg
        · exact hfollowing.reached_of_path (.inl (h.pending x hx)) hpath
  | case3 found t todo hmore ih =>
      have hfollowing : Following gs ((gs.more t found).reverse ++ todo)
          (found ++ gs.more t found) := by
        refine ⟨fun x hx => ?_, fun x hx hnot y hy => ?_⟩
        · rw [List.mem_append, List.mem_reverse] at hx
          rcases hx with hx | hx
          · exact List.mem_append_right _ hx
          · exact List.mem_append_left _ (h.pending x (List.mem_cons_of_mem t hx))
        · rw [List.mem_append, List.mem_reverse, not_or] at hnot
          have hx : x ∈ found := (List.mem_append.mp hx).resolve_right hnot.1
          by_cases hxt : x = t
          · by_cases hold : y ∈ found
            · exact List.mem_append_left _ hold
            · exact List.mem_append_right _ (mem_more_iff.mpr ⟨hxt ▸ hy, hold⟩)
          · exact List.mem_append_left _ (h.followed x hx (by simp [hxt, hnot.2]) y hy)
      rw [ih hfollowing]
      constructor
      · rintro (hg | ⟨x, hx, hpath⟩)
        · rcases List.mem_append.mp hg with hg | hg
          · exact .inl hg
          · exact .inr ⟨t, List.mem_cons_self, .single (mem_more_iff.mp hg).1⟩
        · rw [List.mem_append, List.mem_reverse] at hx
          rcases hx with hx | hx
          · exact .inr ⟨t, List.mem_cons_self, .head (mem_more_iff.mp hx).1 hpath⟩
          · exact .inr ⟨x, List.mem_cons_of_mem t hx, hpath⟩
      · rintro (hg | ⟨x, hx, hpath⟩)
        · exact .inl (List.mem_append_left _ hg)
        · exact hfollowing.reached_of_path
            (.inl (List.mem_append_left _ (h.pending x hx))) hpath

/-- A user's groups are those that list it and those around them, at any depth
and also where groups contain each other. -/
theorem mem_groups_iff (gs : Groups) (user g : String) :
    g ∈ gs.of user ↔ ∃ h, Lists gs user h ∧ ReflTransGen (Inside gs) h g := by
  have hdirect : ∀ x, x ∈ (gs.entries.filter fun p => user ∈ p.2.users).map (·.1) ↔
      Lists gs user x := by
    intro x
    simp only [List.mem_map, List.mem_filter, decide_eq_true_eq, Lists]
    constructor
    · rintro ⟨p, ⟨hp, hu⟩, rfl⟩
      exact ⟨p.2, SortedMap.get?_eq_some_iff.mpr hp, hu⟩
    · rintro ⟨m, hm, hu⟩
      exact ⟨(x, m), ⟨SortedMap.get?_eq_some_iff.mp hm, hu⟩, rfl⟩
  unfold of
  rw [mem_close_iff ⟨fun x hx => List.mem_reverse.mp hx,
    fun x hx hnot => absurd (List.mem_reverse.mpr hx) hnot⟩]
  unfold Reached
  simp only [List.mem_reverse, hdirect]
  constructor
  · rintro (hg | h)
    · exact ⟨g, hg, .refl⟩
    · exact h
  · exact .inr

end Groups

/-- One problem with a document: which policy, and what is wrong. -/
structure Diagnostic where
  policy : Option String
  message : String
deriving DecidableEq

/-- A model's policies, valid against the schema. -/
structure Policies (C : Engine) where
  groups : Groups
  set : List C.CedarPolicy
  /-- Every entity some policy names, as type and id. -/
  named : List (String × String)

namespace Policies

variable {C : Engine}

/-- The check of a document's parsed policies: none names a cell, and all are
valid. -/
def check (groups : Groups) (set : List C.CedarPolicy) : Except (List Diagnostic) (Policies C) :=
  let cells := set.flatMap fun p =>
    ((C.entityLiterals p).filter (·.type = "Improv::Cell")).map fun _ =>
      ⟨some (C.id p), "names an Improv::Cell; name its measure or items instead"⟩
  let errors := cells ++ (C.validate set).map fun e => ⟨none, e⟩
  if errors.isEmpty then
    .ok {
      groups
      set
      named := set.flatMap fun p => (C.entityLiterals p).map fun u => (u.type, u.id) }
  else .error errors

end Policies

/-! ## The entities of a question -/

/-- Where a request is checked. -/
inductive Channel
  | local_
  | postgres
  | server
deriving DecidableEq

def Channel.name : Channel → String
  | .local_ => "local"
  | .postgres => "postgres"
  | .server => "server"

def modelUid : EntityUid := uid "Model" "model"

def modelEntity : Entity := ⟨modelUid, [], []⟩

def measureUid (m : MeasureId) : EntityUid := uid "Measure" (toString m.id)

def categoryUid (c : CategoryId) : EntityUid := uid "Category" (toString c.id)

def itemUid (i : ItemId) : EntityUid := uid "Item" (toString i.id)

def viewUid (v : ViewId) : EntityUid := uid "View" (toString v.id)

def cellUid (m : MeasureId) (items : List ItemId) : EntityUid :=
  uid "Cell" (toString m.id ++ ":" ++ ",".intercalate (items.map fun i => toString i.id))

def measureOf (m : MeasureId) (x : MeasureShape) : Entity :=
  ⟨measureUid m, [modelUid], [("kind", .string (if x.input then "input" else "derived"))]⟩

def categoryOf (c : CategoryId) : Entity := ⟨categoryUid c, [modelUid], []⟩

def itemOf (i : ItemId) (c : CategoryId) : Entity := ⟨itemUid i, [categoryUid c], []⟩

def viewOf (v : ViewId) (measure : EntityUid) : Entity :=
  ⟨viewUid v, [modelUid], [("measure", .entity measure)]⟩

def cellOf (m : MeasureId) (items : List ItemId) : Entity :=
  ⟨cellUid m items, measureUid m :: items.map itemUid, []⟩

section

variable (s : Structure)

def measureEntity (m : MeasureId) : Except String Entity :=
  match s.measures.get? m with
  | none => .error s!"no measure {m.id}"
  | some x => .ok (measureOf m x)

def categoryEntity (c : CategoryId) : Except String Entity :=
  if s.categories.contains c then .ok (categoryOf c) else .error s!"no category {c.id}"

/-- An item's entity and its category's. -/
def itemEntities (i : ItemId) : Except String (Entity × Entity) :=
  match s.items.get? i with
  | none => .error s!"no item {i.id}"
  | some c => do return (itemOf i c, ← categoryEntity s c)

/-- The resource's uid and the entities a request about it needs: it, its
ancestors, and what its attributes point at. -/
def slice : Resource → Except String (EntityUid × List Entity)
  | .model => .ok (modelUid, [modelEntity])
  | .category c => do
      let e ← categoryEntity s c
      return (e.uid, [e, modelEntity])
  | .item i => do
      let own ← itemEntities s i
      return (own.1.uid, [own.1, own.2, modelEntity])
  | .measure m => do
      let e ← measureEntity s m
      return (e.uid, [e, modelEntity])
  | .view v =>
      match s.views.get? v with
      | none => .error s!"no view {v.id}"
      | some m => do
          let measure ← measureEntity s m
          return (viewUid v, [viewOf v measure.uid, measure, modelEntity])
  | .cell m coord => do
      let items ← s.cellItems m coord
      let measure ← measureEntity s m
      let own ← items.mapM (itemEntities s)
      return (cellUid m items,
        measure :: modelEntity :: own.flatMap (fun p => [p.1, p.2]) ++ [cellOf m items])

end

/-- A user, whose parents are every group it is in and every role it has. -/
def principalEntity (p : Principal) (groups : List String) : Entity :=
  ⟨uid "User" p.user, groups.map (uid "Group") ++ p.roles.map (uid "Role"), []⟩

/-- The entities every request of a principal shares. -/
def baseEntities (principal : Entity) : Entities := actionEntities ++ [principal]

/-! ## Asking -/

/-- One decision.  An error denies, whatever the policies say. -/
structure Decision where
  allow : Bool
  policies : List String
  errors : List String
deriving DecidableEq

/-- The answer is an allowing decision. -/
def granted : Except String Decision → Bool
  | .ok d => d.allow
  | .error _ => false

/-- The groups an action is in. -/
def actionGroups : Action → List EntityUid
  | .viewModel | .readMeasure | .readItem | .readCell => [uid "Action" "Read"]
  | .editCell => [uid "Action" "Write"]
  | .defineMeasure | .editStructure | .manageViews => [uid "Action" "Build"]
  | .admin => []

variable (C : Engine)

def principalOk (principal : Entity) (p : C.CedarPolicy) : Bool :=
  match C.principalConstraint p with
  | .any | .is _ => true
  | .eq u => u = principal.uid
  | .in_ u | .isIn _ u => u = principal.uid || u ∈ principal.parents

def actionOk (action : Action) (p : C.CedarPolicy) : Bool :=
  match C.actionConstraint p with
  | .any => true
  | .eq a => a = actionUid action
  | .in_ as => as.any fun a => a = actionUid action || a ∈ actionGroups action

/-- The policies that can apply to the principal doing the action. -/
def applicable (set : List C.CedarPolicy) (principal : Entity) (action : Action) :
    List C.CedarPolicy :=
  set.filter fun p => principalOk C principal p && actionOk C action p

/-- Ask once. -/
def ask (set : List C.CedarPolicy) (base : Entities) (s : Structure) (principal : Entity)
    (channel : Channel) (action : Action) (r : Resource) : Except String Decision := do
  let (resource, es) ← slice s r
  let request : Request := {
    principal := principal.uid
    action := actionUid action
    resource
    context := [("channel", channel.name)] }
  if resource.type ∉ (appliesTo action).map ("Improv::" ++ ·) then
    throw s!"{Action.name action} does not apply to this resource: {C.mismatch request}"
  let entities ← C.addEntities base es
  let response := C.isAuthorized request set entities
  return {
    allow := response.allow && response.errors.isEmpty
    policies := response.reason.mergeSort
    errors := response.errors }

/-- Ask once, of all policies, whether a principal may do an action on a resource
of a model. -/
def Policies.authorize {C : Engine} (p : Policies C) (model : Model) (principal : Principal)
    (channel : Channel) (action : Action) (r : Resource) : Except String Decision :=
  let me := principalEntity principal (p.groups.of principal.user)
  ask C p.set (baseEntities me) (Structure.of model) me channel action r

end Improv.Policy.Cedar
