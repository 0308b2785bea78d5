import Improv.Policy.Cedar
import Improv.Policy.RowDecisions
/-!
# The entities of a question

A question is asked with the entities of its principal, of the schema and of its
resource.  They say what is in what, and no more: a principal is in its groups
and roles, and a cell in its measure, its items and their categories.  So the
policies that can apply are found from their scope, and two resources that the
policies cannot tell apart are decided alike.
-/

namespace Improv.Policy.Cedar

open Improv.Lib Improv.CoreModel Improv.Service

/-! ## What is in what -/

/-- One uid names one entity. -/
def Functional (es : Entities) : Prop := ∀ e ∈ es, ∀ e' ∈ es, e.uid = e'.uid → e = e'

theorem isBelow_succ_iff {es : Entities} {n : Nat} {u v : EntityUid} :
    isBelow es (n + 1) u v = true ↔
      u = v ∨ ∃ e ∈ es, e.uid = u ∧ ∃ p ∈ e.parents, isBelow es n p v = true := by
  simp [isBelow]

theorem isBelow_of_not_mem {es : Entities} {u : EntityUid} (h : ∀ e ∈ es, e.uid ≠ u) (n : Nat)
    (v : EntityUid) : isBelow es n u v = true ↔ u = v := by
  cases n with
  | zero => simp [isBelow]
  | succ n =>
      rw [isBelow_succ_iff]
      constructor
      · rintro (heq | ⟨e, he, heq, _⟩)
        · exact heq
        · exact absurd heq (h e he)
      · exact .inl

theorem isBelow_of_mem {es : Entities} (hes : Functional es) {e : Entity} (he : e ∈ es) (n : Nat)
    (v : EntityUid) :
    isBelow es (n + 1) e.uid v = true ↔ e.uid = v ∨ ∃ p ∈ e.parents, isBelow es n p v = true := by
  rw [isBelow_succ_iff]
  constructor
  · rintro (heq | ⟨e', he', heq, hp⟩)
    · exact .inl heq
    · rw [hes e' he' e he heq] at hp
      exact .inr hp
  · rintro (heq | hp)
    · exact .inl heq
    · exact .inr ⟨e, he, rfl, hp⟩

theorem isBelow_of_root {es : Entities} (hes : Functional es) {e : Entity} (he : e ∈ es)
    (hroot : e.parents = []) (n : Nat) (v : EntityUid) :
    isBelow es n e.uid v = true ↔ e.uid = v := by
  cases n with
  | zero => simp [isBelow]
  | succ n => simp [isBelow_of_mem hes he, hroot]

theorem attrsOf_of_mem {es : Entities} (hes : Functional es) {e : Entity} (he : e ∈ es)
    (hattrs : e.attrs = []) : attrsOf es e.uid = [] := by
  unfold attrsOf
  rw [List.flatMap_eq_nil_iff]
  intro e' he'
  rw [List.mem_filter, decide_eq_true_eq] at he'
  rw [hes e' he'.1 e he he'.2, hattrs]

/-! ## The entities of a slice -/

theorem uid_inj {a b x y : String} : uid a x = uid b y ↔ a = b ∧ x = y := by
  rw [uid, uid, EntityUid.mk.injEq, String.append_right_inj]

theorem ofDigits_toList_repr (n : Nat) : Decimal.ofDigits n.repr.toList = n := by
  rw [Nat.toList_repr, Decimal.ofDigits_toDigits]

theorem repr_inj {a b : Nat} : a.repr = b.repr ↔ a = b := by
  constructor
  · intro h
    rw [← ofDigits_toList_repr a, h, ofDigits_toList_repr]
  · exact congrArg Nat.repr

theorem itemUid_inj {i j : ItemId} : itemUid i = itemUid j ↔ i = j := by
  cases i
  cases j
  simp [itemUid, uid_inj, repr_inj]

theorem actionName_inj {a b : Action} : Action.name a = Action.name b ↔ a = b := by
  cases a <;> cases b <;> simp [Action.name]

theorem actionName_not_group (a : Action) : Action.name a ∉ ["Read", "Write", "Build"] := by
  cases a <;> simp [Action.name]

/-- The entities a question can be asked with: a principal's, the schema's and the
structure's, and of a question about a cell the cell's. -/
inductive Known (s : Structure) (me cell : Entity) : Entity → Prop
  | group (g : String) (h : g ∈ ["Read", "Write", "Build"]) :
      Known s me cell ⟨uid "Action" g, [], []⟩
  | action (a : Action) : Known s me cell ⟨actionUid a, (memberOf a).map (uid "Action"), []⟩
  | me : Known s me cell me
  | model : Known s me cell modelEntity
  | measure (m : MeasureId) (x : MeasureShape) (h : s.measures.get? m = some x) :
      Known s me cell (measureOf m x)
  | category (c : CategoryId) : Known s me cell (categoryOf c)
  | item (i : ItemId) (c : CategoryId) (h : s.items.get? i = some c) :
      Known s me cell (itemOf i c)
  | view (v : ViewId) (m : MeasureId) (h : s.views.get? v = some m) :
      Known s me cell (viewOf v (measureUid m))
  | cell : Known s me cell cell

variable {s : Structure} {who : Principal} {groups : List String} {m : MeasureId}
  {items : List ItemId}

theorem Known.eq_of_uid {e e' : Entity}
    (h : Known s (principalEntity who groups) (cellOf m items) e)
    (h' : Known s (principalEntity who groups) (cellOf m items) e') (heq : e.uid = e'.uid) :
    e = e' := by
  cases h <;> cases h' <;>
    simp [uid_inj, actionUid, principalEntity, modelEntity, modelUid, measureOf, measureUid,
      categoryOf, categoryUid, itemOf, itemUid, viewOf, viewUid, cellOf, cellUid, repr_inj] at heq
  case group.group => rw [heq]
  case group.action g hg a => exact absurd (heq ▸ hg) (actionName_not_group a)
  case action.group a g hg => exact absurd (heq ▸ hg) (actionName_not_group a)
  case action.action a b => rw [actionName_inj.mp heq]
  case me.me => rfl
  case model.model => rfl
  case measure.measure n x hx n' y hy =>
      cases n
      cases n'
      cases heq
      rw [Option.some.inj (hx.symm.trans hy)]
  case category.category c d =>
      cases c
      cases d
      cases heq
      rfl
  case item.item i c hc j d hd =>
      cases i
      cases j
      cases heq
      rw [Option.some.inj (hc.symm.trans hd)]
  case view.view v n hn v' n' hn' =>
      cases v
      cases v'
      cases heq
      rw [Option.some.inj (hn.symm.trans hn')]
  case cell.cell => rfl

theorem mem_actionEntities {e : Entity} (h : e ∈ actionEntities) (me cell : Entity) :
    Known s me cell e := by
  unfold actionEntities at h
  rcases List.mem_append.mp h with h | h
  · obtain ⟨g, hg, rfl⟩ := List.mem_map.mp h
    exact .group g hg
  · obtain ⟨a, _, rfl⟩ := List.mem_map.mp h
    exact .action a

/-! ## Slices -/

theorem measureEntity_eq_ok_iff {e : Entity} :
    measureEntity s m = .ok e ↔ ∃ x, s.measures.get? m = some x ∧ e = measureOf m x := by
  unfold measureEntity
  cases s.measures.get? m with
  | none => simp
  | some x => simp [eq_comm]

theorem categoryEntity_eq_ok_iff {c : CategoryId} {e : Entity} :
    categoryEntity s c = .ok e ↔ s.categories.contains c = true ∧ e = categoryOf c := by
  unfold categoryEntity
  by_cases h : s.categories.contains c = true <;> simp [h, eq_comm]

theorem itemEntities_eq_ok_iff {i : ItemId} {p : Entity × Entity} :
    itemEntities s i = .ok p ↔ ∃ c, s.items.get? i = some c ∧ s.categories.contains c = true ∧
      p = (itemOf i c, categoryOf c) := by
  unfold itemEntities
  cases s.items.get? i with
  | none => simp
  | some c =>
      simp only [bind_eq_ok_iff, categoryEntity_eq_ok_iff]
      constructor
      · rintro ⟨e, ⟨hc, rfl⟩, hp⟩
        exact ⟨c, rfl, hc, (Except.ok.inj hp).symm⟩
      · rintro ⟨d, hd, hc, rfl⟩
        cases hd
        exact ⟨_, ⟨hc, rfl⟩, rfl⟩

theorem slice_item {i : ItemId} {u : EntityUid} {es : List Entity}
    (h : slice s (.item i) = .ok (u, es)) : ∃ c, s.items.get? i = some c ∧ u = itemUid i ∧
      es = [itemOf i c, categoryOf c, modelEntity] := by
  simp only [slice, bind_eq_ok_iff, itemEntities_eq_ok_iff] at h
  obtain ⟨p, ⟨c, hc, _, rfl⟩, h⟩ := h
  cases h
  exact ⟨c, hc, rfl, rfl⟩

/-- What the entities of a cell are. -/
structure CellSlice (s : Structure) (m : MeasureId) (items : List ItemId) (es : List Entity) :
    Prop where
  measure : ∃ x, s.measures.get? m = some x ∧ measureOf m x ∈ es
  model : modelEntity ∈ es
  own : ∀ i ∈ items, ∃ c, s.items.get? i = some c ∧ itemOf i c ∈ es ∧ categoryOf c ∈ es
  cell : cellOf m items ∈ es
  known : ∀ me, ∀ e ∈ es, Known s me (cellOf m items) e

theorem slice_cell {coord : Coordinate} {u : EntityUid} {es : List Entity}
    (h : slice s (.cell m coord) = .ok (u, es)) : ∃ items, s.cellItems m coord = .ok items ∧
      u = cellUid m items ∧ CellSlice s m items es := by
  simp only [slice, bind_eq_ok_iff, measureEntity_eq_ok_iff, mapM_eq_ok_iff,
    itemEntities_eq_ok_iff] at h
  obtain ⟨items, hitems, e, ⟨x, hx, rfl⟩, own, hown, h⟩ := h
  cases h
  refine ⟨items, hitems, rfl, ?_⟩
  refine ⟨⟨x, hx, by simp⟩, by simp, fun i hi => ?_, by simp, fun me e he => ?_⟩
  · obtain ⟨p, hp, c, hc, _, rfl⟩ := exists_of_mem_left hown hi
    refine ⟨c, hc, ?_, ?_⟩
    · simp only [List.cons_append, List.mem_cons, List.mem_append, List.mem_flatMap]
      exact .inr (.inr (.inl ⟨_, hp, by simp⟩))
    · simp only [List.cons_append, List.mem_cons, List.mem_append, List.mem_flatMap]
      exact .inr (.inr (.inl ⟨_, hp, by simp⟩))
  · simp only [List.cons_append, List.mem_cons, List.mem_append, List.mem_flatMap,
      List.not_mem_nil, or_false] at he
    rcases he with rfl | rfl | ⟨p, hp, he⟩ | rfl
    · exact .measure m x hx
    · exact .model
    · obtain ⟨i, _, c, hc, _, rfl⟩ := exists_of_mem_left hown.flip hp
      rcases he with rfl | rfl
      · exact .item i c hc
      · exact .category c
    · exact .cell

/-- A question's entities are of the structure, and of one cell at most. -/
theorem known_of_slice {r : Resource} {u : EntityUid} {es : List Entity}
    (h : slice s r = .ok (u, es)) :
    ∃ m items, ∀ me, ∀ e ∈ es, Known s me (cellOf m items) e := by
  cases r with
  | model =>
      cases h
      refine ⟨⟨0⟩, [], fun me e he => ?_⟩
      rw [List.mem_singleton.mp he]
      exact .model
  | category c =>
      simp only [slice, bind_eq_ok_iff, categoryEntity_eq_ok_iff] at h
      obtain ⟨_, ⟨_, rfl⟩, h⟩ := h
      cases h
      refine ⟨⟨0⟩, [], fun me e he => ?_⟩
      simp only [List.mem_cons, List.not_mem_nil, or_false] at he
      rcases he with rfl | rfl
      · exact .category c
      · exact .model
  | item i =>
      obtain ⟨c, hc, _, rfl⟩ := slice_item h
      refine ⟨⟨0⟩, [], fun me e he => ?_⟩
      simp only [List.mem_cons, List.not_mem_nil, or_false] at he
      rcases he with rfl | rfl | rfl
      · exact .item i c hc
      · exact .category c
      · exact .model
  | measure m =>
      simp only [slice, bind_eq_ok_iff, measureEntity_eq_ok_iff] at h
      obtain ⟨_, ⟨x, hx, rfl⟩, h⟩ := h
      cases h
      refine ⟨⟨0⟩, [], fun me e he => ?_⟩
      simp only [List.mem_cons, List.not_mem_nil, or_false] at he
      rcases he with rfl | rfl
      · exact .measure m x hx
      · exact .model
  | view v =>
      simp only [slice] at h
      cases hv : s.views.get? v with
      | none =>
          rw [hv] at h
          cases h
      | some m =>
          simp only [hv, bind_eq_ok_iff, measureEntity_eq_ok_iff] at h
          obtain ⟨_, ⟨x, hx, rfl⟩, h⟩ := h
          cases h
          refine ⟨⟨0⟩, [], fun me e he => ?_⟩
          simp only [List.mem_cons, List.not_mem_nil, or_false] at he
          rcases he with rfl | rfl | rfl
          · exact .view v m hv
          · exact .measure m x hx
          · exact .model
  | cell m coord =>
      obtain ⟨items, _, _, hcell⟩ := slice_cell h
      exact ⟨m, items, hcell.known⟩

/-! ## The store of a question -/

/-- The entities a question is asked with. -/
def store (who : Principal) (groups : List String) (es : List Entity) : Entities :=
  baseEntities (principalEntity who groups) ++ es

theorem exists_length_store (who : Principal) (groups : List String) (es : List Entity) :
    ∃ n, (store who groups es).length = n + 4 := by
  refine ⟨9 + es.length, ?_⟩
  unfold store
  rw [List.length_append]
  have hbase : (baseEntities (principalEntity who groups)).length = 13 := rfl
  omega

theorem known_of_store (who : Principal) (groups : List String) {r : Resource} {u : EntityUid}
    {es : List Entity}
    (h : slice s r = .ok (u, es)) : ∃ m items, ∀ e ∈ store who groups es,
      Known s (principalEntity who groups) (cellOf m items) e := by
  obtain ⟨m, items, hes⟩ := known_of_slice h
  refine ⟨m, items, fun e he => ?_⟩
  unfold store baseEntities at he
  rcases List.mem_append.mp he with he | he
  · rcases List.mem_append.mp he with he | he
    · exact mem_actionEntities he _ _
    · rw [List.mem_singleton.mp he]
      exact .me
  · exact hes _ e he

theorem functional_store (who : Principal) (groups : List String) {r : Resource} {u : EntityUid}
    {es : List Entity}
    (h : slice s r = .ok (u, es)) : Functional (store who groups es) := by
  obtain ⟨m, items, hknown⟩ := known_of_store who groups h
  intro e he e' he' heq
  exact (hknown e he).eq_of_uid (hknown e' he') heq

theorem Known.ne_parent {e : Entity}
    (h : Known s (principalEntity who groups) (cellOf m items) e) {u : EntityUid}
    (hu : u ∈ (principalEntity who groups).parents) : e.uid ≠ u := by
  have hcases : (∃ g, u = uid "Group" g) ∨ ∃ r, u = uid "Role" r := by
    rcases List.mem_append.mp hu with hu | hu
    · obtain ⟨g, _, rfl⟩ := List.mem_map.mp hu
      exact .inl ⟨g, rfl⟩
    · obtain ⟨r, _, rfl⟩ := List.mem_map.mp hu
      exact .inr ⟨r, rfl⟩
  rcases hcases with ⟨g, rfl⟩ | ⟨r, rfl⟩ <;> cases h <;>
    simp [uid_inj, actionUid, principalEntity, modelEntity, modelUid, measureOf, measureUid,
      categoryOf, categoryUid, itemOf, itemUid, viewOf, viewUid, cellOf, cellUid]

/-- A principal is in its groups and roles, and in nothing else. -/
theorem isIn_principal {r : Resource} {u : EntityUid} {es : List Entity}
    (h : slice s r = .ok (u, es)) (v : EntityUid) :
    isIn (store who groups es) (principalEntity who groups).uid v = true ↔
      v = (principalEntity who groups).uid ∨ v ∈ (principalEntity who groups).parents := by
  obtain ⟨m, items, hknown⟩ := known_of_store who groups h
  obtain ⟨n, hn⟩ := exists_length_store who groups es
  have hme : principalEntity who groups ∈ store who groups es := by
    simp [store, baseEntities]
  unfold isIn
  rw [hn, isBelow_of_mem (functional_store _ _ h) hme]
  constructor
  · rintro (heq | ⟨p, hp, hbelow⟩)
    · exact .inl heq.symm
    · rw [isBelow_of_not_mem fun e he => (hknown e he).ne_parent hp] at hbelow
      exact .inr (hbelow ▸ hp)
  · rintro (heq | hv)
    · exact .inl heq.symm
    · refine .inr ⟨v, hv, ?_⟩
      rw [isBelow_of_not_mem fun e he => (hknown e he).ne_parent hv]

/-- The groups of actions are the schema's. -/
theorem map_memberOf (a : Action) : (memberOf a).map (uid "Action") = actionGroups a := by
  cases a <;> rfl

theorem isIn_action {r : Resource} {u : EntityUid} {es : List Entity}
    (h : slice s r = .ok (u, es)) (a : Action) (v : EntityUid) :
    isIn (store who groups es) (actionUid a) v = true ↔ v = actionUid a ∨ v ∈ actionGroups a := by
  obtain ⟨n, hn⟩ := exists_length_store who groups es
  have haction : (⟨actionUid a, (memberOf a).map (uid "Action"), []⟩ : Entity) ∈
      store who groups es := by
    unfold store baseEntities actionEntities
    refine List.mem_append_left _ (List.mem_append_left _ (List.mem_append_right _ ?_))
    exact List.mem_map.mpr ⟨a, by cases a <;> simp [Action.all], rfl⟩
  have hgroup : ∀ g ∈ memberOf a, (⟨uid "Action" g, [], []⟩ : Entity) ∈ store who groups es := by
    intro g hg
    unfold store baseEntities actionEntities
    refine List.mem_append_left _ (List.mem_append_left _ (List.mem_append_left _ ?_))
    refine List.mem_map.mpr ⟨g, ?_, rfl⟩
    cases a <;> simp [memberOf] at hg <;> simp [hg]
  unfold isIn
  rw [hn, isBelow_of_mem (functional_store _ _ h) haction, ← map_memberOf]
  have hroot : ∀ p ∈ (memberOf a).map (uid "Action"), ∀ k,
      isBelow (store who groups es) k p v = true ↔ p = v := by
    intro p hp k
    obtain ⟨g, hg, rfl⟩ := List.mem_map.mp hp
    exact isBelow_of_root (functional_store _ _ h) (hgroup g hg) rfl k v
  constructor
  · rintro (heq | ⟨p, hp, hbelow⟩)
    · exact .inl heq.symm
    · exact .inr ((hroot p hp _).mp hbelow ▸ hp)
  · rintro (heq | hv)
    · exact .inl heq.symm
    · exact .inr ⟨v, hv, (hroot v hv _).mpr rfl⟩

/-! ## The policies that can apply -/

variable {C : Engine} {set : List C.CedarPolicy} {channel : Channel} {a : Action}

/-- A policy whose scope takes the request can apply. -/
theorem keeps_of_inScope {r : Resource} {u : EntityUid} {es : List Entity}
    (h : slice s r = .ok (u, es)) {context : List (String × String)} {p : C.CedarPolicy}
    (hp : C.InScope ⟨(principalEntity who groups).uid, actionUid a, u, context⟩
      (store who groups es) p) :
    (principalOk C (principalEntity who groups) p && actionOk C a p) = true := by
  rw [Bool.and_eq_true]
  obtain ⟨hprincipal, haction⟩ := hp
  constructor
  · unfold principalOk
    cases hc : C.principalConstraint p with
    | any => rfl
    | is ty => rfl
    | eq v =>
        rw [hc] at hprincipal
        simpa [PrincipalConstraint.takes, eq_comm] using hprincipal
    | in_ v =>
        rw [hc] at hprincipal
        simpa using (isIn_principal h v).mp hprincipal
    | isIn ty v =>
        rw [hc, PrincipalConstraint.takes, Bool.and_eq_true] at hprincipal
        simpa using (isIn_principal h v).mp hprincipal.2
  · unfold actionOk
    cases hc : C.actionConstraint p with
    | any => rfl
    | eq b =>
        rw [hc] at haction
        simpa [ActionConstraint.takes, eq_comm] using haction
    | in_ bs =>
        rw [hc, ActionConstraint.takes, List.any_eq_true] at haction
        obtain ⟨b, hb, hin⟩ := haction
        rw [List.any_eq_true]
        exact ⟨b, hb, by simpa using (isIn_action h a b).mp hin⟩

/-- Asking the policies that can apply is asking all. -/
theorem ask_applicable (set : List C.CedarPolicy) (s : Structure) (who : Principal)
    (groups : List String) (channel : Channel) (a : Action) (hC : C.Lawful) (r : Resource) :
    ask C (applicable C set (principalEntity who groups) a)
        (baseEntities (principalEntity who groups)) s (principalEntity who groups) channel a r =
      ask C set (baseEntities (principalEntity who groups)) s (principalEntity who groups)
        channel a r := by
  unfold ask
  cases hs : slice s r with
  | error e => rfl
  | ok p =>
      have hadd := hC.addEntities _ _ (functional_store who groups hs)
      simp only [bind, Except.bind, hadd]
      split
      · rfl
      · have hscope := fun context => hC.scope
          ⟨(principalEntity who groups).uid, actionUid a, p.1, context⟩ (store who groups p.2) set
          (fun x => principalOk C (principalEntity who groups) x && actionOk C a x)
          fun x _ hx => keeps_of_inScope hs hx
        unfold store at hscope
        simp only [applicable, hscope]

/-! ## What can be asked about -/

theorem forall₂_exists_iff {α β : Type} {R : α → β → Prop} {as : List α} :
    (∃ bs, List.Forall₂ R as bs) ↔ ∀ a ∈ as, ∃ b, R a b := by
  induction as with
  | nil => simp
  | cons a as ih =>
      rw [List.forall_mem_cons, ← ih]
      constructor
      · rintro ⟨_, hbs⟩
        cases hbs with
        | cons hab hbs => exact ⟨⟨_, hab⟩, ⟨_, hbs⟩⟩
      · rintro ⟨⟨b, hab⟩, ⟨bs, hbs⟩⟩
        exact ⟨b :: bs, .cons hab hbs⟩

theorem exists_itemEntities_iff {s : Structure} {i : ItemId} :
    (∃ p, itemEntities s i = .ok p) ↔ s.slicesItem i = true := by
  simp only [itemEntities_eq_ok_iff, Structure.slicesItem, Option.any_eq_true]
  constructor
  · rintro ⟨_, c, hc, hcat, _⟩
    exact ⟨c, hc, hcat⟩
  · rintro ⟨c, hc, hcat⟩
    exact ⟨_, c, hc, hcat, rfl⟩

theorem exists_measureEntity_iff {s : Structure} {m : MeasureId} :
    (∃ e, measureEntity s m = .ok e) ↔ s.measures.contains m = true := by
  simp only [measureEntity_eq_ok_iff, SortedMap.contains, Option.isSome_iff_exists]
  constructor
  · rintro ⟨_, x, hx, _⟩
    exact ⟨x, hx⟩
  · rintro ⟨x, hx⟩
    exact ⟨_, x, hx, rfl⟩

theorem exists_slice_iff {s : Structure} {r : Resource} :
    (∃ q, slice s r = .ok q) ↔ s.slices r = true := by
  cases r with
  | model => simp [slice, Structure.slices]
  | category c =>
      simp only [slice, Structure.slices, bind_eq_ok_iff, categoryEntity_eq_ok_iff]
      constructor
      · rintro ⟨_, _, ⟨hc, _⟩, _⟩
        exact hc
      · intro hc
        exact ⟨_, _, ⟨hc, rfl⟩, rfl⟩
  | item i =>
      simp only [slice, Structure.slices, bind_eq_ok_iff, ← exists_itemEntities_iff]
      constructor
      · rintro ⟨_, p, hp, _⟩
        exact ⟨p, hp⟩
      · rintro ⟨p, hp⟩
        exact ⟨_, p, hp, rfl⟩
  | measure m =>
      simp only [slice, Structure.slices, bind_eq_ok_iff, ← exists_measureEntity_iff]
      constructor
      · rintro ⟨_, e, he, _⟩
        exact ⟨e, he⟩
      · rintro ⟨e, he⟩
        exact ⟨_, e, he, rfl⟩
  | view v =>
      simp only [slice, Structure.slices]
      cases s.views.get? v with
      | none => simp
      | some m =>
          simp only [bind_eq_ok_iff, Option.any_some, ← exists_measureEntity_iff]
          constructor
          · rintro ⟨_, e, he, _⟩
            exact ⟨e, he⟩
          · rintro ⟨e, he⟩
            exact ⟨_, e, he, rfl⟩
  | cell m coord =>
      simp only [slice, Structure.slices, bind_eq_ok_iff]
      cases hitems : s.cellItems m coord with
      | error e => simp
      | ok items =>
          simp only [List.all_eq_true, ← exists_itemEntities_iff, ← forall₂_exists_iff,
            ← mapM_eq_ok_iff]
          obtain ⟨x, hx, _⟩ := Restricted.of_cellItems hitems
          constructor
          · rintro ⟨_, _, hitems', _, _, own, hown, _⟩
            cases hitems'
            exact ⟨own, hown⟩
          · rintro ⟨own, hown⟩
            exact ⟨_, items, rfl, _, measureEntity_eq_ok_iff.mpr ⟨x, hx, rfl⟩, own, hown, rfl⟩

/-! ## Decisions that are alike -/

section Alike

variable {C : Engine} {set : List C.CedarPolicy} {s : Structure} {who : Principal}
  {groups : List String} {channel : Channel} {a : Action}

/-- One question, asked of the policies. -/
def asked (C : Engine) (set : List C.CedarPolicy) (s : Structure) (who : Principal)
    (groups : List String) (channel : Channel) (a : Action) (r : Resource) :
    Except String Decision :=
  Cedar.ask C set (baseEntities (principalEntity who groups)) s (principalEntity who groups)
    channel a r

/-- Two resources without attributes that the policies cannot tell apart. -/
theorem granted_congr (hC : C.Lawful) {r r' : Resource} {u u' : EntityUid} {es es' : List Entity}
    (h : slice s r = .ok (u, es)) (h' : slice s r' = .ok (u', es')) (htype : u.type = u'.type)
    (hattrs : attrsOf (store who groups es) u = [])
    (hattrs' : attrsOf (store who groups es') u' = [])
    (hlit : ∀ x ∈ set, ∀ v ∈ C.entityLiterals x, (u = v ↔ u' = v) ∧
      isIn (store who groups es) u v = isIn (store who groups es') u' v) :
    granted (asked C set s who groups channel a r) =
      granted (asked C set s who groups channel a r') := by
  have hadd := hC.addEntities _ _ (functional_store who groups h)
  have hadd' := hC.addEntities _ _ (functional_store who groups h')
  unfold asked Cedar.ask
  simp only [h, h', bind, Except.bind, hadd, hadd', htype]
  split
  · rfl
  · refine hC.depends set _ _ _ _ rfl rfl rfl ?_ ?_ htype (hattrs.trans hattrs'.symm) ?_ hlit
    · intro v
      rw [Bool.eq_iff_iff]
      exact (isIn_principal h v).trans (isIn_principal h' v).symm
    · intro v
      rw [Bool.eq_iff_iff]
      exact (isIn_action h a v).trans (isIn_action h' a v).symm
    · intro name v hv
      have hnil := hattrs
      unfold store at hnil
      rw [hnil] at hv
      cases hv

theorem isBelow_category {es : Entities} (hes : Functional es) {c : CategoryId}
    (hcategory : categoryOf c ∈ es) (hmodel : modelEntity ∈ es) (n : Nat) (v : EntityUid) :
    isBelow es (n + 1) (categoryUid c) v = true ↔ v = categoryUid c ∨ v = modelUid := by
  rw [show categoryUid c = (categoryOf c).uid from rfl, isBelow_of_mem hes hcategory]
  simp only [categoryOf, List.mem_singleton, exists_eq_left]
  rw [show modelUid = modelEntity.uid from rfl, isBelow_of_root hes hmodel rfl, eq_comm,
    @eq_comm _ modelEntity.uid]

theorem isBelow_item {es : Entities} (hes : Functional es) {i : ItemId} {c : CategoryId}
    (hitem : itemOf i c ∈ es) (hcategory : categoryOf c ∈ es) (hmodel : modelEntity ∈ es) (n : Nat)
    (v : EntityUid) :
    isBelow es (n + 2) (itemUid i) v = true ↔ v = itemUid i ∨ v = categoryUid c ∨ v = modelUid := by
  rw [show itemUid i = (itemOf i c).uid from rfl, isBelow_of_mem hes hitem]
  simp only [itemOf, List.mem_singleton, exists_eq_left]
  rw [isBelow_category hes hcategory hmodel, eq_comm]

/-- A cell is in its measure, its items, their categories and the model. -/
theorem isBelow_cell {m : MeasureId} {items : List ItemId} {es fs : List Entity}
    (hes : Functional (fs ++ es)) (h : CellSlice s m items es) (n : Nat) (v : EntityUid) :
    isBelow (fs ++ es) (n + 3) (cellUid m items) v = true ↔
      v = cellUid m items ∨ v = measureUid m ∨ v = modelUid ∨
        ∃ i ∈ items, ∃ c, s.items.get? i = some c ∧ (v = itemUid i ∨ v = categoryUid c) := by
  have hmodel := List.mem_append_right fs h.model
  rw [show cellUid m items = (cellOf m items).uid from rfl,
    isBelow_of_mem hes (List.mem_append_right fs h.cell)]
  simp only [cellOf, List.mem_cons, List.mem_map, exists_eq_or_imp]
  obtain ⟨x, _, hx⟩ := h.measure
  have hmeasure : isBelow (fs ++ es) (n + 2) (measureUid m) v = true ↔
      v = measureUid m ∨ v = modelUid := by
    rw [show measureUid m = (measureOf m x).uid from rfl,
      isBelow_of_mem hes (List.mem_append_right fs hx)]
    simp only [measureOf, List.mem_singleton, exists_eq_left]
    rw [show modelUid = modelEntity.uid from rfl, isBelow_of_root hes hmodel rfl, eq_comm,
      @eq_comm _ modelEntity.uid]
  have hitem : ∀ i ∈ items, ∃ c, s.items.get? i = some c ∧
      (isBelow (fs ++ es) (n + 2) (itemUid i) v = true ↔
        v = itemUid i ∨ v = categoryUid c ∨ v = modelUid) := by
    intro i hi
    obtain ⟨c, hc, hi, hcat⟩ := h.own i hi
    exact ⟨c, hc, isBelow_item hes (List.mem_append_right fs hi) (List.mem_append_right fs hcat)
      hmodel n v⟩
  rw [hmeasure]
  constructor
  · rintro (heq | (hm | hm) | ⟨_, ⟨i, hi, rfl⟩, hbelow⟩)
    · exact .inl heq.symm
    · exact .inr (.inl hm)
    · exact .inr (.inr (.inl hm))
    · obtain ⟨c, hc, hiff⟩ := hitem i hi
      rcases hiff.mp hbelow with hv | hv | hv
      · exact .inr (.inr (.inr ⟨i, hi, c, hc, .inl hv⟩))
      · exact .inr (.inr (.inr ⟨i, hi, c, hc, .inr hv⟩))
      · exact .inr (.inr (.inl hv))
  · rintro (heq | hm | hm | ⟨i, hi, c, hc, hv⟩)
    · exact .inl heq.symm
    · exact .inr (.inl (.inl hm))
    · exact .inr (.inl (.inr hm))
    · obtain ⟨d, hd, hiff⟩ := hitem i hi
      cases hc.symm.trans hd
      refine .inr (.inr ⟨_, ⟨i, hi, rfl⟩, hiff.mpr ?_⟩)
      rcases hv with hv | hv
      · exact .inl hv
      · exact .inr (.inl hv)

end Alike

end Improv.Policy.Cedar
