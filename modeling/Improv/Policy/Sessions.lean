import Improv.Lib.Lru
import Improv.Policy.CachedSession
/-!
# Decisions while policies change

A request reads the version of the stored policies, loads them where it moved,
and is answered by the session kept for that version, the structure's number,
the principal and the channel.  Any writer stores policies at any moment, and
the steps of requests interleave.  Each answer is what the composite rule gives
for policies stored while the request ran, over the structure it began with.
-/

namespace Improv.Policy.Cedar

open Improv.Lib Improv.CoreModel Improv.Service

/-! ## The sessions kept -/

/-- A session's key: a new version of the policies or of the model is a new
session. -/
structure SessionKey where
  policyVersion : Nat
  modelVersion : Nat
  principal : Principal
  channel : Channel
deriving DecidableEq

/-- At most `capacity` sessions, the least recently used dropped first.  They
are named by the order they were built in, for a request can hold one that was
dropped. -/
structure Sessions (C : Engine) where
  inner : Lru SessionKey Nat
  built : List (CachedSession C × Kept C)

namespace Sessions

variable {C : Engine}

/-- Room for `capacity` sessions, at least one. -/
def new (C : Engine) (capacity : Nat) : Sessions C := ⟨.empty (max capacity 1), []⟩

/-- The session of a key, built where none is kept. -/
def get (s : Sessions C) (key : SessionKey) (policies : Option (Policies C)) (model : Model) :
    Nat × Sessions C :=
  let got := s.inner.get key s.built.length
  (got.1, {
    inner := got.2
    built :=
      if got.1 < s.built.length then s.built
      else s.built ++ [(.new policies model key.principal key.channel, .empty C)] })

theorem get_of_kept {s : Sessions C} {key : SessionKey} {n : Nat}
    (h : s.inner.find? key = some n) (hn : n < s.built.length) (policies : Option (Policies C))
    (model : Model) :
    s.get key policies model = (n, ⟨(s.inner.get key s.built.length).2, s.built⟩) := by
  unfold get
  dsimp only
  rw [Lru.get_of_find? h, if_pos hn]

theorem get_of_not_kept {s : Sessions C} {key : SessionKey} (h : s.inner.find? key = none)
    (policies : Option (Policies C)) (model : Model) :
    s.get key policies model = (s.built.length, ⟨(s.inner.get key s.built.length).2,
      s.built ++ [(.new policies model key.principal key.channel, .empty C)]⟩) := by
  unfold get
  dsimp only
  rw [Lru.get_of_find?_none h, if_neg (Nat.lt_irrefl _)]

/-- A session that is wanted, and what it is built from where none is kept. -/
structure Wanted (C : Engine) where
  key : SessionKey
  policies : Option (Policies C)
  model : Model

/-- The sessions kept after some were wanted. -/
def run (s : Sessions C) (ws : List (Wanted C)) : Sessions C :=
  ws.foldl (fun s w => (s.get w.key w.policies w.model).2) s

theorem run_append (s : Sessions C) (ws ws' : List (Wanted C)) :
    s.run (ws ++ ws') = (s.run ws).run ws' := List.foldl_append

/-- Sessions kept under numbers that were built, the latest as many as fit. -/
structure Fresh (s : Sessions C) (recent : List SessionKey) : Prop where
  recent : s.inner.Recent recent
  built : s.inner.Each fun _ n => n < s.built.length

theorem fresh_new (capacity : Nat) : Fresh (new C capacity) [] where
  recent := Lru.recent_empty (by omega)
  built := Lru.each_empty _

theorem capacity_get (s : Sessions C) (w : Wanted C) :
    (s.get w.key w.policies w.model).2.inner.capacity = s.inner.capacity :=
  Lru.capacity_get _ _ _

theorem Fresh.get {s : Sessions C} {recent : List SessionKey} (h : Fresh s recent)
    (w : Wanted C) : Fresh (s.get w.key w.policies w.model).2 (Lru.use recent w.key) := by
  refine ⟨h.recent.get _ _, ?_⟩
  cases hfind : s.inner.find? w.key with
  | some n =>
      obtain ⟨e, he, _, rfl⟩ := Lru.of_find? hfind
      rw [get_of_kept hfind (h.built e he)]
      exact (h.built.get _ fun hnone => absurd (hnone.symm.trans hfind) (by simp)).2
  | none =>
      rw [get_of_not_kept hfind]
      have hgrown : s.inner.Each fun _ n => n < s.built.length + 1 :=
        h.built.imp fun _ _ hn => Nat.lt_succ_of_lt hn
      have hkept : (s.inner.get w.key s.built.length).2.Each fun _ n => n < s.built.length + 1 :=
        (hgrown.get _ fun _ => Nat.lt_succ_self _).2
      exact hkept.imp fun _ _ hn => by simpa using hn

theorem Fresh.run {s : Sessions C} {recent : List SessionKey} (h : Fresh s recent)
    (ws : List (Wanted C)) :
    Fresh (s.run ws) ((ws.map Wanted.key).foldl Lru.use recent) ∧
      (s.run ws).inner.capacity = s.inner.capacity := by
  induction ws generalizing s recent with
  | nil => exact ⟨h, rfl⟩
  | cons w ws ih =>
      obtain ⟨hfresh, hcapacity⟩ := ih (h.get w)
      exact ⟨hfresh, hcapacity.trans (capacity_get s w)⟩

/-- Sessions wanted under other keys leave a key's session or drop it. -/
theorem find?_run {s : Sessions C} {key : SessionKey} {n : Nat}
    (h : s.inner.find? key = some n ∨ s.inner.find? key = none) {ws : List (Wanted C)}
    (hws : key ∉ ws.map Wanted.key) :
    (s.run ws).inner.find? key = some n ∨ (s.run ws).inner.find? key = none := by
  induction ws generalizing s with
  | nil => exact h
  | cons w ws ih =>
      rw [List.map_cons, List.mem_cons, not_or] at hws
      refine ih ?_ hws.2
      rcases Lru.find?_get_of_ne (c := s.inner) (Ne.symm hws.1) s.built.length with heq | hnone
      · exact heq ▸ h
      · exact .inr hnone

/-- A session is reused as long as fewer others than there is room for were
wanted since, each counted once; after that it is built again.  There are never
more sessions than there is room for. -/
theorem session_reused (capacity : Nat) (before after : List (Wanted C)) (w : Wanted C)
    (hw : w.key ∉ after.map Wanted.key) (policies : Option (Policies C)) (model : Model) :
    let got := ((new C capacity).run before).get w.key w.policies w.model
    let later := got.2.run after
    (later.get w.key policies model).1 =
      (if (after.map Wanted.key).dedup.length < max capacity 1 then got.1
      else later.built.length) ∧
    later.inner.entries.length ≤ max capacity 1 := by
  intro got later
  have hlater : later = (new C capacity).run (before ++ w :: after) :=
    (run_append _ before (w :: after)).symm
  obtain ⟨hfresh, hcapacity⟩ := (fresh_new (C := C) capacity).run (before ++ w :: after)
  rw [← hlater] at hfresh hcapacity
  have hcapacity : later.inner.capacity = max capacity 1 := hcapacity
  rw [List.map_append, List.map_cons] at hfresh
  have hkept := hfresh.recent.isSome_find?_iff (k := w.key)
  have hrecency : w.key ∈ (Lru.recency (before.map Wanted.key ++ w.key ::
      after.map Wanted.key)).take (max capacity 1) ↔
      (after.map Wanted.key).dedup.length < max capacity 1 := Lru.mem_take_recency_iff hw
  rw [hcapacity] at hkept
  have hfind : later.inner.find? w.key = some got.1 ∨ later.inner.find? w.key = none :=
    find?_run (.inl (Lru.find?_get_self _ _ _)) hw
  constructor
  · rcases hfind with hsome | hnone
    · rw [hsome] at hkept
      obtain ⟨e, he, _, hvalue⟩ := Lru.of_find? hsome
      rw [if_pos (hrecency.mp (hkept.mp rfl)), get_of_kept hsome (hvalue ▸ hfresh.built e he)]
    · rw [hnone] at hkept
      have hfull : ¬(after.map Wanted.key).dedup.length < max capacity 1 :=
        fun hlt => absurd (hkept.mpr (hrecency.mpr hlt)) (by simp)
      rw [if_neg hfull, get_of_not_kept hnone]
  · have hperm := hfresh.recent.keys_perm.length_eq
    rw [List.length_map, List.length_take, hcapacity] at hperm
    omega

/-- A session for a user where no policies are stored. -/
def wantedBy (user : String) : Wanted scopes :=
  ⟨⟨0, 1, ⟨user, []⟩, .server⟩, none, CachedSession.prices⟩

theorem session_reused_two :
    let ada := wantedBy "ada"
    let s := ((new scopes 2).get ada.key ada.policies ada.model).2
    ((s.run [wantedBy "bob", wantedBy "bob"]).get ada.key none ada.model).1 = 0 ∧
      ((s.run [wantedBy "bob", wantedBy "cyd"]).get ada.key none ada.model).1 = 3 := by
  intro ada s
  have hone := session_reused 2 [] [wantedBy "bob", wantedBy "bob"] ada (by decide) none ada.model
  have htwo := session_reused 2 [] [wantedBy "bob", wantedBy "cyd"] ada (by decide) none ada.model
  exact ⟨hone.1.trans (by decide), htwo.1.trans (by decide)⟩

end Sessions

/-! ## The stored policies -/

/-- A document: the policies' text and the groups. -/
structure Document where
  text : String
  groups : String

/-- Every document set, the oldest first, none where they were cleared.  The
version is how many times they were set or cleared. -/
structure PolicyStore where
  saved : List (Option Document)

namespace PolicyStore

variable (st : PolicyStore)

def policyVersion : Nat := st.saved.length

def savePolicies (d : Option Document) : PolicyStore := ⟨st.saved ++ [d]⟩

/-- The document stored at a version. -/
def document (v : Nat) : Option Document := if v = 0 then none else st.saved[v - 1]?.join

def loadPolicies : Option Document := st.document st.policyVersion

end PolicyStore

/-- What the readers of groups and of policies make of a document. -/
abbrev Reader (C : Engine) := Document → Option (Groups × List C.CedarPolicy)

variable {C : Engine}

/-- The policies of a document, where it is valid. -/
def Policies.parse (read : Reader C) (d : Document) : Option (Policies C) := do
  let parsed ← read d
  (check parsed.1 parsed.2).toOption

/-- The policies of what is stored, which may be none. -/
def storedPolicies (read : Reader C) : Option Document → Option (Option (Policies C))
  | none => some none
  | some d => (Policies.parse read d).map some

/-! ## Requests -/

/-- How far a request came: it holds the store and read the version, it knows
the policies, it has its session, or it is refused. -/
inductive Stage (C : Engine)
  | versionRead
  | current (policies : Option (Policies C))
  | opened (session : Nat)
  /-- The policies could not be read, or else are not valid. -/
  | closed (unread : Bool)

/-- A request under way, with the version of the policies it read. -/
structure Flight (C : Engine) where
  who : Principal
  model : Model
  structureVersion : Nat
  version : Nat
  stage : Stage C

/-- An answer, with the versions stored when the request began and when it was
given. -/
structure Answer where
  who : Principal
  model : Model
  action : Action
  resource : Resource
  began : Nat
  ended : Nat
  /-- Why every question is refused, if it is. -/
  closed : Option Bool
  allows : Bool

/-- A model served under the policies stored with it. -/
structure Server (C : Engine) where
  store : PolicyStore
  model : Model
  structureVersion : Nat
  loaded : Option (Nat × Option (Policies C))
  sessions : Sessions C
  /-- The request that holds the store. -/
  holder : Option Nat
  flights : List (Flight C)
  answers : List Answer

/-- What can happen: any writer stores policies, the structure or the cells
change, and requests take a step. -/
inductive Server.Event
  | save (d : Option Document)
  | restructure (model : Model)
  | cells (inputs : SortedMap Cell Value)
  | request (who : Principal) (readable : Bool)
  | load (i : Nat) (readable : Bool)
  | session (i : Nat)
  | ask (i : Nat) (a : Action) (r : Resource)

/-- A session's answer to a gate. -/
def CachedSession.access (s : CachedSession C) : Action → Resource → Asking C Bool
  | .readCell, .cell m coord => s.cell .readCell m coord
  | .editCell, .cell m coord => s.cell .editCell m coord
  | a, r => s.allowed a r

/-- Whether anything is restricted. -/
def CachedSession.restricted (s : CachedSession C) : Bool := s.policies.isSome

namespace Server

variable (read : Reader C) (channel : Channel)

def start (capacity : Nat) (model : Model) : Server C where
  store := ⟨[]⟩
  model
  structureVersion := 1
  loaded := none
  sessions := .new C capacity
  holder := none
  flights := []
  answers := []

/-- The policies at the version read: those loaded at it, or read again. -/
def current (s : Server C) (version : Nat) (readable : Bool) :
    Stage C × Option (Nat × Option (Policies C)) :=
  match s.loaded.filter (·.1 = version) with
  | some l => (.current l.2, s.loaded)
  | none =>
      if readable then
        match storedPolicies read s.store.loadPolicies with
        | none => (.closed false, s.loaded)
        | some p => (.current p, some (version, p))
      else (.closed true, s.loaded)

def answer (s : Server C) (f : Flight C) (a : Action) (r : Resource) (closed : Option Bool)
    (allows : Bool) : Answer :=
  ⟨f.who, f.model, a, r, f.version, s.store.policyVersion, closed, allows⟩

/-- A gate's question to the request's session. -/
def asked (s : Server C) (f : Flight C) (a : Action) (r : Resource) : Server C :=
  match f.stage with
  | .closed unread => { s with answers := s.answers ++ [s.answer f a r (some unread) false] }
  | .opened n =>
      match s.sessions.built[n]? with
      | none => s
      | some session =>
          if session.1.restricted then
            let given := (session.1.access a r).ask session.2
            { s with
              sessions.built := s.sessions.built.set n (session.1, given.2)
              answers := s.answers ++ [s.answer f a r none (given.1.toOption = some true)] }
          else { s with answers := s.answers ++ [s.answer f a r none true] }
  | _ => s

def step (s : Server C) : Event → Server C
  | .save d => { s with store := s.store.savePolicies d }
  | .restructure model => { s with model, structureVersion := s.structureVersion + 1 }
  | .cells inputs => { s with model.inputs := inputs }
  | .request who readable =>
      if s.holder.isSome then s
      else { s with
        holder := if readable then some s.flights.length else none
        flights := s.flights ++ [⟨who, s.model, s.structureVersion, s.store.policyVersion,
          if readable then .versionRead else .closed true⟩] }
  | .load i readable =>
      match s.flights[i]? with
      | some f =>
          if s.holder = some i then
            let now := s.current read f.version readable
            { s with
              loaded := now.2
              holder := none
              flights := s.flights.set i { f with stage := now.1 } }
          else s
      | none => s
  | .session i =>
      match s.flights[i]? with
      | some f =>
          match f.stage with
          | .current p =>
              let got := s.sessions.get ⟨f.version, f.structureVersion, f.who, channel⟩ p f.model
              { s with
                sessions := got.2
                flights := s.flights.set i { f with stage := .opened got.1 } }
          | _ => s
      | none => s
  | .ask i a r =>
      match s.flights[i]? with
      | some f => s.asked f a r
      | none => s

/-- The state a run of events leaves. -/
def run (s : Server C) (es : List Event) : Server C := es.foldl (step read channel) s

/-! ## What stays true while policies are stored -/

variable {read}

/-- Policies stored at a version or since. -/
def Since (read : Reader C) (st : PolicyStore) (v : Nat) (p : Option (Policies C)) : Prop :=
  ∃ w, v ≤ w ∧ w ≤ st.policyVersion ∧ storedPolicies read (st.document w) = some p

theorem document_savePolicies {st : PolicyStore} {w : Nat} (hw : w ≤ st.policyVersion)
    (d : Option Document) : (st.savePolicies d).document w = st.document w := by
  unfold PolicyStore.document
  by_cases hzero : w = 0
  · rw [if_pos hzero, if_pos hzero]
  · unfold PolicyStore.policyVersion at hw
    rw [if_neg hzero, if_neg hzero, PolicyStore.savePolicies,
      List.getElem?_append_left (by omega)]

theorem policyVersion_savePolicies (st : PolicyStore) (d : Option Document) :
    (st.savePolicies d).policyVersion = st.policyVersion + 1 := by
  simp [PolicyStore.savePolicies, PolicyStore.policyVersion]

theorem Since.save {st : PolicyStore} {v : Nat} {p : Option (Policies C)} (h : Since read st v p)
    (d : Option Document) : Since read (st.savePolicies d) v p := by
  obtain ⟨w, hvw, hw, hp⟩ := h
  refine ⟨w, hvw, ?_, (document_savePolicies hw d).symm ▸ hp⟩
  rw [policyVersion_savePolicies]
  exact Nat.le_succ_of_le hw

/-- Policies that are stored passed their check. -/
theorem check_of_storedPolicies {d : Option Document} {p : Policies C}
    (h : storedPolicies read d = some (some p)) :
    ∃ gs set, Policies.check gs set = .ok p := by
  cases d with
  | none => cases h
  | some d =>
      obtain ⟨q, hq, heq⟩ := Option.map_eq_some_iff.mp h
      cases heq
      obtain ⟨parsed, _, hcheck⟩ := Option.bind_eq_some_iff.mp hq
      refine ⟨parsed.1, parsed.2, ?_⟩
      cases hc : Policies.check (C := C) parsed.1 parsed.2 with
      | error e =>
          rw [hc] at hcheck
          cases hcheck
      | ok q' =>
          rw [hc] at hcheck
          exact congrArg Except.ok (Option.some.inj hcheck)

/-- A model whose item ids are 32-bit and whose measures list no category
twice. -/
structure Proper (model : Model) : Prop where
  ids : ∀ i c, (Structure.of model).items.get? i = some c → i.id ≤ u32Max
  categories : ∀ m x, (Structure.of model).measures.get? m = some x → x.categories.Nodup

/-- What a gate allows under some policies, none of which may be stored. -/
def permitted (p : Option (Policies C)) (model : Model) (who : Principal) (channel : Channel)
    (a : Action) (r : Resource) : Bool :=
  match p with
  | none => true
  | some p => p.permits model who channel a r

/-- A session that answers for policies stored at a version or since, over a
structure. -/
def Serves (read : Reader C) (st : PolicyStore) (v : Nat) (shape : Structure) (who : Principal)
    (channel : Channel) (session : CachedSession C × Kept C) : Prop :=
  ∃ p model, Since read st v p ∧ Structure.of model = shape ∧ Proper model ∧
    session.1 = .new p model who channel ∧
    ∀ q, p = some q → CachedSession.Right q model who channel session.2

theorem permitted_congr {p : Option (Policies C)} {model model' : Model} {who : Principal}
    {channel : Channel} (h : Structure.of model = Structure.of model') (a : Action)
    (r : Resource) : permitted p model who channel a r = permitted p model' who channel a r := by
  cases p with
  | none => rfl
  | some p =>
      unfold permitted Policies.permits Policies.authorize
      rw [h]

/-- A gate's question is one a session is asked. -/
theorem access_eq (s : CachedSession C) (a : Action) (r : Resource) (k : Kept C) :
    ∃ q, ((s.access a r).ask k).2 = s.after k q := by
  unfold CachedSession.access
  split
  · exact ⟨.cell _ _ _, rfl⟩
  · exact ⟨.cell _ _ _, rfl⟩
  · exact ⟨.allowed _ _, rfl⟩

theorem access_yields (hC : C.Lawful) {gs : Groups} {set : List C.CedarPolicy} {p : Policies C}
    (hp : Policies.check gs set = .ok p) {model : Model} (hmodel : Proper model) (who : Principal)
    (channel : Channel) (a : Action) (r : Resource) :
    Cached.Yields (CachedSession.Right p model who channel)
      ((CachedSession.session p model who channel).access a r)
      (.ok (p.permits model who channel a r)) := by
  have halike := CachedSession.alike hmodel.ids hp hC who channel
  rw [← CachedSession.allowed_afresh]
  unfold CachedSession.access
  split
  · exact CachedSession.cell_yields hC halike hmodel.categories (.inl rfl) _ _
  · exact CachedSession.cell_yields hC halike hmodel.categories (.inr rfl) _ _
  · exact CachedSession.allowed_yields hC halike hmodel.categories _ _

/-- What a session that serves answers, and that it serves after. -/
theorem Serves.access (hC : C.Lawful) {st : PolicyStore} {v : Nat} {shape : Structure}
    {who : Principal} {channel : Channel} {session : CachedSession C × Kept C}
    (h : Serves read st v shape who channel session) {model : Model}
    (hmodel : Structure.of model = shape) (a : Action) (r : Resource) :
    (∃ p, Since read st v p ∧ (if session.1.restricted then
      (((session.1.access a r).ask session.2).1.toOption = some true : Bool) else true) =
        permitted p model who channel a r) ∧
    Serves read st v shape who channel
      (session.1, ((session.1.access a r).ask session.2).2) := by
  obtain ⟨session, kept⟩ := session
  obtain ⟨p, made, hsince, hshape, hproper, rfl, hright⟩ := h
  have hcongr : permitted p made who channel a r = permitted p model who channel a r :=
    permitted_congr (hshape.trans hmodel.symm) a r
  cases p with
  | none => exact ⟨⟨none, hsince, rfl⟩, none, made, hsince, hshape, hproper, rfl, by simp⟩
  | some p =>
      obtain ⟨w, hw⟩ := hsince
      obtain ⟨gs, set, hcheck⟩ := check_of_storedPolicies hw.2.2
      have hyields := access_yields hC hcheck hproper who channel a r kept (hright p rfl)
      refine ⟨⟨some p, ⟨w, hw⟩, ?_⟩, some p, made, ⟨w, hw⟩, hshape, hproper, rfl, ?_⟩
      · rw [← hcongr]
        refine (if_pos rfl).trans ?_
        dsimp only
        rw [hyields.1]
        simp [permitted, Except.toOption]
      · intro q hq
        cases hq
        exact hyields.2

/-! ## The invariant -/

/-- A session built that serves. -/
def Opened (read : Reader C) (channel : Channel) (s : Server C) (v : Nat) (shape : Structure)
    (who : Principal) (n : Nat) : Prop :=
  ∃ session, s.sessions.built[n]? = some session ∧
    Serves read s.store v shape who channel session

/-- What is stored and built only grows. -/
structure Grown (read : Reader C) (channel : Channel) (s s' : Server C) : Prop where
  version : s.store.policyVersion ≤ s'.store.policyVersion
  document : ∀ w ≤ s.store.policyVersion, s'.store.document w = s.store.document w
  structureVersion : s.structureVersion ≤ s'.structureVersion
  opened : ∀ v shape who n, Opened read channel s v shape who n →
    Opened read channel s' v shape who n

/-- A request under way, where `shapes` are the structures of each number. -/
structure FlightOk (read : Reader C) (channel : Channel) (shapes : Nat → Structure)
    (s : Server C) (f : Flight C) : Prop where
  version : f.version ≤ s.store.policyVersion
  structureVersion : f.structureVersion ≤ s.structureVersion
  shape : shapes f.structureVersion = Structure.of f.model
  proper : Proper f.model
  current : ∀ p, f.stage = .current p → Since read s.store f.version p
  opened : ∀ n, f.stage = .opened n →
    Opened read channel s f.version (Structure.of f.model) f.who n
  invalid : f.stage = .closed false → ∃ w, f.version ≤ w ∧ w ≤ s.store.policyVersion ∧
    storedPolicies read (s.store.document w) = none

/-- An answer is right for policies stored while its request ran. -/
structure AnswerOk (read : Reader C) (channel : Channel) (st : PolicyStore) (x : Answer) :
    Prop where
  began : x.began ≤ x.ended
  ended : x.ended ≤ st.policyVersion
  right : x.closed = none → ∃ w p, x.began ≤ w ∧ w ≤ x.ended ∧
    storedPolicies read (st.document w) = some p ∧
    x.allows = permitted p x.model x.who channel x.action x.resource
  refused : x.closed ≠ none → x.allows = false
  invalid : x.closed = some false → ∃ w, x.began ≤ w ∧ w ≤ x.ended ∧
    storedPolicies read (st.document w) = none

/-- A session kept for a key. -/
def Keeps (read : Reader C) (channel : Channel) (shapes : Nat → Structure) (s : Server C)
    (key : SessionKey) (n : Nat) : Prop :=
  key.modelVersion ≤ s.structureVersion ∧
    Opened read channel s key.policyVersion (shapes key.modelVersion) key.principal n

/-- What every run keeps. -/
structure Consistent (read : Reader C) (channel : Channel) (shapes : Nat → Structure)
    (s : Server C) : Prop where
  proper : Proper s.model
  shape : shapes s.structureVersion = Structure.of s.model
  loaded : ∀ v p, s.loaded = some (v, p) → Since read s.store v p
  kept : s.sessions.inner.Each (Keeps read channel shapes s)
  flights : ∀ f ∈ s.flights, FlightOk read channel shapes s f
  answers : ∀ x ∈ s.answers, AnswerOk read channel s.store x

/-! ## What growing keeps -/

section

variable {channel : Channel} {shapes : Nat → Structure} {s s' : Server C}

theorem Grown.refl : Grown read channel s s where
  version := le_rfl
  document _ _ := rfl
  structureVersion := le_rfl
  opened _ _ _ _ h := h

/-- Growth where no policies are stored. -/
theorem Grown.of_store (hstore : s'.store = s.store)
    (hversion : s.structureVersion ≤ s'.structureVersion)
    (hopened : ∀ v shape who n, Opened read channel s v shape who n →
      Opened read channel s' v shape who n) : Grown read channel s s' where
  version := hstore ▸ le_rfl
  document _ _ := by rw [hstore]
  structureVersion := hversion
  opened := hopened

/-- Growth where nothing is stored or built. -/
theorem Grown.of_eq (hstore : s'.store = s.store) (hbuilt : s'.sessions.built = s.sessions.built)
    (hversion : s.structureVersion ≤ s'.structureVersion) : Grown read channel s s' := by
  refine .of_store hstore hversion fun v shape who n h => ?_
  unfold Opened at h ⊢
  rw [hstore, hbuilt]
  exact h

theorem Since.grown (h : Grown read channel s s') {v : Nat} {p : Option (Policies C)}
    (hp : Since read s.store v p) : Since read s'.store v p := by
  obtain ⟨w, hvw, hw, hp⟩ := hp
  exact ⟨w, hvw, hw.trans h.version, (h.document w hw).symm ▸ hp⟩

theorem FlightOk.grown (h : Grown read channel s s') {f : Flight C}
    (hf : FlightOk read channel shapes s f) {shapes' : Nat → Structure}
    (hshapes : ∀ n ≤ s.structureVersion, shapes' n = shapes n) :
    FlightOk read channel shapes' s' f where
  version := hf.version.trans h.version
  structureVersion := hf.structureVersion.trans h.structureVersion
  shape := (hshapes _ hf.structureVersion).trans hf.shape
  proper := hf.proper
  current p hp := (hf.current p hp).grown h
  opened n hn := h.opened _ _ _ _ (hf.opened n hn)
  invalid hclosed := by
    obtain ⟨w, hvw, hw, hnone⟩ := hf.invalid hclosed
    exact ⟨w, hvw, hw.trans h.version, (h.document w hw).symm ▸ hnone⟩

theorem AnswerOk.grown (h : Grown read channel s s') {x : Answer}
    (hx : AnswerOk read channel s.store x) : AnswerOk read channel s'.store x where
  began := hx.began
  ended := hx.ended.trans h.version
  right hopen := by
    obtain ⟨w, p, hb, he, hp, hallows⟩ := hx.right hopen
    exact ⟨w, p, hb, he, (h.document w (he.trans hx.ended)).symm ▸ hp, hallows⟩
  refused := hx.refused
  invalid hclosed := by
    obtain ⟨w, hb, he, hnone⟩ := hx.invalid hclosed
    exact ⟨w, hb, he, (h.document w (he.trans hx.ended)).symm ▸ hnone⟩

theorem Keeps.grown (h : Grown read channel s s') {shapes' : Nat → Structure}
    (hshapes : ∀ n ≤ s.structureVersion, shapes' n = shapes n) {key : SessionKey} {n : Nat}
    (hk : Keeps read channel shapes s key n) : Keeps read channel shapes' s' key n := by
  refine ⟨hk.1.trans h.structureVersion, ?_⟩
  rw [hshapes _ hk.1]
  exact h.opened _ _ _ _ hk.2

/-- A step that stores, builds and restructures nothing, and changes one
request at most. -/
theorem Consistent.grown (hs : Consistent read channel shapes s)
    (h : Grown read channel s s') (hmodel : Structure.of s'.model = Structure.of s.model)
    (hversion : s'.structureVersion = s.structureVersion)
    (hloaded : ∀ v p, s'.loaded = some (v, p) → Since read s'.store v p)
    (hkept : s'.sessions.inner.Each (Keeps read channel shapes s'))
    (hflights : ∀ f ∈ s'.flights, f ∈ s.flights ∨ FlightOk read channel shapes s' f)
    (hanswers : ∀ x ∈ s'.answers, x ∈ s.answers ∨ AnswerOk read channel s'.store x) :
    Consistent read channel shapes s' where
  proper := ⟨hmodel ▸ hs.proper.ids, hmodel ▸ hs.proper.categories⟩
  shape := by rw [hversion, hmodel, hs.shape]
  loaded := hloaded
  kept := hkept
  flights f hf := (hflights f hf).elim (fun hold => (hs.flights f hold).grown h fun _ _ => rfl) id
  answers x hx := (hanswers x hx).elim (fun hold => (hs.answers x hold).grown h) id

end

/-! ## The steps -/

section

variable {channel : Channel} {shapes : Nat → Structure} {s : Server C}

theorem grown_save (d : Option Document) :
    Grown read channel s (s.step read channel (.save d)) where
  version := (policyVersion_savePolicies s.store d).symm ▸ Nat.le_succ _
  document _ hw := document_savePolicies hw d
  structureVersion := le_rfl
  opened v shape who n := by
    rintro ⟨session, hn, p, model, hsince, hrest⟩
    exact ⟨session, hn, p, model, hsince.save d, hrest⟩

theorem Consistent.save (hs : Consistent read channel shapes s) (d : Option Document) :
    Consistent read channel shapes (s.step read channel (.save d)) :=
  hs.grown (grown_save d) rfl rfl (fun v p h => (hs.loaded v p h).grown (grown_save d))
    (hs.kept.imp fun _ _ hk => hk.grown (grown_save d) fun _ _ => rfl)
    (fun _ hf => .inl hf) fun _ hx => .inl hx

theorem Consistent.cells (hs : Consistent read channel shapes s)
    (inputs : SortedMap Cell Value) :
    Consistent read channel shapes (s.step read channel (.cells inputs)) :=
  have hgrown : Grown read channel s (s.step read channel (.cells inputs)) :=
    .of_eq rfl rfl le_rfl
  hs.grown hgrown rfl rfl (fun v p h => (hs.loaded v p h).grown hgrown)
    (hs.kept.imp fun _ _ hk => hk.grown hgrown fun _ _ => rfl)
    (fun _ hf => .inl hf) fun _ hx => .inl hx

theorem Consistent.restructure (hs : Consistent read channel shapes s) {model : Model}
    (hmodel : Proper model) :
    Consistent read channel
      (fun n => if n ≤ s.structureVersion then shapes n else Structure.of model)
      (s.step read channel (.restructure model)) := by
  have hgrown : Grown read channel s (s.step read channel (.restructure model)) :=
    .of_eq rfl rfl (Nat.le_succ _)
  have hshapes : ∀ n ≤ s.structureVersion,
      (if n ≤ s.structureVersion then shapes n else Structure.of model) = shapes n :=
    fun n hn => if_pos hn
  exact {
    proper := hmodel
    shape := if_neg (Nat.not_succ_le_self _)
    loaded := fun v p h => (hs.loaded v p h).grown hgrown
    kept := hs.kept.imp fun _ _ hk => hk.grown hgrown hshapes
    flights := fun f hf => (hs.flights f hf).grown hgrown hshapes
    answers := fun x hx => (hs.answers x hx).grown hgrown }

theorem Consistent.request (hs : Consistent read channel shapes s) (who : Principal)
    (readable : Bool) :
    Consistent read channel shapes (s.step read channel (.request who readable)) := by
  unfold step
  dsimp only
  split
  · exact hs
  · have hgrown : Grown read channel s { s with
        holder := if readable then some s.flights.length else none
        flights := s.flights ++ [⟨who, s.model, s.structureVersion, s.store.policyVersion,
          if readable then .versionRead else .closed true⟩] } := .of_eq rfl rfl le_rfl
    refine hs.grown hgrown rfl rfl hs.loaded
      (hs.kept.imp fun _ _ hk => hk.grown hgrown fun _ _ => rfl) (fun f hf => ?_)
      fun _ hx => .inl hx
    rcases List.mem_append.mp hf with hold | hnew
    · exact .inl hold
    · right
      rw [List.mem_singleton.mp hnew]
      refine ⟨le_rfl, le_rfl, hs.shape, hs.proper, fun p hp => ?_, fun n hn => ?_, fun hc => ?_⟩
      all_goals cases readable <;> simp at *

/-- What is known of the policies at the version read. -/
theorem Consistent.current (hs : Consistent read channel shapes s) {v : Nat}
    (hv : v ≤ s.store.policyVersion) (readable : Bool) :
    (∀ p, (s.current read v readable).1 = .current p → Since read s.store v p) ∧
    (∀ n, (s.current read v readable).1 ≠ .opened n) ∧
    ((s.current read v readable).1 = .closed false →
      storedPolicies read s.store.loadPolicies = none) ∧
    ∀ v' p, (s.current read v readable).2 = some (v', p) → Since read s.store v' p := by
  unfold Server.current
  split
  · rename_i l hl
    obtain ⟨hloaded, hversion⟩ := Option.filter_eq_some_iff.mp hl
    obtain rfl : l.1 = v := of_decide_eq_true hversion
    refine ⟨fun p hp => ?_, by simp, by simp, hs.loaded⟩
    cases hp
    exact hs.loaded _ _ hloaded
  · split
    · split
      · rename_i hnone
        exact ⟨by simp, by simp, fun _ => hnone, hs.loaded⟩
      · rename_i p hp
        have hsince : Since read s.store v p := ⟨s.store.policyVersion, hv, le_rfl, hp⟩
        refine ⟨fun q hq => ?_, by simp, by simp, fun v' q hq => ?_⟩
        · cases hq
          exact hsince
        · cases hq
          exact hsince
    · exact ⟨by simp, by simp, by simp, hs.loaded⟩

theorem Consistent.load (hs : Consistent read channel shapes s) (i : Nat) (readable : Bool) :
    Consistent read channel shapes (s.step read channel (.load i readable)) := by
  unfold step
  dsimp only
  split
  · rename_i f hi
    split
    · have hf := hs.flights f (List.mem_of_getElem? hi)
      obtain ⟨hcurrent, hopened, hclosed, hloaded⟩ := hs.current hf.version readable
      have hgrown : Grown read channel s { s with
          loaded := (s.current read f.version readable).2
          holder := none
          flights := s.flights.set i { f with stage := (s.current read f.version readable).1 } } :=
        .of_eq rfl rfl le_rfl
      refine hs.grown hgrown rfl rfl hloaded
        (hs.kept.imp fun _ _ hk => hk.grown hgrown fun _ _ => rfl) (fun g hg => ?_)
        fun _ hx => .inl hx
      rcases List.mem_or_eq_of_mem_set hg with hold | rfl
      · exact .inl hold
      · exact .inr ⟨hf.version, hf.structureVersion, hf.shape, hf.proper, hcurrent,
          fun n hn => absurd hn (hopened n),
          fun hc => ⟨s.store.policyVersion, hf.version, le_rfl, hclosed hc⟩⟩
    · exact hs
  · exact hs

/-- A session got for a key serves it. -/
theorem Consistent.get (hs : Consistent read channel shapes s) {f : Flight C}
    (hf : FlightOk read channel shapes s f) {p : Option (Policies C)}
    (hp : Since read s.store f.version p) :
    let got := s.sessions.get ⟨f.version, f.structureVersion, f.who, channel⟩ p f.model
    Grown read channel s { s with sessions := got.2 } ∧
      got.2.inner.Each (Keeps read channel shapes { s with sessions := got.2 }) ∧
      Opened read channel { s with sessions := got.2 } f.version (Structure.of f.model) f.who
        got.1 := by
  rw [← hf.shape]
  cases hfind : s.sessions.inner.find? ⟨f.version, f.structureVersion, f.who, channel⟩ with
  | some n =>
      have hkept := hs.kept.get s.sessions.built.length
        fun hnone => absurd (hnone.symm.trans hfind) (by simp)
      rw [Lru.get_of_find? hfind] at hkept
      obtain ⟨_, session, hn, hserves⟩ := hkept.1
      rw [Sessions.get_of_kept hfind (List.getElem?_eq_some_iff.mp hn).1]
      exact ⟨.of_eq rfl rfl le_rfl, hkept.2, session, hn, hserves⟩
  | none =>
      rw [Sessions.get_of_not_kept hfind]
      have hopened : ∀ v shape who n, Opened read channel s v shape who n →
          Opened read channel { s with sessions.built := s.sessions.built ++
            [(.new p f.model f.who channel, .empty C)] } v shape who n := by
        rintro v shape who n ⟨session, hn, hserves⟩
        exact ⟨session, (List.getElem?_append_left (List.getElem?_eq_some_iff.mp hn).1).trans hn,
          hserves⟩
      have hgrown : Grown read channel s { s with sessions.built := s.sessions.built ++
          [(.new p f.model f.who channel, .empty C)] } := .of_store rfl le_rfl hopened
      have hnew : Opened read channel { s with sessions.built := s.sessions.built ++
          [(.new p f.model f.who channel, .empty C)] } f.version (shapes f.structureVersion) f.who
          s.sessions.built.length :=
        ⟨(.new p f.model f.who channel, .empty C), by simp, p, f.model, hp, hf.shape.symm,
          hf.proper, rfl, fun q _ => CachedSession.right_empty⟩
      have hkept : s.sessions.inner.Each (Keeps read channel shapes { s with
          sessions.built := s.sessions.built ++ [(.new p f.model f.who channel, .empty C)] }) :=
        hs.kept.imp fun _ _ hk => hk.grown hgrown fun _ _ => rfl
      exact ⟨.of_store rfl le_rfl hopened,
        (hkept.get _ fun _ => ⟨hf.structureVersion, hnew⟩).2, hnew⟩

theorem Consistent.session (hs : Consistent read channel shapes s) (i : Nat) :
    Consistent read channel shapes (s.step read channel (.session i)) := by
  unfold step
  dsimp only
  split
  · rename_i f hi
    split
    · rename_i p hstage
      have hf := hs.flights f (List.mem_of_getElem? hi)
      obtain ⟨hgrown, hkept, hopened⟩ := hs.get hf (hf.current p hstage)
      refine hs.grown (.of_store rfl le_rfl hgrown.opened) rfl rfl hs.loaded hkept (fun g hg => ?_)
        fun _ hx => .inl hx
      rcases List.mem_or_eq_of_mem_set hg with hold | rfl
      · exact .inl hold
      · refine .inr ⟨hf.version, hf.structureVersion, hf.shape, hf.proper,
          by simp, fun n hn => ?_, by simp⟩
        cases hn
        exact hopened
    · exact hs
  · exact hs

/-- A session that was asked, and its answer. -/
theorem Consistent.answered (hs : Consistent read channel shapes s)
    {built : List (CachedSession C × Kept C)}
    (hopened : ∀ v shape who n, Opened read channel s v shape who n →
      Opened read channel { s with sessions.built := built } v shape who n)
    {x : Answer} (hx : AnswerOk read channel s.store x) :
    Consistent read channel shapes
      { s with sessions.built := built, answers := s.answers ++ [x] } := by
  have hgrown : Grown read channel s
      { s with sessions.built := built, answers := s.answers ++ [x] } :=
    .of_store rfl le_rfl hopened
  refine hs.grown hgrown rfl rfl hs.loaded
    (hs.kept.imp fun _ _ hk => hk.grown hgrown fun _ _ => rfl) (fun _ hf => .inl hf)
    fun y hy => ?_
  rcases List.mem_append.mp hy with hold | hnew
  · exact .inl hold
  · rw [List.mem_singleton.mp hnew]
    exact .inr hx

theorem Consistent.ask (hC : C.Lawful) (hs : Consistent read channel shapes s) (i : Nat)
    (a : Action) (r : Resource) :
    Consistent read channel shapes (s.step read channel (.ask i a r)) := by
  unfold step
  dsimp only
  split
  · rename_i f hi
    have hf := hs.flights f (List.mem_of_getElem? hi)
    unfold asked
    split
    · rename_i unread hstage
      refine hs.answered (fun _ _ _ _ h => h)
        ⟨hf.version, le_rfl, by simp [answer], fun _ => rfl, fun hc => ?_⟩
      obtain rfl : unread = false := Option.some.inj hc
      exact hf.invalid hstage
    · rename_i n hstage
      obtain ⟨session, hn, hserves⟩ := hf.opened n hstage
      obtain ⟨⟨p, ⟨w, hvw, hw, hp⟩, hallows⟩, _⟩ := hserves.access hC rfl a r
      rw [hn]
      dsimp only
      split
      · rename_i hrestricted
        rw [if_pos hrestricted] at hallows
        refine hs.answered ?_ ⟨hf.version, le_rfl, fun _ => ⟨w, p, hvw, hw, hp, hallows⟩,
          fun hc => absurd rfl hc, fun hc => by cases hc⟩
        -- The session asked serves whomever it served.
        rintro v shape who m ⟨session', hm, hserves'⟩
        by_cases heq : n = m
        · subst heq
          cases hn.symm.trans hm
          refine ⟨_, List.getElem?_set_self (List.getElem?_eq_some_iff.mp hn).1, ?_⟩
          have hmade := hserves'
          obtain ⟨_, made, _, hmade, _⟩ := hmade
          exact (Serves.access hC hserves' hmade a r).2
        · exact ⟨session', (List.getElem?_set_ne heq).trans hm, hserves'⟩
      · rename_i hrestricted
        rw [if_neg hrestricted] at hallows
        exact hs.answered (fun _ _ _ _ h => h)
          ⟨hf.version, le_rfl, fun _ => ⟨w, p, hvw, hw, hp, hallows⟩,
            fun hc => absurd rfl hc, fun hc => by cases hc⟩
    · exact hs
  · exact hs

end

/-! ## Every run -/

/-- An event that brings in proper models only. -/
def Event.Proper : Event → Prop
  | .restructure model => Server.Proper model
  | _ => True

theorem consistent_start {channel : Channel} (capacity : Nat) {model : Model}
    (hmodel : Proper model) :
    Consistent read channel (fun _ => Structure.of model) (start (C := C) capacity model) where
  proper := hmodel
  shape := rfl
  loaded _ _ h := by cases h
  kept := Lru.each_empty _
  flights _ h := by cases h
  answers _ h := by cases h

theorem Consistent.step (hC : C.Lawful) {channel : Channel} {shapes : Nat → Structure}
    {s : Server C} (hs : Consistent read channel shapes s) {e : Event} (he : e.Proper) :
    ∃ shapes', Consistent read channel shapes' (s.step read channel e) := by
  cases e with
  | save d => exact ⟨_, hs.save d⟩
  | restructure model => exact ⟨_, hs.restructure he⟩
  | cells inputs => exact ⟨_, hs.cells inputs⟩
  | request who readable => exact ⟨_, hs.request who readable⟩
  | load i readable => exact ⟨_, hs.load i readable⟩
  | session i => exact ⟨_, hs.session i⟩
  | ask i a r => exact ⟨_, hs.ask hC i a r⟩

theorem Consistent.run (hC : C.Lawful) {channel : Channel} {shapes : Nat → Structure}
    {s : Server C} (hs : Consistent read channel shapes s) {es : List Event}
    (hes : ∀ e ∈ es, e.Proper) :
    ∃ shapes', Consistent read channel shapes' (s.run read channel es) := by
  induction es generalizing s shapes with
  | nil => exact ⟨shapes, hs⟩
  | cons e es ih =>
      obtain ⟨shapes', hs'⟩ := hs.step hC (hes e List.mem_cons_self)
      exact ih hs' fun e' he' => hes e' (List.mem_cons_of_mem _ he')

/-- However policies are stored, the model changes and requests interleave, an
answer given is the composite rule's for policies stored between the request's
beginning and the answer, over the model it began with.  A request is refused
throughout where the policies could not be read, or were not valid then. -/
theorem decisions_current (hC : C.Lawful) (read : Reader C) (channel : Channel) (capacity : Nat)
    {model : Model} (hmodel : Proper model) {es : List Event} (hes : ∀ e ∈ es, e.Proper) :
    let s := (start (C := C) capacity model).run read channel es
    ∀ x ∈ s.answers, x.began ≤ x.ended ∧ x.ended ≤ s.store.policyVersion ∧
      match x.closed with
      | none => ∃ w p, x.began ≤ w ∧ w ≤ x.ended ∧
          storedPolicies read (s.store.document w) = some p ∧
          x.allows = permitted p x.model x.who channel x.action x.resource
      | some unread => x.allows = false ∧ (unread = false → ∃ w, x.began ≤ w ∧ w ≤ x.ended ∧
          storedPolicies read (s.store.document w) = none) := by
  intro s x hx
  have hstart : Consistent read channel (fun _ => Structure.of model)
      (start (C := C) capacity model) := consistent_start capacity hmodel
  obtain ⟨shapes, hs⟩ := hstart.run hC hes
  have hok := hs.answers x hx
  refine ⟨hok.began, hok.ended, ?_⟩
  split
  · rename_i hclosed
    exact hok.right hclosed
  · rename_i unread hclosed
    refine ⟨hok.refused (by simp [hclosed]), ?_⟩
    rintro rfl
    exact hok.invalid hclosed

/-- Reads the document of `readers` alone. -/
def readReaders : Reader scopes := fun d =>
  if d.text = "readers" then some (CachedSession.interns, CachedSession.readers) else none

theorem proper_prices : Proper CachedSession.prices where
  ids i c hc := by
    have hall : ∀ q ∈ (Structure.of CachedSession.prices).items.entries, q.1.id ≤ u32Max := by
      decide +kernel
    exact hall (i, c) (SortedMap.get?_eq_some_iff.mp hc)
  categories m x hx := by
    have hall : ∀ q ∈ (Structure.of CachedSession.prices).measures.entries,
        q.2.categories.Nodup := by
      decide +kernel
    exact hall (m, x) (SortedMap.get?_eq_some_iff.mp hx)

def falcon : Resource := .cell ⟨101⟩ (.fromPairs [(⟨1⟩, ⟨7⟩)])

/-- A request under stored policies, and one after they were cleared. -/
def readersEvents : List Event :=
  [.save (some ⟨"readers", ""⟩), .request ⟨"ada", []⟩ true, .load 0 true, .session 0,
    .ask 0 .readCell falcon, .save none, .request ⟨"ada", []⟩ true, .load 1 true, .session 1,
    .ask 1 .readCell falcon]

/-- What a request that ran under one version was answered. -/
def falconAnswer (version : Nat) (allows : Bool) : Answer :=
  ⟨⟨"ada", []⟩, CachedSession.prices, .readCell, falcon, version, version, none, allows⟩

theorem decisions_current_readers :
    ((start (C := scopes) 2 CachedSession.prices).run readReaders .server readersEvents).answers =
      [falconAnswer 1 false, falconAnswer 2 true] := by
  have hes : ∀ e ∈ readersEvents, e.Proper := by simp [readersEvents, Event.Proper]
  have hall := decisions_current scopes_lawful readReaders .server 2 proper_prices hes
  dsimp only at hall
  generalize hs : (start (C := scopes) 2 CachedSession.prices).run readReaders .server
    readersEvents = s at hall ⊢
  have hanswers : ∃ b b', s.answers = [falconAnswer 1 b, falconAnswer 2 b'] :=
    hs ▸ ⟨_, _, rfl⟩
  have hone : storedPolicies readReaders (s.store.document 1) =
      some (some CachedSession.readersDocument) := hs ▸ rfl
  have htwo : storedPolicies readReaders (s.store.document 2) = some none := hs ▸ rfl
  obtain ⟨b, b', hb⟩ := hanswers
  rw [hb] at hall ⊢
  obtain ⟨_, _, w, p, hw, hw', hp, hallows⟩ := hall (falconAnswer 1 b) (by simp)
  obtain ⟨_, _, w', p', hw₂, hw₂', hp', hallows'⟩ := hall (falconAnswer 2 b') (by simp)
  obtain rfl : w = 1 := Nat.le_antisymm hw' hw
  obtain rfl : w' = 2 := Nat.le_antisymm hw₂' hw₂
  cases hone.symm.trans hp
  cases htwo.symm.trans hp'
  have hdenied : CachedSession.readersDocument.permits CachedSession.prices ⟨"ada", []⟩ .server
      .readCell falcon = false := by
    unfold Policies.permits Policies.authorize
    rw [show CachedSession.readersDocument.groups.of "ada" = ["interns"] from
      CachedSession.interns_of_ada]
    decide +kernel
  rw [show b = false from hallows.trans hdenied, show b' = true from hallows']

end Server

end Improv.Policy.Cedar
