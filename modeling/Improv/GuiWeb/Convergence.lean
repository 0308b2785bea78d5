import Improv.GuiWeb.App
/-!
# Convergence

What holds of the app between what it has taken in and what is still under way:
a cell it knows is as the authority has it, or a later event tells of it, or an
edit made here is not answered.  A reply that was overtaken breaks this.
-/

namespace Improv.GuiWeb

open Improv.Lib Improv.CoreModel

variable {T V : Type}

namespace System

/-! ## What is under way -/

/-- A reply is under way or arrived. -/
def Coming (s : System T V) (ticket : Nat) (r : Option (Response T V)) : Prop :=
  (ticket, r) ∈ s.replies ∨ .reply ticket r ∈ s.app.out

/-- The structure is asked for. -/
def Reloading (s : System T V) : Prop := ∃ t, s.app.pending.get? t = some .readStructure

/-- The structure is asked for by another request. -/
def ReloadingBut (s : System T V) (ticket : Nat) : Prop :=
  ∃ t, t ≠ ticket ∧ s.app.pending.get? t = some .readStructure

/-- An edit of the cell made here is not known to have succeeded. -/
def Unanswered (s : System T V) (k : Cell) : Prop :=
  ∃ t, s.app.pending.get? t = some (.cell k) ∧ ∀ r, ¬s.Coming t (some r)

/-- A value is the cell's, or is going to be replaced: an event after version `p`
tells of the cell, or an edit made here is unanswered. -/
def Sound (s : System T V) (p : Nat) (k : Cell) (v : Option V) : Prop :=
  s.auth.TouchedSince p k ∨ v = s.auth.values.get? k ∨ s.Unanswered k

/-- A structure is the authority's, or an event after version `p` reloads. -/
def SoundStructure (s : System T V) (p : Nat) (t : T) : Prop :=
  s.auth.RestructuredSince p ∨ t = s.auth.struct

/-- All that the app shows is sound. -/
structure Current (s : System T V) (p : Nat) : Prop where
  struct : s.SoundStructure p s.app.struct
  cells : ∀ k, s.app.cache.get k ≠ .notLoaded → s.Sound p k (s.app.cache.cells.get? k)

/-- The app's structure is asked for, or all it shows is sound. -/
def Fresh (s : System T V) (p : Nat) : Prop := s.Reloading ∨ s.Current p

/-- Tickets name one request each. -/
structure Ticketed (s : System T V) : Prop where
  pending : ∀ t w, s.app.pending.get? t = some w → t < s.app.next ∧
    ((∃ q, (t, q) ∈ s.requests) ∨ (∃ r, s.Coming t r) ∨ .loggedOut ∈ s.app.out)
  requests : ∀ t q, (t, q) ∈ s.requests → t < s.app.next ∧ (∀ r, ¬s.Coming t r) ∧
    ∀ w, s.app.pending.get? t = some w → w = q.why
  coming : ∀ t r, s.Coming t r → t < s.app.next ∧ ∀ r', s.Coming t r' → r' = r
  apart : ∀ t r r', (t, r) ∈ s.replies → .reply t r' ∉ s.app.out

/-- The events of the stream that arrived. -/
def arrived (s : System T V) : List (ChangeEvent V) :=
  s.app.out.filterMap fun ev =>
    match ev with
    | .changed ev => some ev
    | _ => none

structure Inv (s : System T V) : Prop where
  tickets : s.Ticketed
  heard : ∀ n, s.heard = some n → n ≤ s.auth.version
  seen : ∀ n, s.app.seen = some n → n ≤ s.auth.version
  arrived : s.auth.TellAll s.heard s.arrived s.app.seen
  queued : ∀ st, s.stream = some st → s.auth.TellAll s.app.seen st.queue (some st.sent)
  fresh : s.app.login = .loggedIn → ∀ p, s.heard = some p → s.Fresh p

theorem inv_start (auth : Authority T V) (blank : T) : (start auth blank).Inv where
  tickets := by
    refine ⟨fun t w h => ?_, fun t q h => ?_, fun t r h => ?_, fun t r r' h => ?_⟩
    · cases h
    · cases h
    · rcases h with h | h <;> cases h
    · cases h
  heard n h := by cases h
  seen n h := by cases h
  arrived := .inl rfl
  queued st h := by cases h
  fresh h := by cases h

/-- Where nothing is under way all that is sound is right. -/
theorem Inv.converged {s : System T V} (h : s.Inv) : s.Converged := by
  intro ⟨hlogin, hrequests, hreplies, hout, st, hst, hqueue, hsent⟩
  have hcoming : ∀ t r, ¬s.Coming t r := by
    intro t r hr
    unfold Coming at hr
    rw [hreplies, hout] at hr
    rcases hr with hr | hr <;> cases hr
  have hpending : ∀ t w, s.app.pending.get? t ≠ some w := by
    intro t w hw
    rcases (h.tickets.pending t w hw).2 with ⟨q, hq⟩ | ⟨r, hr⟩ | hlogged
    · rw [hrequests] at hq
      cases hq
    · exact hcoming t r hr
    · rw [hout] at hlogged
      cases hlogged
  have harrived := h.arrived
  have hqueued := h.queued st hst
  have hnone : s.arrived = [] := by
    unfold System.arrived
    rw [hout]
    rfl
  rw [hnone] at harrived
  rw [hqueue, hsent] at hqueued
  obtain ⟨p, hp, hpass⟩ : ∃ p, s.heard = some p ∧
      s.auth.Passed p s.auth.version fun _ => False := by
    obtain ⟨q, hq, hpass⟩ : ∃ q, s.app.seen = some q ∧
        s.auth.Passed q s.auth.version fun _ => False := by
      rcases hqueued with heq | ⟨n, m, hn, hm, hpass⟩
      · exact ⟨_, heq, Authority.Passed.refl (Nat.le_refl _)⟩
      · rw [Option.some.inj hm]
        exact ⟨n, hn, hpass⟩
    rcases harrived with heq | ⟨n, m, hn, hm, hpass'⟩
    · exact ⟨q, heq.trans hq, hpass⟩
    · rw [← Option.some.inj (hm.symm.trans hq)] at hpass
      exact ⟨n, hn, hpass'.trans hpass⟩
  have hcurrent : s.Current p := by
    refine (h.fresh hlogin p hp).resolve_left fun ⟨t, ht⟩ => ?_
    exact hpending t _ ht
  refine ⟨?_, fun k hk => ?_⟩
  · refine hcurrent.struct.resolve_left fun hr => ?_
    exact Authority.not_restructuredSince_version (hpass.struct hr)
  · rw [Cache.get_eq_ofOption_iff hk]
    rcases hcurrent.cells k hk with htouched | hv | ⟨t, ht, _⟩
    · exact absurd ((hpass.cells k htouched).resolve_right id)
        (Authority.not_touchedSince_version k)
    · exact hv
    · exact absurd ht (hpending t _)

/-! ## Tickets -/

theorem mem_of_lookup {α : Type} {l : List (Nat × α)} {t : Nat} {a : α}
    (h : l.lookup t = some a) : (t, a) ∈ l := by
  obtain ⟨before, later, rfl, _⟩ := List.lookup_eq_some_iff.mp h
  exact List.mem_append_right _ List.mem_cons_self

variable {s s' : System T V}

theorem Ticketed.ask (h : s.Ticketed) (q : Request V) : (s.ask q).Ticketed where
  pending t w hw := by
    simp only [System.ask, SortedMap.get?_insert] at hw
    by_cases ht : t = s.app.next
    · rw [ht]
      refine ⟨Nat.lt_succ_self _, .inl ⟨q, ?_⟩⟩
      exact List.mem_append_right _ (List.mem_singleton_self _)
    · rw [if_neg ht] at hw
      have ⟨hlt, hunder⟩ := h.pending t w hw
      refine ⟨Nat.lt_succ_of_lt hlt, hunder.imp_left fun ⟨q', hq'⟩ => ⟨q', ?_⟩⟩
      exact List.mem_append_left _ hq'
  requests t q' hq' := by
    rcases List.mem_append.mp hq' with hold | hnew
    · have ⟨hlt, hcoming, hwhy⟩ := h.requests t q' hold
      refine ⟨Nat.lt_succ_of_lt hlt, hcoming, fun w hw => hwhy w ?_⟩
      simp only [System.ask, SortedMap.get?_insert] at hw
      rwa [if_neg (by omega)] at hw
    · rw [List.mem_singleton] at hnew
      cases hnew
      refine ⟨Nat.lt_succ_self _, fun r hr => ?_, fun w hw => ?_⟩
      · exact Nat.lt_irrefl _ (h.coming _ r hr).1
      · simp only [System.ask, SortedMap.get?_insert_self, Option.some.injEq] at hw
        exact hw.symm
  coming t r hr := by
    have ⟨hlt, hsame⟩ := h.coming t r hr
    exact ⟨Nat.lt_succ_of_lt hlt, hsame⟩
  apart := h.apart

/-- A ticket's reply is now `r`. -/
structure Replied (s s' : System T V) (ticket : Nat) (r : Option (Response T V)) : Prop where
  app : s'.app = s.app
  requests : s'.requests = s.requests.filter fun q => q.1 ≠ ticket
  replies : ∀ t x, (t, x) ∈ s'.replies ↔ ((t, x) ∈ s.replies ∧ t ≠ ticket) ∨ (t = ticket ∧ x = r)
  asked : (∃ q, (ticket, q) ∈ s.requests) ∨ ∃ x, (ticket, x) ∈ s.replies

theorem Replied.coming_iff (hs : s.Ticketed) {ticket : Nat} {r : Option (Response T V)}
    (h : Replied s s' ticket r) (t : Nat) (x : Option (Response T V)) :
    s'.Coming t x ↔ (s.Coming t x ∧ t ≠ ticket) ∨ (t = ticket ∧ x = r) := by
  have hout : ∀ x, .reply ticket x ∉ s.app.out := by
    intro x hx
    rcases h.asked with ⟨q, hq⟩ | ⟨y, hy⟩
    · exact (hs.requests ticket q hq).2.1 x (.inr hx)
    · exact hs.apart ticket y x hy hx
  unfold Coming
  rw [h.replies, h.app]
  by_cases ht : t = ticket
  · subst ht
    simp [hout]
  · simp [ht]

theorem Ticketed.replied (hs : s.Ticketed) {ticket : Nat} {r : Option (Response T V)}
    (h : Replied s s' ticket r) : s'.Ticketed where
  pending t w hw := by
    rw [h.app] at hw ⊢
    have ⟨hlt, hunder⟩ := hs.pending t w hw
    refine ⟨hlt, ?_⟩
    by_cases ht : t = ticket
    · exact .inr (.inl ⟨r, (h.coming_iff hs t r).mpr (.inr ⟨ht, rfl⟩)⟩)
    · refine hunder.imp (fun ⟨q, hq⟩ => ⟨q, ?_⟩) (Or.imp_left fun ⟨x, hx⟩ => ⟨x, ?_⟩)
      · rw [h.requests]
        exact List.mem_filter.mpr ⟨hq, by simpa using ht⟩
      · exact (h.coming_iff hs t x).mpr (.inl ⟨hx, ht⟩)
  requests t q hq := by
    rw [h.requests] at hq
    have ⟨hold, hne⟩ := List.mem_filter.mp hq
    have ⟨hlt, hcoming, hwhy⟩ := hs.requests t q hold
    rw [h.app]
    refine ⟨hlt, fun x hx => ?_, hwhy⟩
    rcases (h.coming_iff hs t x).mp hx with ⟨hx, _⟩ | ⟨ht, _⟩
    · exact hcoming x hx
    · rw [ht] at hne
      simp at hne
  coming t x hx := by
    rw [h.app]
    rcases (h.coming_iff hs t x).mp hx with ⟨hold, hne⟩ | ⟨ht, hxr⟩
    · have ⟨hlt, hsame⟩ := hs.coming t x hold
      refine ⟨hlt, fun y hy => ?_⟩
      rcases (h.coming_iff hs t y).mp hy with ⟨hy, _⟩ | ⟨ht, _⟩
      · exact hsame y hy
      · exact absurd ht hne
    · refine ⟨?_, fun y hy => ?_⟩
      · rw [ht]
        rcases h.asked with ⟨q, hq⟩ | ⟨y, hy⟩
        · exact (hs.requests ticket q hq).1
        · exact (hs.coming ticket y (.inl hy)).1
      · rcases (h.coming_iff hs t y).mp hy with ⟨_, hne⟩ | ⟨_, hyr⟩
        · exact absurd ht hne
        · rw [hyr, hxr]
  apart t x y hx hy := by
    rw [h.app] at hy
    rcases (h.replies t x).mp hx with ⟨hold, _⟩ | ⟨ht, _⟩
    · exact hs.apart t x y hold hy
    · rw [ht] at hy
      rcases h.asked with ⟨q, hq⟩ | ⟨z, hz⟩
      · exact (hs.requests ticket q hq).2.1 y (.inr hy)
      · exact hs.apart ticket z y hz hy

/-- A reply arrives. -/
theorem Ticketed.arrive (hs : s.Ticketed) {ticket : Nat} {r : Option (Response T V)}
    (hr : (ticket, r) ∈ s.replies) :
    ({ s with replies := s.replies.filter fun q => q.1 ≠ ticket }.receive
      (.reply ticket r)).Ticketed ∧
    ∀ t x, ({ s with replies := s.replies.filter fun q => q.1 ≠ ticket }.receive
      (.reply ticket r)).Coming t x ↔ s.Coming t x := by
  have hcoming : ∀ t x, ({ s with replies := s.replies.filter fun q => q.1 ≠ ticket }.receive
      (.reply ticket r)).Coming t x ↔ s.Coming t x := by
    intro t x
    unfold Coming receive
    simp only [List.mem_filter, List.mem_append, List.mem_singleton, Event.reply.injEq,
      decide_eq_true_eq]
    constructor
    · rintro (⟨hx, _⟩ | hx | ⟨rfl, rfl⟩)
      · exact .inl hx
      · exact .inr hx
      · exact .inl hr
    · rintro (hx | hx)
      · by_cases ht : t = ticket
        · right
          right
          rw [ht] at hx
          exact ⟨ht, (hs.coming ticket r (.inl hr)).2 x (.inl hx)⟩
        · exact .inl ⟨hx, ht⟩
      · exact .inr (.inl hx)
  refine ⟨⟨fun t w hw => ?_, fun t q hq => ?_, fun t x hx => ?_, fun t x y hx hy => ?_⟩, hcoming⟩
  · have ⟨hlt, hunder⟩ := hs.pending t w hw
    refine ⟨hlt, hunder.imp_right (Or.imp (fun ⟨x, hx⟩ => ⟨x, (hcoming t x).mpr hx⟩) fun hl => ?_)⟩
    exact List.mem_append_left _ hl
  · have ⟨hlt, hnone, hwhy⟩ := hs.requests t q hq
    exact ⟨hlt, fun x hx => hnone x ((hcoming t x).mp hx), hwhy⟩
  · have ⟨hlt, hsame⟩ := hs.coming t x ((hcoming t x).mp hx)
    exact ⟨hlt, fun y hy => hsame y ((hcoming t y).mp hy)⟩
  · have ⟨hold, hne⟩ := List.mem_filter.mp hx
    rcases List.mem_append.mp hy with hy | hy
    · exact hs.apart t x y hold hy
    · rw [List.mem_singleton] at hy
      cases hy
      simp at hne

theorem loggedOut_ne_reply : ∀ t r, (.loggedOut : Event T V) ≠ .reply t r :=
  fun _ _ heq => by cases heq

/-- Another event arrives. -/
theorem Ticketed.receive (hs : s.Ticketed) {ev : Event T V} (hev : ∀ t r, ev ≠ .reply t r) :
    (s.receive ev).Ticketed ∧ ∀ t x, (s.receive ev).Coming t x ↔ s.Coming t x := by
  have hcoming : ∀ t x, (s.receive ev).Coming t x ↔ s.Coming t x := by
    intro t x
    have hne : Event.reply t x ≠ ev := fun h => hev t x h.symm
    unfold Coming System.receive
    simp only [List.mem_append, List.mem_singleton, hne, or_false]
  refine ⟨⟨fun t w hw => ?_, fun t q hq => ?_, fun t x hx => ?_, fun t x y hx hy => ?_⟩, hcoming⟩
  · have ⟨hlt, hunder⟩ := hs.pending t w hw
    refine ⟨hlt, hunder.imp_right (Or.imp (fun ⟨x, hx⟩ => ⟨x, (hcoming t x).mpr hx⟩) fun hl => ?_)⟩
    exact List.mem_append_left _ hl
  · have ⟨hlt, hnone, hwhy⟩ := hs.requests t q hq
    exact ⟨hlt, fun x hx => hnone x ((hcoming t x).mp hx), hwhy⟩
  · have ⟨hlt, hsame⟩ := hs.coming t x ((hcoming t x).mp hx)
    exact ⟨hlt, fun y hy => hsame y ((hcoming t y).mp hy)⟩
  · rcases List.mem_append.mp hy with hy | hy
    · exact hs.apart t x y hx hy
    · rw [List.mem_singleton] at hy
      exact hev t y hy.symm

/-- A request is refused for its token, which logs the app out. -/
theorem Ticketed.refuse (hs : s.Ticketed) (ticket : Nat) :
    ({ s with requests := s.requests.filter fun q => q.1 ≠ ticket }.receive
      .loggedOut).Ticketed where
  pending t w hw := by
    refine ⟨(hs.pending t w hw).1, .inr (.inr ?_)⟩
    exact List.mem_append_right _ (List.mem_singleton_self _)
  requests t q hq := by
    have ⟨hlt, hnone, hwhy⟩ := hs.requests t q (List.mem_filter.mp hq).1
    refine ⟨hlt, fun x hx => hnone x ?_, hwhy⟩
    exact ((hs.receive loggedOut_ne_reply).2 t x).mp hx
  coming := (hs.receive loggedOut_ne_reply).1.coming
  apart := (hs.receive loggedOut_ne_reply).1.apart

/-! ## What a step keeps -/

/-- The authority moves on, and the app keeps what it shows and what it asks. -/
structure Keeps (s s' : System T V) : Prop where
  later : Authority.Later s.auth s'.auth
  login : s'.app.login = s.app.login
  heard : s'.heard = s.heard
  struct : s'.app.struct = s.app.struct
  cache : s'.app.cache = s.app.cache
  reloading : s.Reloading → s'.Reloading
  unanswered : ∀ k, s.Unanswered k →
    s'.Unanswered k ∨ s'.auth.TouchedSince s.auth.version k

theorem Keeps.sound (h : Keeps s s') {p : Nat} (hp : p ≤ s.auth.version) {k : Cell}
    {v : Option V} (hv : s.Sound p k v) : s'.Sound p k v := by
  have htouched := h.later.touchedSince_iff hp k
  rcases hv with hv | hv | hv
  · exact .inl (htouched.mpr (.inl hv))
  · rcases h.later.values k with hsame | hmore
    · exact .inr (.inl (hv.trans hsame.symm))
    · exact .inl (htouched.mpr (.inr hmore))
  · rcases h.unanswered k hv with hstill | hmore
    · exact .inr (.inr hstill)
    · exact .inl (htouched.mpr (.inr hmore))

theorem Keeps.fresh (h : Keeps s s') {p : Nat} (hp : p ≤ s.auth.version) (hs : s.Fresh p) :
    s'.Fresh p := by
  refine hs.imp h.reloading fun hcurrent => ⟨?_, fun k hk => ?_⟩
  · have hrestructured := h.later.restructuredSince_iff hp
    unfold SoundStructure
    rw [h.struct, hrestructured]
    rcases hcurrent.struct with hr | hsame
    · exact .inl (.inl hr)
    · rcases h.later.struct with heq | hmore
      · exact .inr (hsame.trans heq.symm)
      · exact .inl (.inr hmore)
  · rw [h.cache] at hk ⊢
    exact h.sound hp (hcurrent.cells k hk)

/-- The stream's events under way stay what they are. -/
theorem Inv.keep (h : s.Inv) (hkeeps : Keeps s s') (htickets : s'.Ticketed)
    (harrived : s'.arrived = s.arrived) (hseen : s'.app.seen = s.app.seen)
    (hstream : s'.stream = s.stream ∨ s'.stream = none) : s'.Inv where
  tickets := htickets
  heard n hn := (h.heard n (hkeeps.heard ▸ hn)).trans hkeeps.later.version_le
  seen n hn := (h.seen n (hseen ▸ hn)).trans hkeeps.later.version_le
  arrived := by
    rw [hkeeps.heard, harrived, hseen]
    exact hkeeps.later.tellAll h.heard h.arrived
  queued st hst := by
    rcases hstream with heq | hnone
    · rw [hseen]
      exact hkeeps.later.tellAll h.seen (h.queued st (heq ▸ hst))
    · rw [hnone] at hst
      cases hst
  fresh hlogin p hp := by
    rw [hkeeps.login] at hlogin
    rw [hkeeps.heard] at hp
    exact hkeeps.fresh (h.heard p hp) (h.fresh hlogin p hp)

/-! ## Steps of the wire and the authority -/

theorem Keeps.ask (hs : s.Ticketed) (q : Request V) : Keeps s (s.ask q) := by
  have hkept : ∀ t w, s.app.pending.get? t = some w →
      (s.ask q).app.pending.get? t = some w := by
    intro t w hw
    have hlt := (hs.pending t w hw).1
    simp only [System.ask, SortedMap.get?_insert]
    rwa [if_neg (by omega)]
  refine ⟨.refl _, rfl, rfl, rfl, rfl, fun ⟨t, ht⟩ => ⟨t, hkept t _ ht⟩, fun k hk => .inl ?_⟩
  obtain ⟨t, ht, hnone⟩ := hk
  exact ⟨t, hkept t _ ht, hnone⟩

/-- A reply keeps the edits unanswered but the one it grants, which an event is
to tell of. -/
theorem Replied.keeps (hs : s.Ticketed) {ticket : Nat} {r : Option (Response T V)}
    (h : Replied s s' ticket r) (hlater : Authority.Later s.auth s'.auth)
    (hheard : s'.heard = s.heard)
    (hedit : ∀ k x, r = some x → s.app.pending.get? ticket = some (.cell k) →
      s'.auth.TouchedSince s.auth.version k) : Keeps s s' where
  later := hlater
  login := by rw [h.app]
  heard := hheard
  struct := by rw [h.app]
  cache := by rw [h.app]
  reloading := by
    unfold Reloading
    rw [h.app]
    exact id
  unanswered k hk := by
    obtain ⟨t, ht, hnone⟩ := hk
    by_cases heq : t = ticket
    · subst heq
      cases hr : r with
      | none =>
          refine .inl ⟨t, by rw [h.app]; exact ht, fun x hx => ?_⟩
          rcases (h.coming_iff hs t (some x)).mp hx with ⟨_, hne⟩ | ⟨_, hxr⟩
          · exact hne rfl
          · rw [hr] at hxr
            cases hxr
      | some x => exact .inr (hedit k x hr ht)
    · refine .inl ⟨t, by rw [h.app]; exact ht, fun x hx => ?_⟩
      rcases (h.coming_iff hs t (some x)).mp hx with ⟨hold, _⟩ | ⟨ht', _⟩
      · exact hnone x hold
      · exact heq ht'

theorem Inv.replied (h : s.Inv) {ticket : Nat} {r : Option (Response T V)}
    (hreplied : Replied s s' ticket r) (hlater : Authority.Later s.auth s'.auth)
    (hheard : s'.heard = s.heard) (hstream : s'.stream = s.stream)
    (hedit : ∀ k x, r = some x → s.app.pending.get? ticket = some (.cell k) →
      s'.auth.TouchedSince s.auth.version k) : s'.Inv := by
  refine h.keep (hreplied.keeps h.tickets hlater hheard hedit) (h.tickets.replied hreplied) ?_ ?_
    (.inl hstream)
  · unfold System.arrived
    rw [hreplied.app]
  · rw [hreplied.app]

theorem later_apply (a : Authority T V) (effect : Effect T V) :
    Authority.Later a (a.apply effect) := by
  cases effect with
  | nothing => exact .refl a
  | cells ws => exact a.later_write ws
  | restructure t values => exact a.later_restructure t values

theorem Inv.answer (h : s.Inv) {ticket : Nat} {granted : Bool} {effect : Effect T V}
    (hstep : s.answer ticket granted effect = some s') : s'.Inv := by
  have hreplied : ∀ auth r q, s.requests.lookup ticket = some q →
      Replied s { s with
        auth := auth
        requests := s.requests.filter fun q => q.1 ≠ ticket
        replies := s.replies ++ [(ticket, r)] } ticket r := by
    intro auth r q hq
    have hmem := mem_of_lookup hq
    refine ⟨rfl, rfl, fun t x => ?_, .inl ⟨q, hmem⟩⟩
    rw [List.mem_append, List.mem_singleton, Prod.mk.injEq]
    refine or_congr_left (iff_self_and.mpr fun hx ht => ?_)
    rw [ht] at hx
    exact (h.tickets.requests ticket q hmem).2.1 x (.inl hx)
  have hwhy : ∀ q w, s.requests.lookup ticket = some q → s.app.pending.get? ticket = some w →
      w = q.why := by
    intro q w hq hw
    exact (h.tickets.requests ticket q (mem_of_lookup hq)).2.2 w hw
  unfold System.answer at hstep
  cases hq : s.requests.lookup ticket with
  | none =>
      rw [hq] at hstep
      cases hstep
  | some q =>
      rw [hq] at hstep
      have hkind : ∀ k, q.why ≠ .cell k → s.app.pending.get? ticket ≠ some (.cell k) :=
        fun k hne hw => hne (hwhy q _ hq hw).symm
      cases granted with
      | false =>
          cases hstep
          exact h.replied (hreplied _ _ q hq) (.refl _) rfl rfl fun k x hx => by cases hx
      | true =>
          cases q with
          | readStructure =>
              cases hstep
              refine h.replied (hreplied _ _ _ hq) (.refl _) rfl rfl fun k x _ hw => ?_
              exact absurd hw (hkind k (by simp [Request.why]))
          | window m w =>
              cases hstep
              refine h.replied (hreplied _ _ _ hq) (.refl _) rfl rfl fun k x _ hw => ?_
              exact absurd hw (hkind k (by simp [Request.why]))
          | other =>
              cases hstep
              refine h.replied (hreplied _ _ _ hq) (later_apply _ _) rfl rfl fun k x _ hw => ?_
              exact absurd hw (hkind k (by simp [Request.why]))
          | edit j v =>
              cases effect with
              | cells ws =>
                  simp only at hstep
                  by_cases hj : j ∈ ws.map (·.1)
                  · rw [if_pos hj] at hstep
                    cases hstep
                    refine h.replied (hreplied _ _ _ hq) (s.auth.later_write ws) rfl rfl
                      fun k x _ hw => ?_
                    have hsame : k = j := Pending.cell.inj (hwhy _ _ hq hw)
                    refine ⟨some ws, ?_, fun us hus => ?_⟩
                    · unfold Authority.write Authority.version
                      rw [List.drop_left]
                      exact List.mem_singleton_self _
                    · rw [← Option.some.inj hus, hsame]
                      exact hj
                  · rw [if_neg hj] at hstep
                    cases hstep
              | _ => cases hstep

/-! ## Steps of the app -/

/-- What must hold of an arrived event for the app to take it in: a window's
answer was not overtaken, nor the structure's, and nothing the app had read
before the stream's first look changed until then. -/
def InTime (s : System T V) : Event T V → Prop
  | .loggedOut => True
  | .changed ev =>
      s.app.login = .loggedIn → s.heard = none → ev.reload = false → s.Fresh ev.version
  | .reply ticket r =>
      ∀ p, s.heard = some p →
        match s.app.pending.get? ticket, r with
        | some .readStructure, some (.struct t) => s.ReloadingBut ticket ∨ s.SoundStructure p t
        | some .readStructure, _ => s.app.login = .loggedIn → s.ReloadingBut ticket ∨ s.Current p
        | some (.window m w), some (.cells cells) =>
            s.app.login = .loggedIn → s.Reloading ∨
              ∀ k, (k.measure = m ∧ covers w k.coord = true) ∨
                (Cache.answered m cells).contains k = true →
                  s.Sound p k ((Cache.answered m cells).get? k)
        | _, _ => True

/-- The step, if it takes in an event, takes it in in time. -/
def Meets (s : System T V) : Act T V → Prop
  | .drain => ∀ ev ∈ s.app.out.head?, s.InTime ev
  | _ => True

/-- The steps of a run all meet the condition. -/
def AllMeet : System T V → List (Act T V) → Prop
  | _, [] => True
  | s, act :: acts => s.Meets act ∧ ∀ s', s.step act = some s' → s'.AllMeet acts

/-- The oldest event taken in, where it is a reply. -/
theorem Ticketed.replyTaken (hs : s.Ticketed) {ticket : Nat} {r : Option (Response T V)}
    {out : List (Event T V)} (hout : s.app.out = .reply ticket r :: out)
    (hrequests : s'.requests = s.requests) (hreplies : s'.replies = s.replies)
    (hout' : s'.app.out = out) (hnext : s'.app.next = s.app.next)
    (hpending : ∀ t w, s'.app.pending.get? t = some w →
      t ≠ ticket ∧ s.app.pending.get? t = some w) : s'.Ticketed := by
  have hcoming : ∀ t x, s'.Coming t x → s.Coming t x := by
    intro t x hx
    unfold Coming at hx ⊢
    rw [hreplies, hout'] at hx
    rw [hout]
    exact hx.imp_right (List.mem_cons_of_mem _)
  refine ⟨fun t w hw => ?_, fun t q hq => ?_, fun t x hx => ?_, fun t x y hx hy => ?_⟩
  · have ⟨hne, hold⟩ := hpending t w hw
    have ⟨hlt, hunder⟩ := hs.pending t w hold
    have hstill : ∀ x, s.Coming t x → s'.Coming t x := by
      intro x hx
      unfold Coming at hx ⊢
      rw [hout] at hx
      rw [hreplies, hout']
      refine hx.imp_right fun hmem => (List.mem_cons.mp hmem).resolve_left fun heq => ?_
      exact hne (Event.reply.inj heq).1
    have hlogged : .loggedOut ∈ s.app.out → .loggedOut ∈ s'.app.out := by
      intro hl
      rw [hout] at hl
      rw [hout']
      exact (List.mem_cons.mp hl).resolve_left (by simp)
    rw [hnext, hrequests]
    exact ⟨hlt, hunder.imp_right (Or.imp (fun ⟨x, hx⟩ => ⟨x, hstill x hx⟩) hlogged)⟩
  · rw [hrequests] at hq
    rw [hnext]
    have ⟨hlt, hnone, hwhy⟩ := hs.requests t q hq
    exact ⟨hlt, fun x hx => hnone x (hcoming t x hx), fun w hw => hwhy w (hpending t w hw).2⟩
  · rw [hnext]
    have ⟨hlt, hsame⟩ := hs.coming t x (hcoming t x hx)
    exact ⟨hlt, fun y hy => hsame y (hcoming t y hy)⟩
  · rw [hreplies] at hx
    rw [hout'] at hy
    refine hs.apart t x y hx ?_
    rw [hout]
    exact List.mem_cons_of_mem _ hy

/-- The oldest event taken in, where it is of the stream. -/
theorem Ticketed.changedTaken (hs : s.Ticketed) {ev : ChangeEvent V} {out : List (Event T V)}
    (hout : s.app.out = .changed ev :: out) (cache : Cache V) (heard : Option Nat) :
    ({ s with app := { s.app with out := out, cache := cache }, heard := heard } :
      System T V).Ticketed ∧
    ∀ t x, ({ s with app := { s.app with out := out, cache := cache }, heard := heard } :
      System T V).Coming t x ↔ s.Coming t x := by
  have hcoming : ∀ t x, ({ s with
      app := { s.app with out := out, cache := cache }, heard := heard } :
        System T V).Coming t x ↔ s.Coming t x := by
    intro t x
    unfold Coming
    rw [hout]
    simp
  refine ⟨⟨fun t w hw => ?_, fun t q hq => ?_, fun t x hx => ?_, fun t x y hx hy => ?_⟩, hcoming⟩
  · have ⟨hlt, hunder⟩ := hs.pending t w hw
    refine ⟨hlt, hunder.imp_right (Or.imp (fun ⟨x, hx⟩ => ⟨x, (hcoming t x).mpr hx⟩) fun hl => ?_)⟩
    rw [hout] at hl
    exact (List.mem_cons.mp hl).resolve_left (by simp)
  · have ⟨hlt, hnone, hwhy⟩ := hs.requests t q hq
    exact ⟨hlt, fun x hx => hnone x ((hcoming t x).mp hx), hwhy⟩
  · have ⟨hlt, hsame⟩ := hs.coming t x ((hcoming t x).mp hx)
    exact ⟨hlt, fun y hy => hsame y ((hcoming t y).mp hy)⟩
  · refine hs.apart t x y hx ?_
    rw [hout]
    exact List.mem_cons_of_mem _ hy

/-- What the app shows after an event of the stream. -/
theorem current_of_changed {ev : ChangeEvent V} {p : Option Nat} (htells : s.auth.Tells p ev)
    (hauth : s'.auth = s.auth) (hstruct : s'.app.struct = s.app.struct)
    (hcache : s'.app.cache = s.app.cache.setAll ev.cells)
    (hunanswered : ∀ k, s.Unanswered k → s'.Unanswered k)
    (hsound : s.SoundStructure ev.version s.app.struct)
    (hcells : ∀ k, s.app.cache.get k ≠ .notLoaded →
      s.Sound ev.version k (s.app.cache.cells.get? k) ∨ k ∈ ev.cells.map (·.1)) :
    s'.Current ev.version where
  struct := by
    unfold SoundStructure
    rw [hauth, hstruct]
    exact hsound
  cells k hk := by
    unfold Sound
    rw [hcache] at hk ⊢
    rw [hauth, Cache.get?_setAll]
    cases hlast : WriteBatch.lastValue ev.cells k with
    | some v =>
        have hmem := WriteBatch.mem_of_lastValue hlast
        rcases htells.values k v hmem with htouched | hv
        · exact .inl htouched
        · exact .inr (.inl hv.symm)
    | none =>
        rw [WriteBatch.lastValue_eq_none_iff] at hlast
        have hknown := (Cache.known_of_setAll hk).resolve_right hlast
        rcases (hcells k hknown).resolve_right hlast with htouched | hv | hu
        · exact .inl htouched
        · exact .inr (.inl hv)
        · exact .inr (.inr (hunanswered k hu))

/-- What a reply leaves of what is shown and asked. -/
theorem unanswered_of_reply {ticket : Nat} {r : Option (Response T V)} {out : List (Event T V)}
    (hout : s.app.out = .reply ticket r :: out) (hreplies : s'.replies = s.replies)
    (hout' : s'.app.out = out)
    (hpending : ∀ t, t ≠ ticket → s'.app.pending.get? t = s.app.pending.get? t) {k : Cell}
    (hk : s.Unanswered k) :
    s'.Unanswered k ∨ (s.app.pending.get? ticket = some (.cell k) ∧ r = none) := by
  obtain ⟨t, ht, hnone⟩ := hk
  by_cases heq : t = ticket
  · subst heq
    cases hr : r with
    | none => exact .inr ⟨ht, rfl⟩
    | some x =>
        refine absurd (Or.inr ?_) (hnone x)
        rw [hout, hr]
        exact List.mem_cons_self
  · refine .inl ⟨t, (hpending t heq).trans ht, fun x hx => hnone x ?_⟩
    unfold Coming at hx ⊢
    rw [hreplies, hout'] at hx
    rw [hout]
    exact hx.imp_right (List.mem_cons_of_mem _)

/-! ## Taking in -/

theorem Inv.takeInLogOut (h : s.Inv) {out : List (Event T V)}
    (hout : s.app.out = .loggedOut :: out) :
    ({ s with app := { s.app with out := out } }.takeIn .loggedOut).Inv where
  tickets := by
    have hcoming : ∀ t x,
        ({ s with app := { s.app with out := out } }.takeIn .loggedOut).Coming t x →
          s.Coming t x := by
      intro t x hx
      unfold Coming at hx ⊢
      rw [hout]
      exact hx.imp_right (List.mem_cons_of_mem _)
    refine ⟨fun t w hw => ?_, fun t q hq => ?_, fun t x hx => ?_, fun t x y hx hy => ?_⟩
    · cases hw
    · have ⟨hlt, hnone, _⟩ := h.tickets.requests t q hq
      exact ⟨hlt, fun x hx => hnone x (hcoming t x hx), fun w hw => by cases hw⟩
    · have ⟨hlt, hsame⟩ := h.tickets.coming t x (hcoming t x hx)
      exact ⟨hlt, fun y hy => hsame y (hcoming t y hy)⟩
    · refine h.tickets.apart t x y hx ?_
      rw [hout]
      exact List.mem_cons_of_mem _ hy
  heard := h.heard
  seen := h.seen
  arrived := by
    have harrived := h.arrived
    unfold System.arrived at harrived
    rw [hout] at harrived
    exact harrived
  queued := h.queued
  fresh hlogin := by cases hlogin

theorem Inv.takeInChange (h : s.Inv) {ev : ChangeEvent V} {out : List (Event T V)}
    (hout : s.app.out = .changed ev :: out) (htime : s.InTime (.changed ev)) :
    ({ s with app := { s.app with out := out } }.takeIn (.changed ev)).Inv := by
  have harrived := h.arrived
  unfold System.arrived at harrived
  rw [hout] at harrived
  obtain ⟨htells, hrest⟩ : s.auth.Tells s.heard ev ∧ _ := harrived
  have hheard : ∀ n, some ev.version = some n → n ≤ s.auth.version := by
    intro n hn
    rw [← Option.some.inj hn]
    exact htells.reached
  unfold takeIn
  simp only
  by_cases hreload : ev.reload = true
  · rw [if_pos hreload]
    have htickets := (h.tickets.changedTaken hout s.app.cache (some ev.version)).1
    refine ⟨htickets.ask .readStructure, hheard, h.seen, hrest, h.queued, fun _ p _ => .inl ?_⟩
    refine ⟨s.app.next, ?_⟩
    simp only [System.ask, SortedMap.get?_insert_self]
    rfl
  · rw [if_neg hreload]
    rw [Bool.not_eq_true] at hreload
    have ⟨htickets, hcoming⟩ :=
      h.tickets.changedTaken hout (s.app.cache.setAll ev.cells) (some ev.version)
    refine ⟨htickets, hheard, h.seen, hrest, h.queued, fun hlogin p hp => ?_⟩
    rw [← Option.some.inj hp]
    have hunanswered : ∀ k, s.Unanswered k → ({ s with
        app := { s.app with out := out, cache := s.app.cache.setAll ev.cells }
        heard := some ev.version } : System T V).Unanswered k := by
      intro k ⟨t, ht, hnone⟩
      exact ⟨t, ht, fun x hx => hnone x ((hcoming t (some x)).mp hx)⟩
    cases hprev : s.heard with
    | none =>
        refine (htime hlogin hprev hreload).imp id fun hcurrent => ?_
        exact current_of_changed htells rfl rfl rfl hunanswered hcurrent.struct
          fun k hk => .inl (hcurrent.cells k hk)
    | some q =>
        have hpass := htells.passed hreload q hprev
        refine (h.fresh hlogin q hprev).imp id fun hcurrent => ?_
        refine current_of_changed htells rfl rfl rfl hunanswered
          (hcurrent.struct.imp_left hpass.struct) fun k hk => ?_
        rcases hcurrent.cells k hk with htouched | hv | hu
        · exact (hpass.cells k htouched).imp_left .inl
        · exact .inl (.inr (.inl hv))
        · exact .inl (.inr (.inr hu))

/-- A value stays sound but for an edit that failed. -/
theorem sound_of_reply {ticket : Nat} {r : Option (Response T V)} {out : List (Event T V)}
    (hout : s.app.out = .reply ticket r :: out) (hauth : s'.auth = s.auth)
    (hreplies : s'.replies = s.replies) (hout' : s'.app.out = out)
    (hpending : ∀ t, t ≠ ticket → s'.app.pending.get? t = s.app.pending.get? t)
    (hcell : ∀ k, s.app.pending.get? ticket = some (.cell k) → r ≠ none) {p : Nat} {k : Cell}
    {v : Option V} (h : s.Sound p k v) : s'.Sound p k v := by
  unfold Sound
  rw [hauth]
  refine h.imp_right (Or.imp_right fun hu => ?_)
  refine (unanswered_of_reply hout hreplies hout' hpending hu).resolve_right fun ⟨hw, hr⟩ => ?_
  exact hcell k hw hr

/-- A reply the app answers by keeping what it shows. -/
theorem fresh_of_kept {ticket : Nat} {r : Option (Response T V)} {out : List (Event T V)}
    (hout : s.app.out = .reply ticket r :: out) (hauth : s'.auth = s.auth)
    (hreplies : s'.replies = s.replies) (hout' : s'.app.out = out)
    (hpending : ∀ t, t ≠ ticket → s'.app.pending.get? t = s.app.pending.get? t)
    (hstruct : s'.app.struct = s.app.struct) (hcache : s'.app.cache = s.app.cache)
    (hcell : ∀ k, s.app.pending.get? ticket = some (.cell k) → r ≠ none) {p : Nat}
    (hfresh : s.ReloadingBut ticket ∨ s.Current p) : s'.Fresh p := by
  refine hfresh.imp (fun ⟨t, hne, ht⟩ => ⟨t, (hpending t hne).trans ht⟩) fun hcurrent => ?_
  refine ⟨?_, fun k hk => ?_⟩
  · unfold SoundStructure
    rw [hauth, hstruct]
    exact hcurrent.struct
  · rw [hcache] at hk ⊢
    exact sound_of_reply hout hauth hreplies hout' hpending hcell (hcurrent.cells k hk)

theorem reply_out (a : App T V) (why : Pending) (r : Option (Response T V)) :
    (a.reply why r).out = a.out ∧ (a.reply why r).pending = a.pending ∧
      (a.reply why r).next = a.next ∧ (a.reply why r).seen = a.seen := by
  unfold App.reply
  split <;> exact ⟨rfl, rfl, rfl, rfl⟩

theorem Inv.takeInReply (h : s.Inv) {ticket : Nat} {r : Option (Response T V)}
    {out : List (Event T V)} (hout : s.app.out = .reply ticket r :: out)
    (htime : s.InTime (.reply ticket r)) :
    ({ s with app := { s.app with out := out } }.takeIn (.reply ticket r)).Inv := by
  have harrived := h.arrived
  unfold System.arrived at harrived
  rw [hout] at harrived
  unfold takeIn
  simp only
  cases hwhy : s.app.pending.get? ticket with
  | none =>
      have hne : ∀ t w, s.app.pending.get? t = some w → t ≠ ticket := by
        intro t w hw heq
        rw [heq, hwhy] at hw
        cases hw
      refine ⟨h.tickets.replyTaken hout rfl rfl rfl rfl fun t w hw => ⟨hne t w hw, hw⟩,
        h.heard, h.seen, harrived, h.queued, fun hlogin p hp => ?_⟩
      have hcell : ∀ k, s.app.pending.get? ticket = some (.cell k) → r ≠ none := by
        intro k hk
        rw [hwhy] at hk
        cases hk
      have hfresh : s.ReloadingBut ticket ∨ s.Current p :=
        (h.fresh hlogin p hp).imp_left fun ⟨t, ht⟩ => ⟨t, hne t _ ht, ht⟩
      apply fresh_of_kept hout
      exacts [rfl, rfl, rfl, fun _ _ => rfl, rfl, rfl, hcell, hfresh]
  | some why =>
      have ⟨hout', hpending', hnext', hseen'⟩ := reply_out
        { s.app with out := out, pending := s.app.pending.erase ticket } why r
      have hget : ∀ t, t ≠ ticket → (s.app.pending.erase ticket).get? t = s.app.pending.get? t := by
        intro t ht
        rw [SortedMap.get?_erase, if_neg ht]
      refine ⟨h.tickets.replyTaken hout rfl rfl hout' hnext' fun t w hw => ?_, h.heard, ?_, ?_,
        ?_, fun hlogin p hp => ?_⟩
      · rw [hpending'] at hw
        by_cases ht : t = ticket
        · rw [ht, SortedMap.get?_erase_self] at hw
          cases hw
        · exact ⟨ht, (hget t ht).symm.trans hw⟩
      · rw [hseen']
        exact h.seen
      · unfold System.arrived
        rw [hout', hseen']
        exact harrived
      · rw [hseen']
        exact h.queued
      · have hpending : ∀ t, t ≠ ticket → ({ s.app with
            out := out, pending := s.app.pending.erase ticket }.reply why r).pending.get? t =
              s.app.pending.get? t := by
          intro t ht
          rw [hpending']
          exact hget t ht
        have hbut : why ≠ .readStructure → s.Reloading → s.ReloadingBut ticket := by
          intro hne ⟨t, ht⟩
          refine ⟨t, fun heq => hne ?_, ht⟩
          rw [heq, hwhy] at ht
          exact Option.some.inj ht
        have hreloading : s.ReloadingBut ticket → ({ s with app := { s.app with
            out := out, pending := s.app.pending.erase ticket }.reply why r } :
              System T V).Reloading := by
          intro ⟨t, hne, ht⟩
          exact ⟨t, (hpending t hne).trans ht⟩
        have htime' := htime p hp
        rw [hwhy] at htime'
        cases why with
        | readStructure =>
            have hcell : ∀ k, s.app.pending.get? ticket = some (.cell k) → r ≠ none := by
              intro k hk
              rw [hwhy] at hk
              cases hk
            match r, hlogin, htime', hreloading with
            | some (.struct t), _, htime', hreloading =>
                refine htime'.imp hreloading fun hsound => ⟨hsound, fun k hk => ?_⟩
                exact absurd rfl hk
            | some (.cells cells), hlogin, htime', _ =>
                apply fresh_of_kept hout
                exacts [rfl, rfl, rfl, hget, rfl, rfl, hcell, htime' hlogin]
            | some .done, hlogin, htime', _ =>
                apply fresh_of_kept hout
                exacts [rfl, rfl, rfl, hget, rfl, rfl, hcell, htime' hlogin]
            | none, hlogin, htime', _ =>
                apply fresh_of_kept hout
                exacts [rfl, rfl, rfl, hget, rfl, rfl, hcell, htime' hlogin]
        | window m w =>
            have hcell : ∀ k, s.app.pending.get? ticket = some (.cell k) → r ≠ none := by
              intro k hk
              rw [hwhy] at hk
              cases hk
            match r, hlogin, htime', hreloading with
            | some (.cells cells), hlogin, htime', hreloading =>
                rcases h.fresh hlogin p hp with hr | hcurrent
                · exact .inl (hreloading (hbut (by simp) hr))
                rcases htime' hlogin with hr | hwindow
                · exact .inl (hreloading (hbut (by simp) hr))
                refine .inr ⟨hcurrent.struct, fun k hk => ?_⟩
                apply sound_of_reply hout
                on_goal 6 =>
                  show s.Sound p k ((s.app.cache.fill m w cells).cells.get? k)
                  rw [Cache.get?_fill]
                  by_cases hin : (k.measure = m ∧ covers w k.coord = true) ∨
                      (Cache.answered m cells).contains k = true
                  · have hanswer := hwindow k hin
                    cases hans : (Cache.answered m cells).get? k with
                    | some v =>
                        rw [hans] at hanswer
                        exact hanswer
                    | none =>
                        have hcovers : k.measure = m ∧ covers w k.coord = true := by
                          refine hin.resolve_right fun hc => ?_
                          rw [SortedMap.contains, hans] at hc
                          cases hc
                        rw [hans] at hanswer
                        rw [if_pos hcovers]
                        exact hanswer
                  · rw [not_or] at hin
                    have hnone : (Cache.answered m cells).get? k = none :=
                      Option.not_isSome_iff_eq_none.mp hin.2
                    rw [hnone, if_neg hin.1, Option.none_or]
                    refine hcurrent.cells k ((Cache.known_of_fill hk).resolve_right ?_)
                    exact not_or.mpr hin
                exacts [rfl, rfl, rfl, hget, hcell]
            | some (.struct t), hlogin, _, _ =>
                apply fresh_of_kept hout
                exacts [rfl, rfl, rfl, hget, rfl, rfl, hcell,
                  (h.fresh hlogin p hp).imp_left (hbut (by simp))]
            | some .done, hlogin, _, _ =>
                apply fresh_of_kept hout
                exacts [rfl, rfl, rfl, hget, rfl, rfl, hcell,
                  (h.fresh hlogin p hp).imp_left (hbut (by simp))]
            | none, hlogin, _, _ =>
                apply fresh_of_kept hout
                exacts [rfl, rfl, rfl, hget, rfl, rfl, hcell,
                  (h.fresh hlogin p hp).imp_left (hbut (by simp))]
        | cell k =>
            cases r with
            | none =>
                refine (h.fresh hlogin p hp).imp (fun hr => hreloading (hbut (by simp) hr))
                  fun hcurrent => ⟨hcurrent.struct, fun j hj => ?_⟩
                exact absurd rfl hj
            | some x =>
                apply fresh_of_kept hout
                exacts [rfl, rfl, rfl, hget, rfl, rfl, fun _ _ => Option.some_ne_none x,
                  (h.fresh hlogin p hp).imp_left (hbut (by simp))]
        | other =>
            have hcell : ∀ k, s.app.pending.get? ticket = some (.cell k) → r ≠ none := by
              intro k hk
              rw [hwhy] at hk
              cases hk
            apply fresh_of_kept hout
            exacts [rfl, rfl, rfl, hget, rfl, rfl, hcell,
              (h.fresh hlogin p hp).imp_left (hbut (by simp))]

/-! ## Runs -/

theorem Inv.ask (h : s.Inv) (q : Request V) : (s.ask q).Inv :=
  h.keep (Keeps.ask h.tickets q) (h.tickets.ask q) rfl rfl (.inl rfl)

theorem Inv.fetchWindows (h : s.Inv) (wants : List (MeasureId × Window)) :
    (s.fetchWindows wants).Inv := by
  unfold System.fetchWindows
  induction wants generalizing s with
  | nil => exact h
  | cons want wants ih =>
      refine ih ?_
      unfold fetchWindow
      split
      · exact h.ask _
      · exact h

/-- A cell edited here is shown at once; its edit is unanswered. -/
theorem Inv.commitCell (h : s.Inv) (k : Cell) (v : Option V) : (s.commitCell k v).Inv := by
  have htickets : ({ s with app := { s.app with cache := s.app.cache.set k v } } :
      System T V).Ticketed := ⟨h.tickets.pending, h.tickets.requests, h.tickets.coming,
        h.tickets.apart⟩
  have hkeeps := Keeps.ask htickets (.edit k v)
  refine ⟨htickets.ask _, h.heard, h.seen, h.arrived, h.queued, fun hlogin p hp => ?_⟩
  refine (h.fresh hlogin p hp).imp (fun hr => hkeeps.reloading hr) fun hcurrent => ?_
  refine ⟨hcurrent.struct, fun j hj => ?_⟩
  by_cases hjk : j = k
  · right
    right
    refine ⟨s.app.next, ?_, fun r hr => ?_⟩
    · rw [hjk]
      exact SortedMap.get?_insert_self _ _ _
    · exact Nat.lt_irrefl _ (h.tickets.coming _ _ hr).1
  · have hset : ∀ c : Cache V, (c.set k v).cells.get? j = c.cells.get? j := by
      intro c
      rw [Cache.get?_set, if_neg hjk]
    have hknown : s.app.cache.get j ≠ .notLoaded := by
      intro hnot
      refine hj (Cache.get_eq_notLoaded_iff.mpr ?_)
      have ⟨hnone, hloaded⟩ := Cache.get_eq_notLoaded_iff.mp hnot
      exact ⟨(hset s.app.cache).trans hnone, hloaded⟩
    refine hkeeps.sound (h.heard p hp) ?_
    show Sound _ p j ((s.app.cache.set k v).cells.get? j)
    rw [hset]
    exact hcurrent.cells j hknown

theorem Inv.logIn (h : s.Inv) : s.logIn.Inv := by
  have htickets : ({ s with app := { s.app with login := .trying }, stream := none } :
      System T V).Ticketed := ⟨h.tickets.pending, h.tickets.requests, h.tickets.coming,
        h.tickets.apart⟩
  refine Inv.ask ⟨htickets, h.heard, h.seen, h.arrived, fun st hst => ?_, fun hlogin => ?_⟩ _
  · cases hst
  · cases hlogin

theorem Inv.drain (h : s.Inv) (hmeets : s.Meets .drain) (hstep : s.step .drain = some s') :
    s'.Inv := by
  unfold step at hstep
  cases hout : s.app.out with
  | nil =>
      simp only [hout] at hstep
      cases hstep
  | cons ev out =>
      simp only [hout, Option.some.injEq] at hstep
      have htime : s.InTime ev := hmeets ev (by rw [hout]; rfl)
      rw [← hstep]
      cases ev with
      | loggedOut => exact h.takeInLogOut hout
      | changed ev => exact h.takeInChange hout htime
      | reply ticket r => exact h.takeInReply hout htime

theorem arrived_receive (s : System T V) {ev : Event T V} (hev : ∀ x, ev ≠ .changed x) :
    (s.receive ev).arrived = s.arrived := by
  unfold System.arrived receive
  rw [List.filterMap_append]
  cases ev with
  | changed x => exact absurd rfl (hev x)
  | _ => exact List.append_nil _

/-- A step that only moves replies and refusals. -/
theorem Inv.moved (h : s.Inv) (htickets : s'.Ticketed) (hauth : s'.auth = s.auth)
    (happ : s'.app = { s.app with out := s'.app.out }) (hheard : s'.heard = s.heard)
    (hstream : s'.stream = s.stream ∨ s'.stream = none) (harrived : s'.arrived = s.arrived)
    (hcoming : ∀ t x, s'.Coming t (some x) → s.Coming t (some x)) : s'.Inv := by
  refine h.keep ⟨?_, ?_, hheard, ?_, ?_, fun ⟨t, ht⟩ => ⟨t, ?_⟩, fun k hk => .inl ?_⟩ htickets
    harrived ?_ hstream
  · rw [hauth]
    exact .refl _
  · rw [happ]
  · rw [happ]
  · rw [happ]
  · rw [happ]
    exact ht
  · obtain ⟨t, ht, hnone⟩ := hk
    refine ⟨t, ?_, fun x hx => hnone x (hcoming t x hx)⟩
    rw [happ]
    exact ht
  · rw [happ]

theorem Inv.connect (h : s.Inv) : s.connect.Inv := by
  refine ⟨⟨h.tickets.pending, h.tickets.requests, h.tickets.coming, h.tickets.apart⟩, h.heard,
    h.seen, h.arrived, fun st hst => ?_, fun hlogin p hp => ?_⟩
  on_goal 2 => exact (h.fresh hlogin p hp).imp id fun hcurrent => ⟨hcurrent.struct, hcurrent.cells⟩
  unfold System.connect at hst ⊢
  rw [← Option.some.inj hst]
  cases hseen : s.app.seen with
  | none =>
      refine ⟨⟨Nat.le_refl _, fun _ q hq => ?_, fun k v hv => ?_⟩, .inl rfl⟩
      · cases hq
      · cases hv
  | some v => exact s.auth.tellAll_changesSince v

theorem Inv.deliver (h : s.Inv) {ev : ChangeEvent V} {queue : List (ChangeEvent V)} {sent : Nat}
    (hst : s.stream = some ⟨ev :: queue, sent⟩) :
    ({ s with app := { s.app with seen := some ev.version }, stream := some ⟨queue, sent⟩ }.receive
      (.changed ev)).Inv := by
  have hqueued : s.auth.Tells s.app.seen ev ∧ s.auth.TellAll (some ev.version) queue (some sent) :=
    h.queued _ hst
  have htickets : ({ s with
      app := { s.app with seen := some ev.version }, stream := some ⟨queue, sent⟩ } :
        System T V).Ticketed := ⟨h.tickets.pending, h.tickets.requests, h.tickets.coming,
          h.tickets.apart⟩
  have hne : ∀ t r, (.changed ev : Event T V) ≠ .reply t r := fun _ _ heq => by cases heq
  have ⟨htickets', hcoming⟩ := htickets.receive hne
  refine ⟨htickets', h.heard, fun n hn => ?_, ?_, fun st hst' => ?_, fun hlogin p hp => ?_⟩
  · rw [← Option.some.inj hn]
    exact hqueued.1.reached
  · have hlast : s.auth.TellAll s.app.seen [ev] (some ev.version) := ⟨hqueued.1, .inl rfl⟩
    have happend := h.arrived.append hlast
    unfold System.arrived at happend ⊢
    unfold System.receive
    rw [List.filterMap_append]
    exact happend
  · rw [← Option.some.inj hst']
    exact hqueued.2
  · refine (h.fresh hlogin p hp).imp id fun hcurrent => ⟨hcurrent.struct, fun k hk => ?_⟩
    refine (hcurrent.cells k hk).imp_right (Or.imp_right fun ⟨t, ht, hnone⟩ => ⟨t, ht, ?_⟩)
    exact fun x hx => hnone x ((hcoming t (some x)).mp hx)

theorem Inv.look (h : s.Inv) {st : Stream V} (hst : s.stream = some st) :
    ({ s with
      stream := some ⟨st.queue ++ (s.auth.changesSince st.sent).toList, s.auth.version⟩ } :
        System T V).Inv := by
  refine ⟨⟨h.tickets.pending, h.tickets.requests, h.tickets.coming, h.tickets.apart⟩, h.heard,
    h.seen, h.arrived, fun st' hst' => ?_, fun hlogin p hp => ?_⟩
  · rw [← Option.some.inj hst']
    exact (h.queued st hst).append (s.auth.tellAll_changesSince st.sent)
  · exact (h.fresh hlogin p hp).imp id fun hcurrent => ⟨hcurrent.struct, hcurrent.cells⟩

theorem Inv.lose (h : s.Inv) {ticket : Nat}
    (hasked : ticket ∈ s.requests.map (·.1) ∨ ticket ∈ s.replies.map (·.1)) :
    ({ s with
      requests := s.requests.filter fun q => q.1 ≠ ticket
      replies := (s.replies.filter fun q => q.1 ≠ ticket) ++ [(ticket, none)] } :
        System T V).Inv := by
  refine Inv.replied h (?_ : Replied s _ ticket none) (.refl _) rfl rfl fun k x hx => by cases hx
  refine ⟨rfl, rfl, fun t x => ?_, ?_⟩
  · rw [List.mem_append, List.mem_filter, List.mem_singleton, Prod.mk.injEq, decide_eq_true_eq]
  · refine hasked.imp (fun hm => ?_) fun hm => ?_
    · obtain ⟨⟨t, q⟩, hq, rfl⟩ := List.mem_map.mp hm
      exact ⟨q, hq⟩
    · obtain ⟨⟨t, x⟩, hx, rfl⟩ := List.mem_map.mp hm
      exact ⟨x, hx⟩

/-- What one step keeps. -/
theorem Inv.step (h : s.Inv) {act : Act T V} (hmeets : s.Meets act)
    (hstep : s.step act = some s') : s'.Inv := by
  cases act with
  | drain => exact h.drain hmeets hstep
  | answer ticket granted effect => exact h.answer hstep
  | logIn =>
      simp only [System.step] at hstep
      split at hstep
      · cases hstep
      · cases hstep
        exact h.logIn
  | fetchWindows wants =>
      simp only [System.step] at hstep
      split at hstep
      · cases hstep
        exact h.fetchWindows wants
      · cases hstep
  | commitCell k v =>
      simp only [System.step] at hstep
      split at hstep
      · cases hstep
        exact h.commitCell k v
      · cases hstep
  | change =>
      simp only [System.step] at hstep
      split at hstep
      · cases hstep
        exact h.ask .other
      · cases hstep
  | arrive ticket =>
      simp only [System.step] at hstep
      split at hstep
      · cases hstep
      · rename_i r hr
        cases hstep
        have ⟨htickets, hcoming⟩ := h.tickets.arrive (mem_of_lookup hr)
        refine h.moved htickets rfl rfl rfl (.inl rfl) ?_ fun t x hx => (hcoming t (some x)).mp hx
        exact arrived_receive _ fun x => by simp
  | lose ticket =>
      simp only [System.step] at hstep
      split at hstep
      · rename_i hasked
        cases hstep
        exact h.lose hasked
      · cases hstep
  | refuse ticket =>
      simp only [System.step] at hstep
      split at hstep
      · cases hstep
        refine h.moved (h.tickets.refuse ticket) rfl rfl rfl (.inl rfl) ?_ fun t x hx => ?_
        · exact arrived_receive _ fun x => by simp
        · exact ((h.tickets.receive loggedOut_ne_reply).2 t (some x)).mp hx
      · cases hstep
  | connect =>
      cases hstep
      exact h.connect
  | look =>
      simp only [System.step] at hstep
      cases hst : s.stream with
      | none =>
          rw [hst] at hstep
          cases hstep
      | some st =>
          rw [hst] at hstep
          cases hstep
          exact h.look hst
  | deliver =>
      simp only [System.step] at hstep
      split at hstep
      · rename_i ev queue sent hst
        cases hstep
        exact h.deliver hst
      · cases hstep
  | disconnect =>
      cases hstep
      refine h.moved ⟨h.tickets.pending, h.tickets.requests, h.tickets.coming, h.tickets.apart⟩
        rfl rfl rfl (.inr rfl) rfl fun _ _ hx => hx
  | refuseStream =>
      cases hstep
      have htickets : ({ s with stream := none } : System T V).Ticketed :=
        ⟨h.tickets.pending, h.tickets.requests, h.tickets.coming, h.tickets.apart⟩
      have ⟨htickets', hcoming⟩ := htickets.receive loggedOut_ne_reply
      refine h.moved htickets' rfl rfl rfl (.inr rfl) ?_ fun t x hx => (hcoming t (some x)).mp hx
      exact arrived_receive _ fun x => by simp
  | others effect =>
      cases hstep
      refine h.keep ⟨later_apply _ _, rfl, rfl, rfl, rfl, id, fun k hk => .inl hk⟩
        ⟨h.tickets.pending, h.tickets.requests, h.tickets.coming, h.tickets.apart⟩ rfl rfl
        (.inl rfl)
  | forget n =>
      cases hstep
      refine h.keep ⟨s.auth.later_forget n, rfl, rfl, rfl, rfl, id, fun k hk => .inl hk⟩
        ⟨h.tickets.pending, h.tickets.requests, h.tickets.coming, h.tickets.apart⟩ rfl rfl
        (.inl rfl)

/-- What a run keeps. -/
theorem Inv.run {acts : List (Act T V)} (h : s.Inv) (hmeets : s.AllMeet acts)
    (hrun : s.run acts = some s') : s'.Inv := by
  induction acts generalizing s with
  | nil =>
      cases hrun
      exact h
  | cons act acts ih =>
      unfold System.run at hrun
      rw [List.foldlM_cons] at hrun
      obtain ⟨t, ht, hrest⟩ := Option.bind_eq_some_iff.mp hrun
      exact ih (h.step hmeets.1 ht) (hmeets.2 t ht) hrest

def oneCell : Cell := ⟨⟨1⟩, .empty⟩

/-- An authority with one cell, which holds one. -/
def oneAuthority : Authority Unit Nat :=
  (⟨(), .empty, [], 0, records_nil _⟩ : Authority Unit Nat).write [(oneCell, some 1)]

/-- Log in, and hear the stream's first event before the structure. -/
def logsIn : List (Act Unit Nat) :=
  [.logIn, .connect, .deliver, .drain, .answer 1 true .nothing, .arrive 1, .drain]

/-- The window is answered, the cell changes, and the event overtakes the
answer. -/
def overtaken : List (Act Unit Nat) :=
  logsIn ++ [.fetchWindows [(⟨1⟩, .empty)], .answer 2 true .nothing,
    .others (.cells [(oneCell, some 2)]), .look, .deliver, .drain, .arrive 2, .drain]

end System

end Improv.GuiWeb
