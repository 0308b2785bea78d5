import Improv.Lib.SortedMap
import Improv.PgModel.DecodeLaws
/-!
# Grouping messages into transactions

A decoding session absorbs messages one by one.  It refuses those that do not
decode or do not fit its state, and keeps of the others the committed
transactions with their row changes.
-/

namespace Improv.PgModel.PgOutput

open Improv.Lib (SortedMap)
open Improv.Lib.WireFormat

/-- A committed transaction: its row changes in order, and where its commit
ends. -/
structure Txn where
  xid : UInt32
  endLsn : UInt64
  changes : List Message
deriving DecidableEq

structure Stream where
  /-- Every relation described so far, by oid. -/
  relations : SortedMap Nat Relation
  opened : Option Txn
  /-- Committed transactions, in commit order. -/
  done : List Txn
deriving DecidableEq

def Stream.empty : Stream := ⟨.empty, none, []⟩

/-- The state of a session, kept also where an absorption fails. -/
abbrev Session := ExceptT DecodeError (StateM Stream)

/-- Add a row change of described relations to the open transaction. -/
def rowChange (rels : List UInt32) (change : Message) : Session Unit := do
  let s ← get
  match rels.find? fun id => !s.relations.contains id.toNat with
  | some id => throw (.unknownRelation id)
  | none =>
      match s.opened with
      | none => throw (.outsideTxn "row change")
      | some t => set { s with opened := some { t with changes := t.changes ++ [change] } }

/-- Absorb one decoded message. -/
def absorb (m : Message) : Session Unit := do
  match m with
  | .begin _ _ xid =>
      if (← get).opened.isSome then throw (.outsideTxn "Begin")
      modify fun s => { s with opened := some ⟨xid, 0, []⟩ }
  | .commit _ _ endLsn _ =>
      let opened := (← get).opened
      modify fun s => { s with opened := none }
      match opened with
      | none => throw (.outsideTxn "Commit")
      | some t => modify fun s => { s with done := s.done ++ [{ t with endLsn }] }
  | .relation rel =>
      modify fun s => { s with relations := s.relations.insert rel.id.toNat rel }
  | .origin .. => return ()
  | .type .. => return ()
  | .insert rel _ => rowChange [rel] m
  | .update rel _ _ => rowChange [rel] m
  | .delete rel _ => rowChange [rel] m
  | .truncate _ rels => rowChange rels m

/-- Decode and absorb one message. -/
def feed (buf : List UInt8) : Session Unit := do
  let m ← (MonadExcept.ofExcept (decode buf) : Session Message)
  absorb m

/-- The answer to one message, and the stream after it. -/
def Stream.feed (s : Stream) (buf : List UInt8) : Except DecodeError Unit × Stream :=
  (PgOutput.feed buf).run.run s

/-! ## What a message does -/

/-- The relations of a message that is a row change. -/
def Message.rels? : Message → Option (List UInt32)
  | .insert rel _ => some [rel]
  | .update rel _ _ => some [rel]
  | .delete rel _ => some [rel]
  | .truncate _ rels => some rels
  | _ => none

/-- The messages a stream absorbs. -/
def Stream.Takes (s : Stream) : Message → Prop
  | .begin .. => s.opened = none
  | .commit .. => s.opened ≠ none
  | m => ∀ rels ∈ m.rels?, s.opened ≠ none ∧ ∀ id ∈ rels, s.relations.contains id.toNat

/-- The stream after a message it absorbs. -/
def Stream.after (s : Stream) : Message → Stream
  | .begin _ _ xid => { s with opened := some ⟨xid, 0, []⟩ }
  | .commit _ _ endLsn _ =>
      { s with opened := none, done := s.done ++ s.opened.toList.map ({ · with endLsn }) }
  | .relation rel => { s with relations := s.relations.insert rel.id.toNat rel }
  | .origin .. => s
  | .type .. => s
  | m => { s with opened := s.opened.map fun t => { t with changes := t.changes ++ [m] } }

/-- What absorbing a message may do to a stream. -/
def Absorbs (s : Stream) (m : Message) (r : Except DecodeError Unit × Stream) : Prop :=
  (s.Takes m ∧ r = (.ok (), s.after m)) ∨ (¬s.Takes m ∧ ∃ e, r = (.error e, s))

theorem rowChange_run (s : Stream) (rels : List UInt32) (m : Message) :
    (rowChange rels m).run.run s =
      match rels.find? fun id => !s.relations.contains id.toNat with
      | some id => (.error (.unknownRelation id), s)
      | none =>
          match s.opened with
          | none => (.error (.outsideTxn "row change"), s)
          | some t =>
              (.ok (), { s with opened := some { t with changes := t.changes ++ [m] } }) := by
  show StateT.run (ExceptT.run (match rels.find? fun id => !s.relations.contains id.toNat with
    | some id => throw (DecodeError.unknownRelation id)
    | none =>
        match s.opened with
        | none => throw (DecodeError.outsideTxn "row change")
        | some t => set { s with opened := some { t with changes := t.changes ++ [m] } })) s = _
  cases rels.find? fun id => !s.relations.contains id.toNat with
  | some id => rfl
  | none =>
      cases s.opened with
      | none => rfl
      | some t => rfl

/-- A row change is added when its relations are described and a transaction is
open. -/
theorem rowChange_absorbs (s : Stream) {m : Message} {rels : List UInt32}
    (htakes : s.Takes m ↔ s.opened ≠ none ∧ ∀ id ∈ rels, s.relations.contains id.toNat)
    (hafter : s.after m = { s with
      opened := s.opened.map fun t => { t with changes := t.changes ++ [m] } }) :
    Absorbs s m ((rowChange rels m).run.run s) := by
  rw [rowChange_run]
  cases hfind : rels.find? fun id => !s.relations.contains id.toNat with
  | some id =>
      have hnot := List.find?_some hfind
      refine .inr ⟨fun h => ?_, .unknownRelation id, rfl⟩
      rw [(htakes.mp h).2 id (List.mem_of_find?_eq_some hfind)] at hnot
      cases hnot
  | none =>
      have hall : ∀ id ∈ rels, s.relations.contains id.toNat := by
        intro id hid
        simpa using List.find?_eq_none.mp hfind id hid
      cases ht : s.opened with
      | none => exact .inr ⟨fun h => (htakes.mp h).1 ht, .outsideTxn "row change", rfl⟩
      | some t =>
          refine .inl ⟨htakes.mpr ⟨by rw [ht]; exact Option.some_ne_none t, hall⟩, ?_⟩
          rw [hafter, ht]
          rfl

theorem absorb_spec (s : Stream) (m : Message) : Absorbs s m ((absorb m).run.run s) := by
  obtain ⟨relations, opened, done⟩ := s
  cases m with
  | begin finalLsn commitTs xid =>
      cases opened with
      | none => exact .inl ⟨rfl, rfl⟩
      | some t => exact .inr ⟨Option.some_ne_none t, _, rfl⟩
  | commit flags commitLsn endLsn commitTs =>
      cases opened with
      | none => exact .inr ⟨fun h => h rfl, _, rfl⟩
      | some t => exact .inl ⟨Option.some_ne_none t, rfl⟩
  | origin lsn name => exact .inl ⟨fun rels h => (nomatch h), rfl⟩
  | relation rel => exact .inl ⟨fun rels h => (nomatch h), rfl⟩
  | type id namespaceName name => exact .inl ⟨fun rels h => (nomatch h), rfl⟩
  | insert rel new => exact rowChange_absorbs _ (by simp [Stream.Takes, Message.rels?]) rfl
  | update rel old new => exact rowChange_absorbs _ (by simp [Stream.Takes, Message.rels?]) rfl
  | delete rel old => exact rowChange_absorbs _ (by simp [Stream.Takes, Message.rels?]) rfl
  | truncate options rels =>
      exact rowChange_absorbs _ (by simp [Stream.Takes, Message.rels?]) rfl

theorem feed_of_error {s : Stream} {buf : List UInt8} {e : DecodeError}
    (h : decode buf = .error e) : s.feed buf = (.error e, s) := by
  show (PgOutput.feed buf).run.run s = _
  unfold PgOutput.feed
  rw [h]
  rfl

theorem feed_of_ok {s : Stream} {buf : List UInt8} {m : Message} (h : decode buf = .ok m) :
    s.feed buf = (absorb m).run.run s := by
  show (PgOutput.feed buf).run.run s = _
  unfold PgOutput.feed
  rw [h]
  rfl

/-- A refused message leaves the stream as it was. -/
theorem feed_of_refused {s : Stream} {buf : List UInt8} {e : DecodeError}
    (h : (s.feed buf).1 = .error e) : (s.feed buf).2 = s := by
  cases hd : decode buf with
  | error e' => rw [feed_of_error hd]
  | ok m =>
      rw [feed_of_ok hd] at h ⊢
      rcases absorb_spec s m with ⟨_, hr⟩ | ⟨_, e', hr⟩
      · rw [hr] at h
        cases h
      · rw [hr]

theorem feed_ok_iff {s : Stream} {buf : List UInt8} :
    (s.feed buf).1 = .ok () ↔ ∃ m, decode buf = .ok m ∧ s.Takes m := by
  cases hd : decode buf with
  | error e =>
      rw [feed_of_error hd]
      simp
  | ok m =>
      rw [feed_of_ok hd]
      rcases absorb_spec s m with ⟨ht, hr⟩ | ⟨ht, e, hr⟩ <;> simp [hr, ht]

theorem feed_taken {s : Stream} {buf : List UInt8} {m : Message} (hd : decode buf = .ok m)
    (ht : s.Takes m) : s.feed buf = (.ok (), s.after m) := by
  rw [feed_of_ok hd]
  rcases absorb_spec s m with ⟨_, hr⟩ | ⟨hnot, _⟩
  · exact hr
  · exact absurd ht hnot

/-! ## A session -/

/-- The messages a stream absorbs of the strings it is fed, and the stream after
them. -/
def Stream.feeds (s : Stream) : List (List UInt8) → List Message × Stream
  | [] => ([], s)
  | buf :: bufs =>
      let later := (s.feed buf).2.feeds bufs
      match decode buf, (s.feed buf).1 with
      | .ok m, .ok () => (m :: later.1, later.2)
      | _, _ => later

def Message.isChange (m : Message) : Bool := m.rels?.isSome

/-- The message begins or commits a transaction. -/
def Message.isBoundary : Message → Bool
  | .begin .. => true
  | .commit .. => true
  | _ => false

/-- A sequence of whole transactions, with what stands between them. -/
inductive Committed : List Message → List Txn → Prop
  | nil : Committed [] []
  | between {ms ts m} : Committed ms ts → m.isBoundary = false → m.isChange = false →
      Committed (ms ++ [m]) ts
  | txn {ms ts body finalLsn ts₁ xid flags commitLsn endLsn ts₂} : Committed ms ts →
      (∀ m ∈ body, m.isBoundary = false) →
      Committed (ms ++ (.begin finalLsn ts₁ xid :: body) ++ [.commit flags commitLsn endLsn ts₂])
        (ts ++ [⟨xid, endLsn, body.filter Message.isChange⟩])

/-- The stream holds the transactions of the messages, the last one perhaps
still open. -/
inductive Grouped : List Message → Stream → Prop
  | closed {ms s} : Committed ms s.done → s.opened = none → Grouped ms s
  | opened {ms body s finalLsn commitTs xid} : Committed ms s.done →
      (∀ m ∈ body, m.isBoundary = false) →
      s.opened = some ⟨xid, 0, body.filter Message.isChange⟩ →
      Grouped (ms ++ .begin finalLsn commitTs xid :: body) s

/-- A relation with this oid is described by one of the messages. -/
def Describes (ms : List Message) (id : UInt32) : Prop :=
  ∃ rel, .relation rel ∈ ms ∧ rel.id = id

/-- Each row change comes after the description of its relations. -/
def Described (ms : List Message) : Prop :=
  ∀ before m later, ms = before ++ m :: later → ∀ rels ∈ m.rels?, ∀ id ∈ rels,
    Describes before id

/-- What a stream holds of the messages it absorbed. -/
structure Stream.Holds (s : Stream) (ms : List Message) : Prop where
  grouped : Grouped ms s
  known : ∀ id : UInt32, s.relations.contains id.toNat ↔ Describes ms id
  described : Described ms

theorem Stream.empty_holds : Stream.empty.Holds [] := by
  refine ⟨.closed .nil rfl, fun id => ?_, fun before m later h => ?_⟩
  · simp [Describes, Stream.empty, SortedMap.contains]
  · exact absurd h (by simp)

theorem Described.concat {ms : List Message} {m : Message} (h : Described ms)
    (hm : ∀ rels ∈ m.rels?, ∀ id ∈ rels, Describes ms id) : Described (ms ++ [m]) := by
  intro before m' later heq
  rcases List.eq_nil_or_concat' later with rfl | ⟨later, last, rfl⟩
  · have ⟨hms, hm'⟩ := List.append_inj' heq rfl
    rw [← hms, ← List.singleton_inj.mp hm']
    exact hm
  · have heq' : ms ++ [m] = (before ++ m' :: later) ++ [last] := by
      rw [heq]
      simp
    exact h before m' later (List.append_inj' heq' rfl).1

theorem after_done (s : Stream) {m : Message} (hb : m.isBoundary = false) :
    (s.after m).done = s.done := by
  cases m with
  | begin _ _ _ => cases hb
  | commit _ _ _ _ => cases hb
  | _ => rfl

theorem after_opened (s : Stream) {m : Message} (hb : m.isBoundary = false) :
    (s.after m).opened = s.opened.map fun t =>
      { t with changes := t.changes ++ [m].filter Message.isChange } := by
  have hid : (s.opened.map fun t => { t with changes := t.changes ++ [] }) = s.opened := by
    cases s.opened <;> simp
  cases m with
  | begin _ _ _ => cases hb
  | commit _ _ _ _ => cases hb
  | relation rel => exact hid.symm
  | origin lsn name => exact hid.symm
  | type id namespaceName name => exact hid.symm
  | _ => rfl

theorem opened_of_takes {s : Stream} {m : Message} (ht : s.Takes m) (hc : m.isChange = true) :
    s.opened ≠ none := by
  obtain ⟨rels, hrels⟩ := Option.isSome_iff_exists.mp hc
  cases m with
  | insert rel new => exact (ht rels hrels).1
  | update rel old new => exact (ht rels hrels).1
  | delete rel old => exact (ht rels hrels).1
  | truncate options rels => exact (ht _ hrels).1
  | _ => cases hrels

/-- A message that is no boundary leaves the transactions and joins the open
one. -/
theorem Grouped.inside {s : Stream} {ms : List Message} {m : Message} (h : Grouped ms s)
    (ht : s.Takes m) (hb : m.isBoundary = false) : Grouped (ms ++ [m]) (s.after m) := by
  have hafter := after_opened s hb
  cases h with
  | closed hdone hnone =>
      have hc : m.isChange = false := by
        by_contra hc
        exact opened_of_takes ht (by simpa using hc) hnone
      rw [hnone] at hafter
      rw [← after_done s hb] at hdone
      exact .closed (hdone.between hb hc) hafter
  | @opened ms body _ finalLsn commitTs xid hdone hbody hopen =>
      rw [hopen] at hafter
      rw [← after_done s hb] at hdone
      have hbody' : ∀ m' ∈ body ++ [m], m'.isBoundary = false := by
        intro m' hm'
        rcases List.mem_append.mp hm' with hm' | hm'
        · exact hbody m' hm'
        · rw [List.mem_singleton.mp hm']
          exact hb
      have hopened : (s.after m).opened = some ⟨xid, 0, (body ++ [m]).filter Message.isChange⟩ := by
        rw [hafter, List.filter_append]
        rfl
      have hg : Grouped (ms ++ .begin finalLsn commitTs xid :: (body ++ [m])) (s.after m) :=
        .opened hdone hbody' hopened
      rwa [← List.cons_append, ← List.append_assoc] at hg

theorem Grouped.step {s : Stream} {ms : List Message} {m : Message} (h : Grouped ms s)
    (ht : s.Takes m) : Grouped (ms ++ [m]) (s.after m) := by
  cases hb : m.isBoundary with
  | false => exact h.inside ht hb
  | true =>
      cases m with
      | begin finalLsn commitTs xid =>
          cases h with
          | closed hdone hnone =>
              exact .opened hdone (fun _ hm => absurd hm List.not_mem_nil) rfl
          | opened hdone hbody hopen =>
              rw [Stream.Takes, hopen] at ht
              cases ht
      | commit flags commitLsn endLsn commitTs =>
          cases h with
          | closed hdone hnone => exact absurd hnone ht
          | opened hdone hbody hopen =>
              refine .closed ?_ rfl
              rw [Stream.after, hopen]
              exact hdone.txn hbody
      | _ => cases hb

theorem after_relations (s : Stream) {m : Message} (hm : ∀ rel, m ≠ .relation rel) :
    (s.after m).relations = s.relations := by
  cases m <;> first | rfl | exact absurd rfl (hm _)

theorem describes_concat {ms : List Message} {m : Message} {id : UInt32} :
    Describes (ms ++ [m]) id ↔ Describes ms id ∨ ∃ rel, m = .relation rel ∧ rel.id = id := by
  unfold Describes
  constructor
  · intro ⟨rel, hmem, hid⟩
    rcases List.mem_append.mp hmem with hmem | hmem
    · exact .inl ⟨rel, hmem, hid⟩
    · exact .inr ⟨rel, (List.mem_singleton.mp hmem).symm, hid⟩
  · intro h
    rcases h with ⟨rel, hmem, hid⟩ | ⟨rel, rfl, hid⟩
    · exact ⟨rel, List.mem_append_left _ hmem, hid⟩
    · exact ⟨rel, List.mem_append_right _ (List.mem_singleton.mpr rfl), hid⟩

theorem known_after {s : Stream} {ms : List Message} {m : Message}
    (h : ∀ id : UInt32, s.relations.contains id.toNat ↔ Describes ms id) (id : UInt32) :
    (s.after m).relations.contains id.toNat ↔ Describes (ms ++ [m]) id := by
  rw [describes_concat, ← h id]
  by_cases hm : ∃ rel, m = .relation rel
  · obtain ⟨rel, rfl⟩ := hm
    show (s.relations.insert rel.id.toNat rel).contains id.toNat ↔ _
    rw [SortedMap.contains_insert, UInt32.toNat_inj, or_comm]
    simp only [Message.relation.injEq, exists_eq_left', eq_comm (a := id)]
  · have hne : ∀ rel, m ≠ .relation rel := fun rel heq => hm ⟨rel, heq⟩
    rw [after_relations s hne]
    constructor
    · exact .inl
    · rintro (hc | ⟨rel, heq, _⟩)
      · exact hc
      · exact absurd heq (hne rel)

theorem described_of_takes {s : Stream} {m : Message} (ht : s.Takes m) :
    ∀ rels ∈ m.rels?, ∀ id ∈ rels, s.relations.contains id.toNat := by
  intro rels hrels
  cases m with
  | insert rel new => exact (ht rels hrels).2
  | update rel old new => exact (ht rels hrels).2
  | delete rel old => exact (ht rels hrels).2
  | truncate options rels => exact (ht _ hrels).2
  | _ => cases hrels

theorem Stream.Holds.step {s : Stream} {ms : List Message} {m : Message} (h : s.Holds ms)
    (ht : s.Takes m) : (s.after m).Holds (ms ++ [m]) where
  grouped := h.grouped.step ht
  known := known_after h.known
  described := h.described.concat fun rels hrels id hid =>
    (h.known id).mp (described_of_takes ht rels hrels id hid)

theorem Stream.Holds.feeds {s : Stream} {ms : List Message} (h : s.Holds ms)
    (bufs : List (List UInt8)) : (s.feeds bufs).2.Holds (ms ++ (s.feeds bufs).1) := by
  induction bufs generalizing s ms with
  | nil =>
      rw [Stream.feeds, List.append_nil]
      exact h
  | cons buf bufs ih =>
      unfold Stream.feeds
      cases hr : (s.feed buf).1 with
      | error e =>
          rw [feed_of_refused hr]
          cases decode buf <;> exact ih h
      | ok =>
          obtain ⟨m, hd, ht⟩ := feed_ok_iff.mp hr
          have hstep := ih (h.step ht)
          rw [List.append_assoc] at hstep
          rw [hd, feed_taken hd ht]
          exact hstep

/-! ## What is handed on -/

/-- The change as the router reads it. -/
def Message.routed : Message → PgModel.Message
  | .insert rel new => .insert rel.toNat new
  | .update rel old new => .update rel.toNat old new
  | .delete rel old => .delete rel.toNat old
  | .truncate _ rels => .truncate (rels.map UInt32.toNat)
  | _ => .control

def Txn.routed (t : Txn) : PgModel.Txn := ⟨t.xid, t.endLsn.toNat, t.changes.map Message.routed⟩

theorem routed_ne_control {m : Message} (h : m.isChange = true) : m.routed ≠ .control := by
  cases m with
  | insert rel new => exact fun heq => by cases heq
  | update rel old new => exact fun heq => by cases heq
  | delete rel old => exact fun heq => by cases heq
  | truncate options rels => exact fun heq => by cases heq
  | _ => cases h

/-- Only row changes are handed on. -/
theorem Committed.routed {ms : List Message} {ts : List Txn} (h : Committed ms ts) :
    ∀ t ∈ ts, ∀ c ∈ t.routed.changes, c ≠ .control := by
  induction h with
  | nil => exact fun t ht => absurd ht List.not_mem_nil
  | between _ _ _ ih => exact ih
  | txn _ _ ih =>
      intro t ht c hc
      rcases List.mem_append.mp ht with ht | ht
      · exact ih t ht c hc
      · rw [List.mem_singleton.mp ht] at hc
        obtain ⟨m, hm, rfl⟩ := List.mem_map.mp hc
        exact routed_ne_control (List.mem_filter.mp hm).2

/-! ## The decoder and its stream -/

/-- The decoder accepts exactly the wire format, no string that stops early or
goes on, and a session that starts empty holds the transactions of the messages
it absorbs, whatever it refuses in between. -/
theorem decoder_exact :
    (∀ w : Sent, w.Fits → decode w.encode = .ok w.message) ∧
    (∀ b m, decode b = .ok m → ∃ w : Sent, w.Fits ∧ w.message = m ∧ w.encode = b) ∧
    (∀ b ext m, ext ≠ [] → decode (b ++ ext) = .ok m → ∃ e, decode b = .error e) ∧
    (∀ b ext m, ext ≠ [] → decode b = .ok m →
      decode (b ++ ext) = .error (.trailing ext.length)) ∧
    (∀ s : Stream, ∀ b, (s.feed b).1 = .ok () ↔ ∃ m, decode b = .ok m ∧ s.Takes m) ∧
    (∀ s : Stream, ∀ b e, (s.feed b).1 = .error e → (s.feed b).2 = s) ∧
    ∀ bufs, (Stream.empty.feeds bufs).2.Holds (Stream.empty.feeds bufs).1 := by
  refine ⟨fun w hw => ?_, fun b m h => ?_, fun b ext m hext h => ?_, fun b ext m hext h => ?_,
    fun s b => feed_ok_iff, fun s b e => feed_of_refused, fun bufs => ?_⟩
  · exact decode_eq_ok_iff.mpr ⟨w, hw, rfl, rfl⟩
  · obtain ⟨w, hfits, hm, hb⟩ := decode_eq_ok_iff.mp h
    exact ⟨w, hfits, hm, hb.symm⟩
  · exact whole_prefix message_exact h hext
  · exact whole_append message_exact h hext
  · exact Stream.empty_holds.feeds bufs

end Improv.PgModel.PgOutput
