import Improv.Lib.SortedMap
/-!
# Change streams

The server's change streams around one authority and one watch counter: the
slots they take, the poller that runs while any is open, and the steps of each
stream's task.  Every call on the authority is atomic, and wakes the streams
when it moved the model's version.
-/

namespace Improv.Server

open Improv.Lib

/-- How far a stream's task is.  `mark` is the value of the watch counter it has
last seen, `seen` the version its last look saw. -/
inductive Stage (Ver : Type)
  /-- It has a slot. -/
  | taken
  | subscribed (mark : Nat)
  /-- It has looked, and has an event to send or none. -/
  | looked (mark : Nat) (seen : Ver) (pending : Bool)
  /-- The client reads it, or is about to. -/
  | idle (mark : Nat) (seen : Ver) (pending : Bool)
  | waiting (mark : Nat) (seen : Ver)
  | woken (mark : Nat) (seen : Ver)
deriving DecidableEq

structure Stream (Who Ver : Type) where
  who : Who
  stage : Stage Ver
deriving DecidableEq

/-- How far the poller's round is. -/
inductive Poller
  | sleeping
  | asked
  /-- It is to wake the streams. -/
  | moved
deriving DecidableEq

/-- Most change streams one principal may hold open. -/
def maxStreamsPerCaller : Nat := 8

structure Gui (Who Ver : Type) [LinearOrder Who] where
  /-- The version the authority is at, once it is opened. -/
  authority : Option Ver
  /-- Bumped after every change the authority has seen. -/
  changed : Nat
  streams : List (Stream Who Ver)
  total : Nat
  per : SortedMap Who Nat
  polling : Bool
  /-- The pollers that run. -/
  pollers : List Poller
  /-- Writing requests that are yet to wake the streams again. -/
  writers : Nat

variable {Who Ver : Type} [LinearOrder Who] [DecidableEq Ver]

namespace Gui

/-- Before the first request. -/
def start : Gui Who Ver := ⟨none, 0, [], 0, .empty, false, [], 0⟩

/-- Run a call on the authority, which opens at a version if need be and leaves
it at another: a version moved wakes the streams. -/
def withAuthority (s : Gui Who Ver) (opened found : Ver) : Gui Who Ver :=
  { s with
    authority := some found
    changed := if found = s.authority.getD opened then s.changed else s.changed + 1 }

/-- Take a stream slot, unless a limit is full.  The first one starts the
poller. -/
def takeSlot (maxStreams : Nat) (s : Gui Who Ver) (who : Who) : Option (Gui Who Ver) :=
  if maxStreams ≤ s.total then none
  else
    let mine := (s.per.get? who).getD 0
    if maxStreamsPerCaller ≤ mine then none
    else some { s with
      streams := s.streams ++ [⟨who, .taken⟩]
      total := s.total + 1
      per := s.per.insert who (mine + 1)
      polling := true
      pollers := if s.polling then s.pollers else s.pollers ++ [.sleeping] }

/-- A stream is dropped: its slot is free. -/
def dropSlot (s : Gui Who Ver) (i : Nat) (st : Stream Who Ver) : Gui Who Ver :=
  { s with
    streams := s.streams.eraseIdx i
    total := s.total - 1
    per := match s.per.get? st.who with
      | none => s.per
      | some n => if n - 1 = 0 then s.per.erase st.who else s.per.insert st.who (n - 1) }

def setStage (s : Gui Who Ver) (i : Nat) (st : Stream Who Ver) (stage : Stage Ver) :
    Gui Who Ver :=
  { s with streams := s.streams.set i { st with stage := stage } }

/-- What happens next.  Streams and pollers are named by their places; `sees`
says whether the caller may see some of what changed. -/
inductive Act (Who Ver : Type)
  | take (who : Who)
  | subscribe (i : Nat)
  /-- The first look refreshes the authority. -/
  | firstLook (i : Nat) (opened found : Ver) (sees : Bool)
  | markUnchanged (i : Nat)
  /-- The client reads on. -/
  | read (i : Nat)
  | wake (i : Nat)
  | look (i : Nat) (sees : Bool)
  /-- The client goes away, or the first look is refused. -/
  | drop (i : Nat)
  /-- A request on the authority, which may write. -/
  | request (opened found : Ver) (writes : Bool)
  /-- A writing request wakes the streams again. -/
  | wrote
  /-- It is dropped before it does. -/
  | cancel
  | pollerWakes (j : Nat)
  | pollerLooks (j : Nat) (opened found : Ver) (quiet : Bool)
  | pollerWakesStreams (j : Nat)

/-- A step of one stream's task. -/
def streamStep (s : Gui Who Ver) (i : Nat) (st : Stream Who Ver) :
    Act Who Ver → Option (Gui Who Ver)
  | .subscribe _ =>
      match st.stage with
      | .taken => some (s.setStage i st (.subscribed s.changed))
      | _ => none
  | .firstLook _ opened found sees =>
      match st.stage with
      | .subscribed mark =>
          some ((s.withAuthority opened found).setStage i st (.looked mark found sees))
      | _ => none
  | .markUnchanged _ =>
      match st.stage with
      | .looked _ seen pending => some (s.setStage i st (.idle s.changed seen pending))
      | _ => none
  | .read _ =>
      match st.stage with
      | .idle mark seen true => some (s.setStage i st (.idle mark seen false))
      | .idle mark seen false => some (s.setStage i st (.waiting mark seen))
      | _ => none
  | .wake _ =>
      match st.stage with
      | .waiting mark seen =>
          if mark = s.changed then none else some (s.setStage i st (.woken s.changed seen))
      | _ => none
  | .look _ sees =>
      match st.stage, s.authority with
      | .woken mark seen, some now =>
          if sees then some (s.setStage i st (.idle mark now false))
          -- Nothing this caller may see changed: no event.
          else if now = seen then some (s.setStage i st (.waiting mark seen))
          else some (s.setStage i st (.idle mark now false))
      | _, _ => none
  | .drop _ => some (s.dropSlot i st)
  | _ => none

/-- A step of a poller's task. -/
def pollerStep (s : Gui Who Ver) (j : Nat) (p : Poller) :
    Act Who Ver → Option (Gui Who Ver)
  | .pollerWakes _ =>
      match p with
      | .sleeping =>
          if s.total = 0 then some { s with polling := false, pollers := s.pollers.eraseIdx j }
          else some { s with pollers := s.pollers.set j .asked }
      | _ => none
  | .pollerLooks _ opened found quiet =>
      match p with
      | .asked =>
          let s := s.withAuthority opened found
          some { s with pollers := s.pollers.set j (if quiet then .sleeping else .moved) }
      | _ => none
  | .pollerWakesStreams _ =>
      match p with
      | .moved => some { s with changed := s.changed + 1, pollers := s.pollers.set j .sleeping }
      | _ => none
  | _ => none

/-- The place a step names. -/
def Act.place : Act Who Ver → Nat
  | .subscribe i | .firstLook i _ _ _ | .markUnchanged i | .read i | .wake i | .look i _ | .drop i
  | .pollerWakes i | .pollerLooks i _ _ _ | .pollerWakesStreams i => i
  | _ => 0

def step (maxStreams : Nat) (s : Gui Who Ver) (act : Act Who Ver) : Option (Gui Who Ver) :=
  match act with
  | .take who => s.takeSlot maxStreams who
  | .request opened found writes =>
      let s := s.withAuthority opened found
      some { s with writers := if writes then s.writers + 1 else s.writers }
  | .wrote =>
      if s.writers = 0 then none
      else some { s with changed := s.changed + 1, writers := s.writers - 1 }
  | .cancel => if s.writers = 0 then none else some { s with writers := s.writers - 1 }
  | .pollerWakes _ | .pollerLooks .. | .pollerWakesStreams _ =>
      (s.pollers[act.place]?).bind fun p => s.pollerStep act.place p act
  | _ => (s.streams[act.place]?).bind fun st => s.streamStep act.place st act

/-- A run of the server. -/
def run (maxStreams : Nat) (s : Gui Who Ver) (acts : List (Act Who Ver)) :
    Option (Gui Who Ver) := acts.foldlM (step maxStreams) s

/-! ## What is claimed -/

/-- The open streams of a principal. -/
def held (s : Gui Who Ver) (who : Who) : Nat := s.streams.countP fun st => st.who = who

/-- No stream sleeps on a change, the counts are those of the open slots, and
one poller runs while a stream is open. -/
structure Awake (maxStreams : Nat) (s : Gui Who Ver) : Prop where
  waiting : ∀ st ∈ s.streams, ∀ mark seen, st.stage = .waiting mark seen → mark = s.changed →
    s.authority = some seen
  total : s.total = s.streams.length ∧ s.total ≤ maxStreams
  per : ∀ who, s.per.get? who = (if s.held who = 0 then none else some (s.held who)) ∧
    s.held who ≤ maxStreamsPerCaller
  poller : s.streams ≠ [] → s.pollers.length = 1

end Gui

end Improv.Server
