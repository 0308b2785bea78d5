import Improv.GuiWeb.Authority
/-!
# The app, the wire and the stream

The app takes in what the service delivered in the order it arrived; requests
and their replies overtake one another; the stream sends one connection's events
in order and reconnects from the last version it delivered.  What the app's
worksheets show beyond the cache (axes, panes, texts) is left out.
-/

namespace Improv.GuiWeb

open Improv.Lib Improv.CoreModel

inductive Login
  /-- Asking for a token. -/
  | asking
  | trying
  | loggedIn
deriving DecidableEq

/-- What a sent request was for. -/
inductive Pending
  | readStructure
  | window (m : MeasureId) (w : Window)
  | cell (k : Cell)
  /-- A formula, a rename, an undo: its reply is a status. -/
  | other
deriving DecidableEq

inductive Request (V : Type)
  | readStructure
  | window (m : MeasureId) (w : Window)
  | edit (k : Cell) (v : Option V)
  | other

def Request.why {V : Type} : Request V → Pending
  | .readStructure => .readStructure
  | .window m w => .window m w
  | .edit k _ => .cell k
  | .other => .other

inductive Response (T V : Type)
  | struct (t : T)
  | cells (cells : List (Coordinate × V))
  | done

/-- What the service delivered: a reply without a response is a failure. -/
inductive Event (T V : Type)
  | loggedOut
  | changed (ev : ChangeEvent V)
  | reply (ticket : Nat) (r : Option (Response T V))

variable {T V : Type}

/-! ## The app -/

structure App (T V : Type) where
  login : Login
  /-- The adopted structure. -/
  struct : T
  cache : Cache V
  pending : SortedMap Nat Pending
  /-- The next ticket. -/
  next : Nat
  /-- The last version the stream delivered. -/
  seen : Option Nat
  /-- What arrived and is not taken in yet. -/
  out : List (Event T V)

namespace App

/-- A new structure: every cell is to be read again. -/
def adopt (a : App T V) (t : T) : App T V := { a with struct := t, cache := a.cache.clear }

def reply (a : App T V) : Pending → Option (Response T V) → App T V
  | .readStructure, some (.struct t) => { a with login := .loggedIn }.adopt t
  | .window m w, some (.cells cells) => { a with cache := a.cache.fill m w cells }
  -- Show the authority's value again.
  | .cell k, none => { a with cache := (a.cache.set k none).clear }
  | _, _ => a

/-- A window that is neither read nor asked for. -/
def wants (a : App T V) (m : MeasureId) (w : Window) : Bool :=
  !a.cache.has m w && !(a.pending.values.contains (.window m w))

end App

/-! ## The whole -/

/-- A connection of the change stream: the events under way, and the version its
last look saw. -/
structure Stream (V : Type) where
  queue : List (ChangeEvent V)
  sent : Nat

structure System (T V : Type) where
  auth : Authority T V
  app : App T V
  /-- Requests the authority has not answered. -/
  requests : List (Nat × Request V)
  /-- Replies under way. -/
  replies : List (Nat × Option (Response T V))
  stream : Option (Stream V)
  /-- The version of the last stream event the app took in. -/
  heard : Option Nat

/-- What a request or another session does to the authority. -/
inductive Effect (T V : Type)
  | nothing
  | cells (ws : Writes V)
  | restructure (t : T) (values : SortedMap Cell V)

def Authority.apply (a : Authority T V) : Effect T V → Authority T V
  | .nothing => a
  | .cells ws => a.write ws
  | .restructure t values => a.restructure t values

namespace System

/-- Send a request. -/
def ask (s : System T V) (q : Request V) : System T V :=
  { s with
    app := { s.app with
      pending := s.app.pending.insert s.app.next q.why
      next := s.app.next + 1 }
    requests := s.requests ++ [(s.app.next, q)] }

def fetchWindow (s : System T V) (want : MeasureId × Window) : System T V :=
  if s.app.wants want.1 want.2 then s.ask (.window want.1 want.2) else s

def fetchWindows (s : System T V) (wants : List (MeasureId × Window)) : System T V :=
  wants.foldl fetchWindow s

/-- Shown at once; the authority's answer follows on the change stream. -/
def commitCell (s : System T V) (k : Cell) (v : Option V) : System T V :=
  { s with app := { s.app with cache := s.app.cache.set k v } }.ask (.edit k v)

/-- The token is tried, over a new connection of the stream. -/
def logIn (s : System T V) : System T V :=
  { s with app := { s.app with login := .trying }, stream := none }.ask .readStructure

/-- An arrived event taken in. -/
def takeIn (s : System T V) : Event T V → System T V
  | .loggedOut => { s with app := { s.app with login := .asking, pending := .empty } }
  | .changed ev =>
      let s := { s with heard := some ev.version }
      if ev.reload then s.ask .readStructure
      else { s with app := { s.app with cache := s.app.cache.setAll ev.cells } }
  | .reply ticket r =>
      match s.app.pending.get? ticket with
      | none => s
      | some why =>
          { s with app := { s.app with pending := s.app.pending.erase ticket }.reply why r }

/-- The authority's answer: it may refuse.  An edit's log entry names its cell. -/
def answer (s : System T V) (ticket : Nat) (granted : Bool) (effect : Effect T V) :
    Option (System T V) :=
  let reply (auth : Authority T V) (r : Option (Response T V)) : System T V :=
    { s with
      auth := auth
      requests := s.requests.filter fun q => q.1 ≠ ticket
      replies := s.replies ++ [(ticket, r)] }
  match s.requests.lookup ticket, granted, effect with
  | none, _, _ => none
  | some _, false, _ => some (reply s.auth none)
  | some .readStructure, true, _ => some (reply s.auth (some (.struct s.auth.struct)))
  | some (.window m w), true, _ => some (reply s.auth (some (.cells (s.auth.window m w))))
  | some (.edit k _), true, .cells ws =>
      if k ∈ ws.map (·.1) then some (reply (s.auth.write ws) (some .done)) else none
  | some (.edit _ _), true, _ => none
  | some .other, true, effect => some (reply (s.auth.apply effect) (some .done))

/-- The first look of a connection: what changed since the version delivered
last, or the version it starts from. -/
def connect (s : System T V) : System T V :=
  let first := match s.app.seen with
    | none => [⟨s.auth.version, [], false⟩]
    | some v => (s.auth.changesSince v).toList
  { s with stream := some ⟨first, s.auth.version⟩ }

/-- What happens next. -/
inductive Act (T V : Type)
  | logIn
  | fetchWindows (wants : List (MeasureId × Window))
  | commitCell (k : Cell) (v : Option V)
  /-- A structural change is asked for. -/
  | change
  /-- The app takes in the oldest event that arrived. -/
  | drain
  | arrive (ticket : Nat)
  /-- A request or its reply is lost, and fails. -/
  | lose (ticket : Nat)
  /-- The token is refused. -/
  | refuse (ticket : Nat)
  | connect
  | look
  | deliver
  | disconnect
  | refuseStream
  | answer (ticket : Nat) (granted : Bool) (effect : Effect T V)
  /-- Another session changes something. -/
  | others (effect : Effect T V)
  | forget (n : Nat)

def receive (s : System T V) (ev : Event T V) : System T V :=
  { s with app := { s.app with out := s.app.out ++ [ev] } }

def step (s : System T V) : Act T V → Option (System T V)
  | .logIn => if s.app.login = .loggedIn then none else some s.logIn
  | .fetchWindows wants => if s.app.login = .loggedIn then some (s.fetchWindows wants) else none
  | .commitCell k v => if s.app.login = .loggedIn then some (s.commitCell k v) else none
  | .change => if s.app.login = .loggedIn then some (s.ask .other) else none
  | .drain =>
      match s.app.out with
      | [] => none
      | ev :: out => some ({ s with app := { s.app with out := out } }.takeIn ev)
  | .arrive ticket =>
      match s.replies.lookup ticket with
      | none => none
      | some r =>
          some ({ s with replies := s.replies.filter fun q => q.1 ≠ ticket }.receive
            (.reply ticket r))
  | .lose ticket =>
      if ticket ∈ s.requests.map (·.1) ∨ ticket ∈ s.replies.map (·.1) then
        some { s with
          requests := s.requests.filter fun q => q.1 ≠ ticket
          replies := (s.replies.filter fun q => q.1 ≠ ticket) ++ [(ticket, none)] }
      else none
  | .refuse ticket =>
      if ticket ∈ s.requests.map (·.1) then
        some ({ s with requests := s.requests.filter fun q => q.1 ≠ ticket }.receive .loggedOut)
      else none
  | .connect => some s.connect
  | .look =>
      s.stream.map fun st =>
        { s with
          stream := some ⟨st.queue ++ (s.auth.changesSince st.sent).toList, s.auth.version⟩ }
  | .deliver =>
      match s.stream with
      | some ⟨ev :: queue, sent⟩ =>
          let app := { s.app with seen := some ev.version }
          some ({ s with app := app, stream := some ⟨queue, sent⟩ }.receive (.changed ev))
      | _ => none
  | .disconnect => some { s with stream := none }
  | .refuseStream => some ({ s with stream := none }.receive .loggedOut)
  | .answer ticket granted effect => s.answer ticket granted effect
  | .others effect => some { s with auth := s.auth.apply effect }
  | .forget n => some { s with auth := s.auth.forget n }

/-- A run of the system. -/
def run (s : System T V) (acts : List (Act T V)) : Option (System T V) := acts.foldlM step s

/-- Before anyone logs in. -/
def start (auth : Authority T V) (blank : T) : System T V where
  auth := auth
  app := ⟨.asking, blank, .empty, .empty, 1, none, []⟩
  requests := []
  replies := []
  stream := none
  heard := none

/-! ## Convergence -/

/-- Logged in, no request is in flight, no event of the stream undelivered, and
the stream has looked at the current version. -/
def Quiet (s : System T V) : Prop :=
  s.app.login = .loggedIn ∧ s.requests = [] ∧ s.replies = [] ∧ s.app.out = [] ∧
    ∃ st, s.stream = some st ∧ st.queue = [] ∧ st.sent = s.auth.version

/-- The app shows what the authority has. -/
structure ShowsAuthority (s : System T V) : Prop where
  struct : s.app.struct = s.auth.struct
  cells : ∀ k, s.app.cache.get k ≠ .notLoaded →
    s.app.cache.get k = .ofOption (s.auth.values.get? k)

/-- The app converges to the authority. -/
def Converged (s : System T V) : Prop := s.Quiet → s.ShowsAuthority

end System

end Improv.GuiWeb
