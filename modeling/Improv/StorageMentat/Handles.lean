import Mathlib.Data.List.Basic
import Mathlib.Logic.Function.Basic
/-!
# Store handles on one file

A handle reads the file live but keeps the next transaction and entity ids in
memory since it opened the store.  A save looks whether they are stale before it
takes the write lock, and whether the model moved after; handles of any number
of processes take their steps in any order.
-/

namespace Improv.StorageMentat

/-- A transaction of the log, and whether it changed a datom other than its own
instant. -/
structure Tx where
  id : Nat
  changes : Bool
deriving DecidableEq

inductive SaveKind
  | model
  | policies
deriving DecidableEq

/-- What a handle last loaded or saved at: the high-water, the file's commits
then, and those when the model was last loaded or saved. -/
structure Base where
  tx : Nat
  seen : Nat
  read : Nat
deriving DecidableEq

/-- One SQLite transaction: the transactions it wrote, and the ids it gave new
entities; whose it is, and what that handle had last loaded or saved. -/
structure Commit where
  txs : List Tx
  entities : List Nat
  kind : SaveKind
  handle : Nat
  base : Option Base
deriving DecidableEq

/-- Whether a commit changed nothing. -/
def Commit.Quiet (c : Commit) : Prop := ∀ t ∈ c.txs, t.changes = false

/-- The file: its commits, and the next entity id it keeps. -/
structure File where
  commits : List Commit
  nextEntity : Nat
deriving DecidableEq

/-- The rows of the transaction log, oldest first. -/
def logOf (commits : List Commit) : List Tx := commits.flatMap Commit.txs

/-- The newest transaction that changed anything. -/
def highWaterOf (commits : List Commit) : Nat :=
  ((logOf commits).filter Tx.changes).getLast?.elim 0 Tx.id

namespace File

/-- The id of the log's newest row. -/
def newest (f : File) : Nat := (logOf f.commits).getLast?.elim 0 Tx.id

def highWater (f : File) : Nat := highWaterOf f.commits

end File

/-- Where a handle stands in what it is doing. -/
inductive Phase
  | idle
  | loading (b : Base)
  /-- Found fresh, before the write lock. -/
  | fresh (k : SaveKind)
  | writing (k : SaveKind)
deriving DecidableEq

structure Handle where
  loadedTx : Option Base
  lastTx : Nat
  nextEntity : Nat
  phase : Phase
deriving DecidableEq

/-- A store opened: the ids are read from the file. -/
def openStore (f : File) : Handle := ⟨none, f.newest, f.nextEntity, .idle⟩

/-- The store reopened where another process has committed since this handle
last did. -/
def freshForWrite (f : File) (h : Handle) : Handle :=
  if f.newest ≠ h.lastTx then { h with lastTx := f.newest, nextEntity := f.nextEntity } else h

/-- Whether a save is refused under the write lock: the model moved since it was
loaded.  Policies are saved unchecked. -/
def conflicts (f : File) (h : Handle) : SaveKind → Bool
  | .model => h.loadedTx.elim false fun b => f.highWater ≠ b.tx
  | .policies => false

/-- The transactions a save writes, numbered from the handle's own counter. -/
def written (h : Handle) (changes : List Bool) : List Tx :=
  (changes.zipIdx (h.lastTx + 1)).map fun p => ⟨p.2, p.1⟩

/-- A save's commit. -/
def commitOf (i : Nat) (h : Handle) (k : SaveKind) (changes : List Bool) (entities : Nat) :
    Commit :=
  ⟨written h changes, List.range' h.nextEntity entities, k, i, h.loadedTx⟩

def File.commit (f : File) (i : Nat) (h : Handle) (k : SaveKind) (changes : List Bool)
    (entities : Nat) : File :=
  ⟨f.commits ++ [commitOf i h k changes entities], h.nextEntity + entities⟩

/-- A handle after its commit: a model's save is what it last saved, and a save
of policies moves on what it had loaded. -/
def committed (f : File) (i : Nat) (h : Handle) (k : SaveKind) (changes : List Bool)
    (entities : Nat) : Handle :=
  let f' := f.commit i h k changes entities
  let n := f'.commits.length
  { loadedTx :=
      match k with
      | .model => some ⟨f'.highWater, n, n⟩
      | .policies => h.loadedTx.map fun b => ⟨f'.highWater, n, b.read⟩
    lastTx := h.lastTx + changes.length
    nextEntity := h.nextEntity + entities
    phase := .idle }

/-! ## Handles together -/

/-- The file, its handles, and which holds the write lock. -/
structure State where
  file : File
  handles : Nat → Handle
  lock : Option Nat
  /-- What was ever loaded or saved, as callers may hand it on. -/
  bases : List Base

/-- One step of one handle. -/
inductive Op
  | openStore
  /-- A load begins with the high-water, and ends with what it read. -/
  | beginLoad
  | endLoad
  | failLoad
  | setLoadedTx (b : Option Base)
  | freshForWrite (k : SaveKind)
  /-- The write lock taken, and the save refused there if it conflicts. -/
  | beginTransaction
  | rollback
  /-- What each transaction of the save changed, and how many entities are new. -/
  | commit (changes : List Bool) (entities : Nat)
deriving DecidableEq

namespace State

/-- A handle moved on. -/
def setHandle (s : State) (i : Nat) (h : Handle) : State :=
  { s with handles := Function.update s.handles i h }

/-- What a handle's step leads to; none where it is not its turn for it. -/
def step (s : State) (i : Nat) (op : Op) : Option State :=
  let h := s.handles i
  match op, h.phase with
  | .openStore, .idle => some (s.setHandle i (openStore s.file))
  | .beginLoad, .idle =>
    let n := s.file.commits.length
    some (s.setHandle i { h with phase := .loading ⟨s.file.highWater, n, n⟩ })
  | .endLoad, .loading b =>
    some { s.setHandle i { h with loadedTx := some b, phase := .idle } with bases := b :: s.bases }
  | .failLoad, .loading _ => some (s.setHandle i { h with phase := .idle })
  | .setLoadedTx b, .idle =>
    if ∀ x ∈ b, x ∈ s.bases then some (s.setHandle i { h with loadedTx := b }) else none
  | .freshForWrite k, .idle =>
    some (s.setHandle i { freshForWrite s.file h with phase := .fresh k })
  | .beginTransaction, .fresh k =>
    if s.lock ≠ none then none
    else if conflicts s.file h k then some (s.setHandle i { h with phase := .idle })
    else some { s.setHandle i { h with phase := .writing k } with lock := some i }
  | .rollback, .writing _ => some { s.setHandle i { h with phase := .idle } with lock := none }
  | .commit changes entities, .writing k =>
    if entities ≠ 0 ∧ true ∉ changes then none
    else
      let h' := committed s.file i h k changes entities
      some { s.setHandle i h' with
        file := s.file.commit i h k changes entities
        lock := none
        bases := h'.loadedTx.toList ++ s.bases }
  | _, _ => none

/-- Steps in order. -/
def run (s : State) (ops : List (Nat × Op)) : Option State :=
  ops.foldlM (fun s op => s.step op.1 op.2) s

end State

end Improv.StorageMentat
