import Mathlib.Data.String.Basic
import Improv.Lib.WireFormat
/-!
# Decoded row changes

What the decoder of the logical replication protocol hands on: the shape of a
relation, and the row changes of committed transactions.
-/

namespace Improv.PgModel

/-- One column value of a tuple: NULL, a TOASTed value that was not sent, or its
text. -/
inductive Datum
  | null
  | unchanged
  | text (s : String)
deriving DecidableEq

/-- A row: one datum per column of its relation. -/
abbrev Tuple := List Datum

structure Column where
  /-- Part of the replica identity key. -/
  key : Bool
  name : String
  typeOid : Nat
deriving DecidableEq

/-- The shape of a relation's tuples. -/
structure Relation where
  /-- `d`efault, `n`othing, `f`ull or `i`ndex. -/
  replicaIdentity : Char
  columns : List Column
deriving DecidableEq

/-- The value of a column in a tuple of the relation. -/
def Relation.get (r : Relation) (t : Tuple) (name : String) : Option Datum :=
  (r.columns.findIdx? fun c => c.name = name).bind fun i => t[i]?

/-- The Postgres type of a column, 0 for one the relation does not have. -/
def Relation.oidOf (r : Relation) (name : String) : Nat :=
  (r.columns.find? fun c => c.name = name).elim 0 Column.typeOid

/-- A decoded message; those that are no row change are one case here. -/
inductive Message
  | insert (rel : Nat) (new : Tuple)
  /-- The old key or whole old row, when sent. -/
  | update (rel : Nat) (old : Option Tuple) (new : Tuple)
  | delete (rel : Nat) (old : Tuple)
  | truncate (rels : List Nat)
  | control
deriving DecidableEq

/-- A committed transaction's row changes, in the order they were made. -/
structure Txn where
  xid : UInt32
  endLsn : Nat
  changes : List Message
deriving DecidableEq

end Improv.PgModel

/-!
## The decoder of `pgoutput`

Version 1 of the logical replication protocol: a cursor over untrusted bytes,
and the nine kinds of message it decodes.  Integers are big-endian, names end
with a zero byte, and tuple values come as texts with their lengths.
-/

namespace Improv.PgModel.PgOutput

open Improv.Lib.WireFormat

/-- A malformed or unexpected message. -/
inductive DecodeError
  | truncated
  | trailing (bytes : Nat)
  | unknownMessage (c : Char)
  | unknownColumn (c : Char)
  | badMarker (c : Char)
  | badString
  | unknownRelation (id : UInt32)
  | outsideTxn (what : String)
deriving DecidableEq

/-- A column of a relation message. -/
structure Column where
  /-- Part of the replica identity key. -/
  key : Bool
  name : String
  typeOid : UInt32
  typeMod : Int32
deriving DecidableEq

/-- The shape of the tuples of a relation. -/
structure Relation where
  id : UInt32
  namespaceName : String
  name : String
  /-- `d`efault, `n`othing, `f`ull or `i`ndex. -/
  replicaIdentity : UInt8
  columns : List Column
deriving DecidableEq

/-- A decoded message. -/
inductive Message
  | begin (finalLsn : UInt64) (commitTs : Int64) (xid : UInt32)
  /-- `endLsn` is the end of the commit record: where a consumer resumes. -/
  | commit (flags : UInt8) (commitLsn endLsn : UInt64) (commitTs : Int64)
  | origin (lsn : UInt64) (name : String)
  | relation (rel : Relation)
  | type (id : UInt32) (namespaceName name : String)
  | insert (rel : UInt32) (new : Tuple)
  /-- The old key or whole old row, when sent. -/
  | update (rel : UInt32) (old : Option Tuple) (new : Tuple)
  | delete (rel : UInt32) (old : Tuple)
  | truncate (options : UInt8) (rels : List UInt32)
deriving DecidableEq

/-! ## The cursor -/

/-- The byte of an ASCII character. -/
def ascii (c : Char) : UInt8 := UInt8.ofNat c.toNat

/-- A byte as the character with its number. -/
def asChar (b : UInt8) : Char := Char.ofNat b.toNat

abbrev Reads := Reader DecodeError

/-- The next `n` bytes as one number. -/
def number (n : Nat) : Reads Nat := ofBytes <$> take .truncated n

def u8 : Reads UInt8 := UInt8.ofNat <$> number 1

def u16 : Reads UInt16 := UInt16.ofNat <$> number 2

def u32 : Reads UInt32 := UInt32.ofNat <$> number 4

def i32 : Reads Int32 := UInt32.toInt32 <$> u32

def u64 : Reads UInt64 := UInt64.ofNat <$> number 8

def i64 : Reads Int64 := UInt64.toInt64 <$> u64

/-- A name: valid UTF-8 up to a zero byte. -/
def string : Reads String := untilZero .badString >>= asText .badString

def marker (ok : List Char) : Reads UInt8 := do
  let m ← u8
  if m ∈ ok.map ascii then return m else throw (.badMarker (asChar m))

/-- One value of a tuple. -/
def datum : Reads Datum := do
  let c ← u8
  if c = ascii 'n' then return .null
  else if c = ascii 'u' then return .unchanged
  else if c = ascii 't' then
    let len ← u32
    let bytes ← take .truncated len.toNat
    let s ← asText .badString bytes
    return .text s
  else throw (.unknownColumn (asChar c))

def tuple : Reads Tuple := do
  let n ← u16
  times datum n.toNat

/-! ## Messages -/

/-- One column of a relation message. -/
def column : Reads Column := do
  let flags ← u8
  let name ← string
  let typeOid ← u32
  let typeMod ← i32
  return { key := flags &&& 1 = 1, name, typeOid, typeMod }

/-- The old row of an update, if it was sent, and the marker of the new one. -/
def oldTuple : Reads (Option Tuple) := do
  let m ← marker ['K', 'O', 'N']
  if m = ascii 'N' then return none
  else
    let old ← tuple
    let _ ← marker ['N']
    return some old

/-- What follows the first byte of a message. -/
def body (c : UInt8) : Reads Message := do
  if c = ascii 'B' then
    let finalLsn ← u64
    let commitTs ← i64
    let xid ← u32
    return .begin finalLsn commitTs xid
  else if c = ascii 'C' then
    let flags ← u8
    let commitLsn ← u64
    let endLsn ← u64
    let commitTs ← i64
    return .commit flags commitLsn endLsn commitTs
  else if c = ascii 'O' then
    let lsn ← u64
    let name ← string
    return .origin lsn name
  else if c = ascii 'R' then
    let id ← u32
    let namespaceName ← string
    let name ← string
    let replicaIdentity ← u8
    let n ← u16
    let columns ← times column n.toNat
    return .relation { id, namespaceName, name, replicaIdentity, columns }
  else if c = ascii 'Y' then
    let id ← u32
    let namespaceName ← string
    let name ← string
    return .type id namespaceName name
  else if c = ascii 'I' then
    let rel ← u32
    let _ ← marker ['N']
    let new ← tuple
    return .insert rel new
  else if c = ascii 'U' then
    let rel ← u32
    let old ← oldTuple
    let new ← tuple
    return .update rel old new
  else if c = ascii 'D' then
    let rel ← u32
    let _ ← marker ['K', 'O']
    let old ← tuple
    return .delete rel old
  else if c = ascii 'T' then
    let n ← u32
    let options ← u8
    let rels ← times u32 n.toNat
    return .truncate options rels
  else throw (.unknownMessage (asChar c))

/-- Decode one message. -/
def decode (buf : List UInt8) : Except DecodeError Message :=
  whole .trailing (u8 >>= body) buf

/-! ## What a server sends -/

/-- The old row of a change is sent as its key or as a whole. -/
inductive OldRow
  | key
  | whole
deriving DecidableEq

/-- A column as it is sent: the key bit is the lowest of the flags. -/
structure SentColumn where
  flags : UInt8
  name : String
  typeOid : UInt32
  typeMod : Int32
deriving DecidableEq

/-- A message of the protocol. -/
inductive Sent
  | begin (finalLsn : UInt64) (commitTs : Int64) (xid : UInt32)
  | commit (flags : UInt8) (commitLsn endLsn : UInt64) (commitTs : Int64)
  | origin (lsn : UInt64) (name : String)
  | relation (id : UInt32) (namespaceName name : String) (replicaIdentity : UInt8)
      (columns : List SentColumn)
  | type (id : UInt32) (namespaceName name : String)
  | insert (rel : UInt32) (new : Tuple)
  | update (rel : UInt32) (old : Option (OldRow × Tuple)) (new : Tuple)
  | delete (rel : UInt32) (mark : OldRow) (old : Tuple)
  | truncate (options : UInt8) (rels : List UInt32)
deriving DecidableEq

def OldRow.marker : OldRow → UInt8
  | .key => ascii 'K'
  | .whole => ascii 'O'

/-- The column without the other bits of its flags. -/
def SentColumn.column (c : SentColumn) : Column :=
  { key := c.flags &&& 1 = 1, name := c.name, typeOid := c.typeOid, typeMod := c.typeMod }

/-- What the message says. -/
def Sent.message : Sent → Message
  | .begin finalLsn commitTs xid => .begin finalLsn commitTs xid
  | .commit flags commitLsn endLsn commitTs => .commit flags commitLsn endLsn commitTs
  | .origin lsn name => .origin lsn name
  | .relation id namespaceName name replicaIdentity columns =>
      .relation { id, namespaceName, name, replicaIdentity,
                  columns := columns.map SentColumn.column }
  | .type id namespaceName name => .type id namespaceName name
  | .insert rel new => .insert rel new
  | .update rel old new => .update rel (old.map Prod.snd) new
  | .delete rel _ old => .delete rel old
  | .truncate options rels => .truncate options rels

def u16Bytes (n : UInt16) : List UInt8 := toBytes 2 n.toNat

def u32Bytes (n : UInt32) : List UInt8 := toBytes 4 n.toNat

def i32Bytes (n : Int32) : List UInt8 := u32Bytes n.toUInt32

def u64Bytes (n : UInt64) : List UInt8 := toBytes 8 n.toNat

def i64Bytes (n : Int64) : List UInt8 := u64Bytes n.toUInt64

def stringBytes (s : String) : List UInt8 := utf8 s ++ [0]

def datumBytes : Datum → List UInt8
  | .null => [ascii 'n']
  | .unchanged => [ascii 'u']
  | .text s => ascii 't' :: (u32Bytes (.ofNat (utf8 s).length) ++ utf8 s)

def tupleBytes (t : Tuple) : List UInt8 := u16Bytes (.ofNat t.length) ++ t.flatMap datumBytes

def columnBytes (c : SentColumn) : List UInt8 :=
  c.flags :: (stringBytes c.name ++ (u32Bytes c.typeOid ++ i32Bytes c.typeMod))

def oldBytes : Option (OldRow × Tuple) → List UInt8
  | none => []
  | some (mark, old) => mark.marker :: tupleBytes old

/-- The first byte of a message. -/
def Sent.kind : Sent → UInt8
  | .begin .. => ascii 'B'
  | .commit .. => ascii 'C'
  | .origin .. => ascii 'O'
  | .relation .. => ascii 'R'
  | .type .. => ascii 'Y'
  | .insert .. => ascii 'I'
  | .update .. => ascii 'U'
  | .delete .. => ascii 'D'
  | .truncate .. => ascii 'T'

/-- The bytes after the first. -/
def Sent.bodyBytes : Sent → List UInt8
  | .begin finalLsn commitTs xid => u64Bytes finalLsn ++ (i64Bytes commitTs ++ u32Bytes xid)
  | .commit flags commitLsn endLsn commitTs =>
      flags :: (u64Bytes commitLsn ++ (u64Bytes endLsn ++ i64Bytes commitTs))
  | .origin lsn name => u64Bytes lsn ++ stringBytes name
  | .relation id namespaceName name replicaIdentity columns =>
      u32Bytes id ++ (stringBytes namespaceName ++ (stringBytes name ++ (replicaIdentity ::
        (u16Bytes (.ofNat columns.length) ++ columns.flatMap columnBytes))))
  | .type id namespaceName name => u32Bytes id ++ (stringBytes namespaceName ++ stringBytes name)
  | .insert rel new => u32Bytes rel ++ (ascii 'N' :: tupleBytes new)
  | .update rel old new => u32Bytes rel ++ (oldBytes old ++ (ascii 'N' :: tupleBytes new))
  | .delete rel mark old => u32Bytes rel ++ (mark.marker :: tupleBytes old)
  | .truncate options rels =>
      u32Bytes (.ofNat rels.length) ++ (options :: rels.flatMap u32Bytes)

def Sent.encode (m : Sent) : List UInt8 := m.kind :: m.bodyBytes

/-! ## What fits the format -/

/-- A name has no zero byte. -/
def NameFits (s : String) : Prop := 0 ∉ utf8 s

/-- A text's length fits its four bytes. -/
def DatumFits : Datum → Prop
  | .text s => (utf8 s).length < 256 ^ 4
  | _ => True

def TupleFits (t : Tuple) : Prop := t.length < 256 ^ 2 ∧ ∀ d ∈ t, DatumFits d

/-- Names end at their zero byte, and counts fit their bytes. -/
def Sent.Fits : Sent → Prop
  | .begin .. => True
  | .commit .. => True
  | .origin _ name => NameFits name
  | .relation _ namespaceName name _ columns =>
      NameFits namespaceName ∧ NameFits name ∧ columns.length < 256 ^ 2 ∧
        ∀ c ∈ columns, NameFits c.name
  | .type _ namespaceName name => NameFits namespaceName ∧ NameFits name
  | .insert _ new => TupleFits new
  | .update _ old new => (∀ p ∈ old, TupleFits p.2) ∧ TupleFits new
  | .delete _ _ old => TupleFits old
  | .truncate _ rels => rels.length < 256 ^ 4

end Improv.PgModel.PgOutput
