import Mathlib.Data.Finset.Basic
import Wicara.Core.Bytes

namespace Wicara.Core

open Lib.Encoding

/-- What the code takes from `blake3` and `ed25519_dalek`. -/
structure Crypto where
  SigningKey : Type
  verifyingKey : SigningKey → Key
  sign : SigningKey → List UInt8 → Bytes 64
  /-- `VerifyingKey::from_bytes` finds a point under these bytes. -/
  fromBytes : Key → Bool
  verifyStrict : Key → List UInt8 → List UInt8 → Bool
  blake3 : List UInt8 → Bytes 32

/-- `b"wicara room entry v1"` -/
def entryContext : List UInt8 :=
  [119, 105, 99, 97, 114, 97, 32, 114, 111, 111, 109, 32, 101, 110, 116, 114, 121, 32, 118, 49]

def genesis : Bytes 32 := Bytes.replicate 32 0

abbrev RoomId := Bytes 32

inductive RoomOp
  | create (name : String)
  | invite (member : Key)
  | kick (member : Key)
  | leave
  deriving DecidableEq

/-- `postcard::to_stdvec` of an op: the variant's number and then its field. -/
def RoomOp.toStdvec : RoomOp → List UInt8
  | .create name => varint 0 ++ string name
  | .invite member => varint 1 ++ member.toList
  | .kick member => varint 2 ++ member.toList
  | .leave => varint 3

structure RoomEntry where
  prev : Bytes 32
  author : Key
  tsMs : UInt64
  op : RoomOp
  signature : List UInt8
  deriving DecidableEq

def transcript (prev : Bytes 32) (author : Key) (tsMs : UInt64) (op : RoomOp) : List UInt8 :=
  entryContext ++ (prev.toList ++ (author.toList ++ (leBytes 8 tsMs.toNat ++ op.toStdvec)))

def RoomEntry.transcript (e : RoomEntry) : List UInt8 :=
  Core.transcript e.prev e.author e.tsMs e.op

/-- The bytes an entry is hashed from. -/
def RoomEntry.preimage (e : RoomEntry) : List UInt8 := e.transcript ++ e.signature

/-- What `verify_log` refuses a log for; `n` is the index of the entry. -/
inductive LogError
  | empty
  | notAtCreate
  | signatureLength
  | authorKey
  | notSigned
  | firstNotCreate
  | doesNotFollow (n : Nat)
  | secondCreate (n : Nat)
  | notAdmin (n : Nat)
  | kicksFounder (n : Nat)
  | notIn (n : Nat)
  | orphans (n : Nat)
  deriving DecidableEq

def LogError.message : LogError → String
  | .empty => "room log is empty"
  | .notAtCreate => "room log does not start at a create"
  | .signatureLength => "room entry signature is not 64 bytes"
  | .authorKey => "room entry author is not a valid Ed25519 key"
  | .notSigned => "room entry is not signed by the author it names"
  | .firstNotCreate => "first room entry is not a create"
  | .doesNotFollow n => s!"room log entry {n} does not follow the one before it"
  | .secondCreate n => s!"room log entry {n} creates a second room"
  | .notAdmin n => s!"room log entry {n} was written by someone who is not an admin"
  | .kicksFounder n => s!"room log entry {n} kicks the founder"
  | .notIn n => s!"room log entry {n} is someone leaving a room they are not in"
  | .orphans n =>
    s!"room log entry {n} is the founder leaving, which would orphan the room"

/-- A room as the chain says it stands. -/
structure Room where
  id : RoomId
  name : String
  founder : Key
  members : Finset Key
  head : Bytes 32
  length : Nat

/-- Not derived: the derived instance is stuck on two listings of one set of members. -/
instance : DecidableEq Room := fun a b =>
  decidable_of_iff (a.id = b.id ∧ a.name = b.name ∧ a.founder = b.founder ∧
    a.members = b.members ∧ a.head = b.head ∧ a.length = b.length) (by
      cases a
      cases b
      simp)

def Room.isAdmin (room : Room) (who : Key) : Bool := room.founder = who

/-- `anyhow::ensure!` -/
def ensure (p : Prop) [Decidable p] (err : ε) : Except ε Unit :=
  if p then .ok () else .error err

section

variable (C : Crypto)

def RoomEntry.new (author : C.SigningKey) (prev : Bytes 32) (tsMs : UInt64) (op : RoomOp) :
    RoomEntry where
  prev := prev
  author := C.verifyingKey author
  tsMs := tsMs
  op := op
  signature := (C.sign author (Core.transcript prev (C.verifyingKey author) tsMs op)).toList

def RoomEntry.hash (e : RoomEntry) : Bytes 32 := C.blake3 e.preimage

def RoomEntry.verifySignature (e : RoomEntry) : Except LogError Unit := do
  ensure (e.signature.length = 64) .signatureLength
  ensure (C.fromBytes e.author = true) .authorKey
  ensure (C.verifyStrict e.author e.transcript e.signature = true) .notSigned

/-- One round of the loop of `verify_log`, on entry `n`. -/
def Room.admitted (n : Nat) (room : Room) (entry : RoomEntry) : Except LogError Room := do
  ensure (entry.prev = room.head) (.doesNotFollow n)
  entry.verifySignature C
  let members ← match entry.op with
    | .create _ => .error (.secondCreate n)
    | .invite member => do
      ensure (room.isAdmin entry.author = true) (.notAdmin n)
      pure (insert member room.members)
    | .kick member => do
      ensure (room.isAdmin entry.author = true) (.notAdmin n)
      ensure (member ≠ room.founder) (.kicksFounder n)
      pure (room.members.erase member)
    | .leave => do
      ensure (entry.author ∈ room.members) (.notIn n)
      ensure (entry.author ≠ room.founder) (.orphans n)
      pure (room.members.erase entry.author)
  pure { room with members := members, head := entry.hash C, length := room.length + 1 }

def replay : Nat → Room → List RoomEntry → Except LogError Room
  | _, room, [] => .ok room
  | n, room, entry :: entries => do replay (n + 1) (← room.admitted C n entry) entries

/-- The room an accepted `Create` opens. -/
def Room.opened (create : RoomEntry) (name : String) : Room where
  id := create.hash C
  name := name
  founder := create.author
  members := {create.author}
  head := create.hash C
  length := 1

def verifyLog : List RoomEntry → Except LogError Room
  | [] => .error .empty
  | create :: entries => do
    ensure (create.prev = genesis) .notAtCreate
    create.verifySignature C
    match create.op with
    | .create name => replay C 1 (Room.opened C create name) entries
    | _ => .error .firstNotCreate

end

end Wicara.Core
