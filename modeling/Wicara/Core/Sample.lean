import Wicara.Core.RoomLaws
import Wicara.Core.Wire

namespace Wicara.Core.Sample

/-- A polynomial checksum, small enough to run: no collision among the logs below. -/
def checksum (bytes : List UInt8) : Nat :=
  bytes.foldl (fun h b => (h * 257 + b.toNat + 1) % 2 ^ 256) 0

/-- A signature scheme on which logs can be evaluated.  Honest signatures verify and
edited entries do not; it is no more than that. -/
def crypto : Crypto where
  SigningKey := UInt8
  verifyingKey seed := Bytes.replicate 32 seed
  sign seed message := Bytes.ofNat 64 (checksum (List.replicate 32 seed ++ message))
  fromBytes _ := true
  verifyStrict key message signature :=
    signature = (Bytes.ofNat 64 (checksum (key.toList ++ message))).toList
  blake3 bytes := Bytes.ofNat 32 (checksum bytes)

/-- The key of the identity with this seed. -/
abbrev key (seed : UInt8) : Key := Bytes.replicate 32 seed

/-- An entry as its author would make it. -/
def signed (seed : UInt8) (prev : Bytes 32) (tsMs : UInt64) (op : RoomOp) : RoomEntry :=
  RoomEntry.new crypto seed prev tsMs op

/-- Honestly signed entries, each on the hash of the one before it. -/
def chain : Bytes 32 → List (UInt8 × UInt64 × RoomOp) → List RoomEntry
  | _, [] => []
  | prev, (seed, tsMs, op) :: ops =>
    let entry := signed seed prev tsMs op
    entry :: chain (entry.hash crypto) ops

/-- The ids of `verify_log`'s tests: 1 founds the room and invites 2 and 3. -/
def kitchen : List RoomEntry :=
  chain genesis [(1, 1, .create "kitchen"), (1, 2, .invite (key 2)), (1, 3, .invite (key 3))]

def kitchenRoom : Room where
  id := (signed 1 genesis 1 (.create "kitchen")).hash crypto
  name := "kitchen"
  founder := key 1
  members := {key 3, key 2, key 1}
  head := (kitchen.getLast (by decide +kernel)).hash crypto
  length := 3

theorem verifyLog_kitchen : verifyLog crypto kitchen = .ok kitchenRoom := by decide +kernel

/-- The kitchen once its founder has kicked 3. -/
def kicked : List RoomEntry := kitchen ++ [signed 1 kitchenRoom.head 4 (.kick (key 3))]

/-- The ops of a room that 1 founds for 2, 3 and 4. -/
def studyOps : List (UInt8 × UInt64 × RoomOp) :=
  [(1, 1, .create "study"), (1, 2, .invite (key 2)), (1, 3, .invite (key 3)),
    (1, 4, .invite (key 4))]

/-- The founder kicks 3 … -/
def studyKicked : List RoomEntry := chain genesis (studyOps ++ [(1, 5, .kick (key 3))])

/-- … while 2 and 4, who have not heard of it, leave one after the other. -/
def studyLeft : List RoomEntry := chain genesis (studyOps ++ [(2, 5, .leave), (4, 6, .leave)])

def studyId : RoomId := (signed 1 genesis 1 (.create "study")).hash crypto

/-- A reader of room logs that knows the encodings of these logs and no others. -/
def decodeAmong (logs : List (List RoomEntry)) (body : List UInt8) :
    Except String (List RoomEntry) :=
  match logs.find? fun log => logToStdvec log = body with
  | some log => .ok log
  | none => .error "Hit the end of buffer, expected more data"

/-- An entry by which the holder of `seed` leaves the kitchen. -/
def leaveKitchen (seed : UInt8) : RoomEntry :=
  signed seed kitchenRoom.head 4 .leave

end Wicara.Core.Sample
