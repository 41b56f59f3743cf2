import Wicara.Core.Room

namespace Wicara.Core

structure MessageId where
  sender : Key
  seq : UInt64
  tsMs : UInt64
  deriving DecidableEq

def MessageId.sortKey (id : MessageId) : UInt64 × UInt64 × Key := (id.tsMs, id.seq, id.sender)

/-- How such keys compare, one component after the other. -/
def SortKey.lt (a b : UInt64 × UInt64 × Key) : Prop :=
  a.1 < b.1 ∨ a.1 = b.1 ∧ (a.2.1 < b.2.1 ∨ a.2.1 = b.2.1 ∧ a.2.2 < b.2.2)

/-- `1a2b3c4d-7` -/
def MessageId.display (id : MessageId) : String :=
  hex (id.sender.toList.take 4) ++ "-" ++ toString id.seq.toNat

/-- `postcard::to_stdvec` of a room log. -/
def RoomEntry.toStdvec (e : RoomEntry) : List UInt8 :=
  e.prev.toList ++ (e.author.toList ++ (Lib.Encoding.varint e.tsMs.toNat ++
    (e.op.toStdvec ++ Lib.Encoding.lengthPrefixed e.signature)))

def logToStdvec (log : List RoomEntry) : List UInt8 :=
  Lib.Encoding.varint log.length ++ (log.map RoomEntry.toStdvec).flatten

structure Counter where
  sender : Key
  seq : UInt64
  deriving DecidableEq

/-- `now` is what the wall clock says at the call. -/
def Counter.mint (now : UInt64) (c : Counter) : MessageId × Counter :=
  (⟨c.sender, c.seq + 1, now⟩, { c with seq := c.seq + 1 })

inductive Frame
  | hello (nickname : String)
  | chat (id : MessageId) (body : String) (replyTo : Option MessageId)
  | edit (id target : MessageId) (body : String)
  | delete (id target : MessageId)
  | react (id target : MessageId) (emoji : String) (on : Bool)
  | inRoom (room : RoomId) (op : Frame)
  | file (id : MessageId) (name : String) (size : UInt64) (hash : Bytes 32)
  | roomUpdated (room : RoomId) (log : List RoomEntry)
  deriving DecidableEq

namespace Frame

def id : Frame → Option MessageId
  | .hello _ | .roomUpdated _ _ => none
  | .chat id _ _ | .edit id _ _ | .delete id _ | .react id _ _ _ | .file id _ _ _ => some id
  | .inRoom _ op => op.id

def conversation (peer : Key) : Frame → Key
  | .inRoom room _ => room
  | _ => peer

def unwrapRoom : Frame → Frame
  | .inRoom _ op => op
  | other => other

@[simp] theorem id_unwrapRoom (frame : Frame) : frame.unwrapRoom.id = frame.id := by
  cases frame <;> rfl

end Frame

open Lib.Encoding

/-- `MAX_FRAME` -/
def maxFrame : Nat := 1 <<< 20

def MessageId.toStdvec (id : MessageId) : List UInt8 :=
  id.sender.toList ++ (varint id.seq.toNat ++ varint id.tsMs.toNat)

def boolToStdvec (b : Bool) : List UInt8 := [if b then 1 else 0]

def optionToStdvec (enc : α → List UInt8) : Option α → List UInt8
  | none => [0]
  | some a => 1 :: enc a

/-- `postcard::to_stdvec` of a frame. -/
def Frame.toStdvec : Frame → List UInt8
  | .hello nickname => 0 :: string nickname
  | .chat id body replyTo =>
    1 :: (id.toStdvec ++ (string body ++ optionToStdvec MessageId.toStdvec replyTo))
  | .edit id target body => 2 :: (id.toStdvec ++ (target.toStdvec ++ string body))
  | .delete id target => 3 :: (id.toStdvec ++ target.toStdvec)
  | .react id target emoji on =>
    4 :: (id.toStdvec ++ (target.toStdvec ++ (string emoji ++ boolToStdvec on)))
  | .inRoom room op => 5 :: (room.toList ++ op.toStdvec)
  | .file id name size hash =>
    6 :: (id.toStdvec ++ (string name ++ (varint size.toNat ++ hash.toList)))
  | .roomUpdated room log => 7 :: (room.toList ++ logToStdvec log)

/-- What `write_frame` puts on the stream: the length, then the payload. -/
def encode (frame : Frame) : Except String (List UInt8) := do
  let payload := frame.toStdvec
  ensure (payload.length ≤ maxFrame)
    s!"frame is {payload.length} bytes, over the {maxFrame}-byte cap"
  pure (leBytes 4 payload.length ++ payload)

end Wicara.Core
