import Mathlib.Data.Finset.Sort
import Wicara.Client.Store

namespace Wicara.Client

open Wicara.Core

/-- `ui::Entry`, field by field what `send_log` copies out of a `store::Message`. -/
abbrev Entry := Message

structure RoomView where
  name : String
  memberKeys : List Key
  founder : Key
  members : Nat
  joined : Bool
  deriving DecidableEq

structure Link where
  relayed : Bool
  via : String
  rttMs : UInt64
  deriving DecidableEq

/-- From the best to the worst, as `max` compares them. -/
inductive Delivery
  | wire
  | mailbox
  | failed
  deriving DecidableEq

inductive UiEvent
  | known (peer : Key) (nick aliased : Option String)
  | connected (peer : Key) (nick : String)
  | path (peer : Key) (link : Option Link)
  | disconnected (peer : Key)
  | log (peer : Key) (entries : List Entry)
  | delivery (id : MessageId) (state : Delivery)
  | transfer (id : MessageId) (done total : UInt64)
  | note (peer : Key) (text : String)
  | forgotten (peer : Key)
  | wiped
  | room (id : RoomId) (view : RoomView)
  | status (text : String) (bad : Bool)
  deriving DecidableEq

inductive RoomCommand
  | create (name : String)
  | leave (room : RoomId)
  | invite (room : RoomId) (member : Key)
  | kick (room : RoomId) (member : Key)
  deriving DecidableEq

inductive UiCommand
  | send (peer : Key) (body : String) (replyTo : Option MessageId)
  | edit (peer : Key) (target : MessageId) (body : String)
  | delete (peer : Key) (target : MessageId)
  | react (peer : Key) (target : MessageId) (emoji : String) (on : Bool)
  | nick (nick : String)
  | name (peer : Key) (aliased : Option String)
  | connect (peer : Key)
  | forget (peer : Key) (confirm : Bool)
  | clear (peer : Key) (confirm : Bool)
  | wipe (confirm : Bool)
  | room (command : RoomCommand)
  | sendFile (peer : Key) (path : String)
  | quit
  deriving DecidableEq

/-- First five bytes of a key, in hex. -/
def short (key : Key) : String := hex (key.toList.take 5)

/-- A `BTreeSet` is iterated in the order of its keys. -/
def inOrder (keys : Finset Key) : List Key := keys.sort

@[simp] theorem mem_inOrder {k : Key} {keys : Finset Key} : k ∈ inOrder keys ↔ k ∈ keys :=
  Finset.mem_sort _

def RoomView.of (me : Key) (room : Room) : RoomView where
  name := room.name
  memberKeys := inOrder room.members
  founder := room.founder
  members := room.members.card
  joined := me ∈ room.members

end Wicara.Client
