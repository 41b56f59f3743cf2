import Wicara.Client.Events

namespace Wicara.Client

open Wicara.Core Lib Lib.Fallible

/-- What a run of the client is given: its identity, whether there is a hub, its home, and
`postcard`'s reader of room logs. -/
structure Env (C : Crypto) where
  identity : C.SigningKey
  hub : Bool
  home : String
  decodeLog : List UInt8 → Except String (List RoomEntry)

/-- `ep.id()`: the endpoint is bound with the identity's key. -/
def Env.me (env : Env C) : Key := C.verifyingKey env.identity

structure App where
  store : Store
  rooms : Table RoomId Room
  live : Finset Key
  events : List UiEvent
  outbound : List (Option Key × Frame)
  /-- The `mail_to` tasks that were spawned. -/
  mailing : List (Key × Frame)
  /-- The `fetch_room` tasks that were spawned. -/
  fetching : List RoomId
  /-- Every call of `deliver_to`, in order. -/
  handed : List (Key × Frame)

def App.start (store : Store) : App where
  store := store
  rooms := .empty
  live := ∅
  events := []
  outbound := []
  mailing := []
  fetching := []
  handed := []

/-- How the calls into the store turn out, in one call of a function of the client. -/
structure Io where
  orders : Orders
  rooms : Option String
  saveRoom : Sqlite
  history : Option String
  record : Sqlite

def Io.ok : Io where
  orders := .asStored
  rooms := none
  saveRoom := .ok
  history := none
  record := .ok

/-- `HISTORY_ON_START` -/
def historyOnStart : Nat := 200

/-- Code that works on the shared state, failing as `anyhow` does. -/
abbrev Act := EStateM String App

/-- `app.store.lock()` -/
def inStore (m : EStateM String Store α) : Act α :=
  zoom App.store (fun store app => { app with store := store }) m

def emit (event : UiEvent) : Act PUnit :=
  modify fun app => { app with events := app.events ++ [event] }

def status (text : String) : Act PUnit := emit (.status text false)

def warn (text : String) : Act PUnit := emit (.status text true)

def note (peer : Key) (text : String) : Act PUnit := emit (.note peer text)

def sendLog (io : Io) (peer : Key) : Act PUnit := do
  let app ← get
  let entries ← lift (app.store.history io.history io.orders peer (some historyOnStart))
  emit (.log peer entries)

def App.isMember (app : App) (room : RoomId) (who : Key) : Bool :=
  match app.rooms.get room with
  | some r => who ∈ r.members
  | none => false

/-- The length of the log the memory holds a room by, or 0. -/
def App.heldLength (app : App) (id : RoomId) : Nat :=
  match app.rooms.get id with
  | some room => room.length
  | none => 0

section

variable {C : Crypto} (env : Env C)

def deliverTo (peer : Key) (frame : Frame) : Act PUnit := do
  modify fun app => { app with handed := app.handed ++ [(peer, frame)] }
  let report (state : Delivery) : Act PUnit :=
    match frame.id with
    | some id => emit (.delivery id state)
    | none => pure .unit
  let app ← get
  if peer ∈ app.live then do
    modify fun app => { app with outbound := app.outbound ++ [(some peer, frame)] }
    report .wire
  else if env.hub then do
    report .mailbox
    modify fun app => { app with mailing := app.mailing ++ [(peer, frame)] }
  else do
    report .failed
    status "peer is offline and no hub is configured — saved locally only"

/-- The first half of `show_room`, before it refolds the conversation. -/
def insertRoom (room : Room) : Act PUnit := do
  modify fun app => { app with rooms := app.rooms.upsert room.id room }
  emit (.room room.id (RoomView.of env.me room))

def showRoom (io : Io) (room : Room) : Act PUnit := do
  insertRoom env room
  sendLog io room.id

end

end Wicara.Client
