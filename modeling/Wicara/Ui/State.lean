import Wicara.Client.Events
import Wicara.Lib.Text

namespace Wicara.Client

open Wicara.Core Lib

def Delivery.rank : Delivery → Nat
  | .wire => 0
  | .mailbox => 1
  | .failed => 2

def Delivery.max (a b : Delivery) : Delivery := if a.rank ≤ b.rank then b else a

inductive Focus
  | peers
  | chat
  | input
  deriving DecidableEq

/-- What the next Enter will do, when it is not simply a new message. -/
inductive Pending
  | reply (target : MessageId)
  | edit (target : MessageId)
  deriving DecidableEq

def Pending.target : Pending → MessageId
  | .reply target | .edit target => target

/-- A person or a room: one list holds both. -/
structure Peer where
  key : Key
  nick : Option String
  aliased : Option String
  online : Bool
  link : Option Link
  rtt : List UInt64
  log : List Entry
  unread : Nat
  /-- The place in `log` of the message the chat cursor is on. -/
  cursor : Nat
  unreadFrom : Option Nat
  notes : List (UInt64 × String)
  room : Option RoomView

namespace Peer

def new (key : Key) : Peer where
  key := key
  nick := none
  aliased := none
  online := false
  link := none
  rtt := []
  log := []
  unread := 0
  cursor := 0
  unreadFrom := none
  notes := []
  room := none

def label (p : Peer) : String :=
  match p.room, p.aliased, p.nick with
  | some room, _, _ => s!"#{room.name}"
  | none, some aliased, _ => aliased
  | none, none, some nick => nick
  | none, none, none => short p.key

/-- Sixteen samples is all the sparkline shows. -/
def setPath (link : Option Link) (p : Peer) : Peer :=
  match link with
  | none => { p with link := none }
  | some l =>
    let rtt := p.rtt ++ [l.rttMs]
    { p with rtt := if 16 < rtt.length then rtt.drop 1 else rtt, link := some l }

def setLog (entries : List Entry) (selected : Bool) (p : Peer) : Peer :=
  let before := p.log.length
  let last := entries.length - 1
  let cursor := if before ≤ p.cursor + 1 then last else p.cursor
  let p := { p with log := entries, cursor := min cursor last }
  if before < entries.length ∧ ¬selected then
    { p with unread := p.unread + 1, unreadFrom := some (p.unreadFrom.getD before) }
  else p

def addNote (now : UInt64) (text : String) (p : Peer) : Peer :=
  let notes := p.notes ++ [(now, text)]
  { p with notes := if 50 < notes.length then notes.drop 1 else notes }

def seen (p : Peer) : Peer := { p with unread := 0, unreadFrom := none }

@[simp] theorem key_new (key : Key) : (new key).key = key := rfl

@[simp] theorem key_seen (p : Peer) : p.seen.key = p.key := rfl

@[simp] theorem key_addNote (now : UInt64) (text : String) (p : Peer) :
    (p.addNote now text).key = p.key := rfl

@[simp] theorem key_setPath (link : Option Link) (p : Peer) : (p.setPath link).key = p.key := by
  cases link <;> rfl

@[simp] theorem key_setLog (entries : List Entry) (selected : Bool) (p : Peer) :
    (p.setLog entries selected).key = p.key := by
  rw [setLog]
  split <;> rfl

end Peer

structure Rect where
  x : Nat
  y : Nat
  width : Nat
  height : Nat

namespace Rect

def zero : Rect := ⟨0, 0, 0, 0⟩

/-- The drawable area inside a bordered block. -/
def inner (area : Rect) : Rect := ⟨area.x + 1, area.y + 1, area.width - 2, area.height - 2⟩

def Inside (area : Rect) (x y : Nat) : Prop :=
  area.x ≤ x ∧ x < area.x + area.width ∧ area.y ≤ y ∧ y < area.y + area.height

instance (area : Rect) (x y : Nat) : Decidable (area.Inside x y) :=
  inferInstanceAs (Decidable (_ ∧ _))

end Rect

/-- `commands` holds everything that was sent, oldest first. -/
structure Ui where
  me : String
  nickname : String
  peers : List Peer
  index : Table Key Nat
  sel : Nat
  focus : Focus
  pending : Option Pending
  input : List Char
  /-- Byte offset of the caret within `input`. -/
  caret : Nat
  scroll : Nat
  status : String
  statusBad : Bool
  transfers : Table MessageId (UInt64 × UInt64)
  delivery : Table MessageId Delivery
  commands : List UiCommand
  help : Bool
  members : Bool
  net : Bool
  mouse : Bool
  peersArea : Rect
  chatArea : Rect
  inputArea : Rect
  /-- Scroll offset of the peer list. -/
  offset : Nat
  /-- For each visible chat row, the message it belongs to. -/
  chatRows : List Nat

namespace Ui

def new (me nickname : String) : Ui where
  me := me
  nickname := nickname
  peers := []
  index := .empty
  sel := 0
  focus := .input
  pending := none
  input := []
  caret := 0
  scroll := 0
  status := "waiting for peers"
  statusBad := false
  transfers := .empty
  delivery := .empty
  commands := []
  help := false
  members := false
  net := false
  mouse := true
  peersArea := .zero
  chatArea := .zero
  inputArea := .zero
  offset := 0
  chatRows := []

variable (ui : Ui)

/-- `self.status = …`; whether it stays red is left to the next event. -/
def report (text : String) : Ui := { ui with status := text }

def send (command : UiCommand) : Ui := { ui with commands := ui.commands ++ [command] }

def keys : List Key := ui.peers.map Peer.key

def selectedKey : Option Key := ui.peers[ui.sel]?.map Peer.key

variable {ui} in
theorem selectedKey_eq : ui.selectedKey = ui.keys[ui.sel]? := by
  rw [selectedKey, keys, List.getElem?_map]

theorem length_keys : ui.keys.length = ui.peers.length := List.length_map _

def cursorEntry : Option (Key × Entry) := do
  let p ← ui.peers[ui.sel]?
  pure (p.key, ← p.log[p.cursor]?)

/-- `f` on the peer of this key, which is there afterwards; none if the index points past
the end, which would panic. -/
def peerMut (key : Key) (f : Peer → Peer) : Option Ui :=
  match ui.index.get key with
  | some i => if i < ui.peers.length then some { ui with peers := ui.peers.modify i f } else none
  | none =>
    some { ui with
      index := ui.index.upsert key ui.peers.length
      peers := ui.peers ++ [f (.new key)] }

/-- Indices have shifted, so the lookup is rebuilt. -/
def forgotten (peer : Key) : Ui :=
  let peers := ui.peers.filter (·.key ≠ peer)
  { ui with
    peers := peers
    index := .collect (peers.zipIdx.map fun r => (r.1.key, r.2))
    sel := min ui.sel (peers.length - 1)
    scroll := 0
    delivery := .empty }

def wiped : Ui :=
  { ui with
    peers := []
    index := .empty
    delivery := .empty
    transfers := .empty
    sel := 0
    scroll := 0 }

/-- `now` is what the clock says when the event arrives. -/
def apply (now : UInt64) (ev : UiEvent) : Option Ui :=
  match ev with
  | .known peer nick aliased => ui.peerMut peer fun p => { p with nick := nick, aliased := aliased }
  | .connected peer nick => ui.peerMut peer fun p => { p with nick := some nick, online := true }
  | .path peer link => ui.peerMut peer (Peer.setPath link)
  | .disconnected peer => ui.peerMut peer fun p => { p with online := false, link := none }
  | .log peer entries =>
    let selected := ui.selectedKey = some peer
    (ui.peerMut peer (Peer.setLog entries (decide selected))).map fun ui =>
      if selected then { ui with scroll := 0 } else ui
  | .delivery id state =>
    some { ui with
      delivery := ui.delivery.upsert id (((ui.delivery.get id).getD state).max state) }
  | .transfer id done total =>
    some { ui with
      transfers :=
        if total ≤ done then ui.transfers.erase id else ui.transfers.upsert id (done, total) }
  | .note peer text => ui.peerMut peer (Peer.addNote now text)
  | .forgotten peer => some (ui.forgotten peer)
  | .wiped => some ui.wiped
  | .room id view => ui.peerMut id fun p => { p with room := some view }
  | .status text bad => some { ui with status := text, statusBad := bad }

end Ui

end Wicara.Client
