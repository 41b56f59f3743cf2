import Mathlib.Data.List.Sort
import Wicara.Core.Wire
import Wicara.Lib.Fallible
import Wicara.Lib.Table

namespace Wicara.Client

open Wicara.Core Lib Lib.Fallible

structure Attachment where
  name : String
  size : UInt64
  hash : Bytes 32
  path : Option String
  deriving DecidableEq

structure Message where
  id : MessageId
  body : String
  outbound : Bool
  deleted : Bool
  replyTo : Option MessageId
  reactions : List (String × Nat × Bool)
  attachment : Option Attachment
  deriving DecidableEq

/-- A row of `ops`: its primary key, its conversation and the op itself. -/
abbrev OpRow := MessageId × Key × Frame

structure Store where
  me : Key
  counter : Counter
  ops : Table MessageId (Key × Frame)
  rooms : Table RoomId (List RoomEntry)
  settings : Table String String
  contacts : Table Key Unit

/-- A store as `open` makes it where there was none. -/
def Store.fresh (me : Key) : Store where
  me := me
  counter := ⟨me, 0⟩
  ops := .empty
  rooms := .empty
  settings := .empty
  contacts := .empty

/-- The orders that nothing promises: of the rows of a `SELECT` that its `ORDER BY` leaves
open, and of a `HashMap` that is iterated. -/
structure Orders where
  ops : List OpRow → List OpRow
  ops_perm : ∀ l, (ops l).Perm l
  contacts : List Key → List Key
  contacts_perm : ∀ l, (contacts l).Perm l
  reactions : List ((MessageId × String × Key) × Bool) → List ((MessageId × String × Key) × Bool)
  reactions_perm : ∀ l, (reactions l).Perm l

def Orders.asStored : Orders where
  ops := id
  ops_perm := .refl
  contacts := id
  contacts_perm := .refl
  reactions := id
  reactions_perm := .refl

/-- What the statements of one call say that fail, by their number. -/
abbrev Sqlite := Nat → Option String

def Sqlite.ok : Sqlite := fun _ => none

def fileKey (id : MessageId) : String := "file:" ++ id.display

/-- `ORDER BY ts_ms, seq`, on columns that hold signed integers. -/
def OpRow.before (a b : OpRow) : Prop :=
  a.1.tsMs.toInt64 < b.1.tsMs.toInt64 ∨
    a.1.tsMs.toInt64 = b.1.tsMs.toInt64 ∧ a.1.seq.toInt64 ≤ b.1.seq.toInt64

instance : DecidableRel OpRow.before := fun _ _ =>
  inferInstanceAs (Decidable (_ ∨ _ ∧ _))

/-- The accumulators of `history`. -/
structure Fold where
  messages : List Message
  slots : Table MessageId Nat
  reactions : Table (MessageId × String × Key) Bool

namespace Fold

def empty : Fold := ⟨[], .empty, .empty⟩

def push (message : Message) (fold : Fold) : Fold :=
  { fold with
    slots := fold.slots.upsert message.id fold.messages.length
    messages := fold.messages ++ [message] }

/-- What an op may do to the message it targets, if that message is there. -/
def update (target : MessageId) (f : Message → Message) (fold : Fold) : Fold :=
  match fold.slots.get target with
  | some i => { fold with messages := fold.messages.modify i f }
  | none => fold

def message (me : Key) (id : MessageId) (body : String) (replyTo : Option MessageId)
    (attachment : Option Attachment) : Message where
  id := id
  body := body
  outbound := id.sender = me
  deleted := false
  replyTo := replyTo
  reactions := []
  attachment := attachment

def op (me : Key) (settings : Table String String) (fold : Fold) (row : OpRow) : Fold :=
  match row with
  | (id, _, .chat _ body replyTo) => fold.push (message me id body replyTo none)
  | (id, _, .file _ name size hash) =>
    let path := settings.get (fileKey id)
    fold.push (message me id name none (some ⟨name, size, hash, path⟩))
  | (id, _, .edit _ target body) =>
    if target.sender = id.sender then fold.update target fun m => { m with body := body }
    else fold
  | (id, _, .delete _ target) =>
    if target.sender = id.sender then
      fold.update target fun m => { m with deleted := true, body := "" }
    else fold
  | (id, _, .react _ target emoji on) =>
    { fold with reactions := fold.reactions.upsert (target, emoji, id.sender) on }
  | _ => fold

end Fold

/-- `slot.1 += 1; slot.2 |= mine`, or a new slot. -/
def bump (emoji : String) (mine : Bool) : List (String × Nat × Bool) → List (String × Nat × Bool)
  | [] => [(emoji, 1, mine)]
  | (e, n, m) :: slots =>
    if e = emoji then (e, n + 1, m || mine) :: slots else (e, n, m) :: bump emoji mine slots

def Fold.react (me : Key) (fold : Fold) : (MessageId × String × Key) × Bool → Fold
  | (_, false) => fold
  | ((target, emoji, reactor), true) =>
    fold.update target fun m => { m with reactions := bump emoji (reactor = me) m.reactions }

def Message.sortReactions (m : Message) : Message :=
  { m with reactions := m.reactions.insertionSort fun a b => a.1 ≤ b.1 }

def attachmentPaths (msgs : List Message) : List String :=
  msgs.filterMap fun m => m.attachment.bind Attachment.path

namespace Store

/-- The rows of a conversation as `history` goes through them. -/
def conversation (orders : Orders) (peer : Key) (s : Store) : List OpRow :=
  (orders.ops (s.ops.rows.filter fun r => r.2.1 = peer)).insertionSort OpRow.before

def messages (orders : Orders) (peer : Key) (s : Store) : List Message :=
  let fold := (s.conversation orders peer).foldl (Fold.op s.me s.settings) .empty
  let fold := (orders.reactions fold.reactions.rows).foldl (Fold.react s.me) fold
  fold.messages.map Message.sortReactions

/-- No limit is `usize::MAX`, which no `Vec` is longer than. -/
def history (io : Option String) (orders : Orders) (peer : Key) (limit : Option Nat) (s : Store) :
    Except String (List Message) :=
  match io with
  | some err => .error err
  | none =>
    let messages := s.messages orders peer
    .ok (messages.drop (messages.length - limit.getD messages.length))

def nextId (now : UInt64) : EStateM String Store MessageId :=
  modifyGet fun s => ((s.counter.mint now).1, { s with counter := (s.counter.mint now).2 })

def record (io : Sqlite) (peer : Key) (frame : Frame) : EStateM String Store Bool :=
  match frame.id with
  | none => pure false
  | some id => do
    attempt (io 0)
    modify fun s => { s with contacts := s.contacts.insertOrIgnore peer () }
    attempt (io 1)
    let s ← get
    modify fun s => { s with ops := s.ops.insertOrIgnore id (peer, frame) }
    pure (id ∉ s.ops.keys)

/-- `COALESCE(MAX(o.ts_ms), 0)` -/
def lastOp (s : Store) (peer : Key) : Int :=
  (((s.ops.rows.filter fun r => r.2.1 = peer).map fun r => r.1.tsMs.toInt64.toInt).max?).getD 0

def peers (io : Option String) (orders : Orders) (s : Store) : Except String (List Key) :=
  match io with
  | some err => .error err
  | none => .ok ((orders.contacts s.contacts.keys).insertionSort fun a b => s.lastOp b ≤ s.lastOp a)

def saveRoom (io : Sqlite) (id : RoomId) (entries : List RoomEntry) :
    EStateM String Store PUnit := do
  attempt (io 0)
  modify fun s => { s with contacts := s.contacts.insertOrIgnore id () }
  attempt (io 1)
  modify fun s => { s with rooms := s.rooms.upsert id entries }

def setting (io : Option String) (key : String) (s : Store) : Except String (Option String) :=
  match io with
  | some err => .error err
  | none => .ok (s.settings.get key)

def setSetting (io : Sqlite) (key value : String) : EStateM String Store PUnit := do
  attempt (io 0)
  modify fun s => { s with settings := s.settings.upsert key value }

def setFilePath (io : Sqlite) (id : MessageId) (path : String) : EStateM String Store PUnit :=
  setSetting io (fileKey id) path

/-- The transaction of `forget`. -/
def forgotten (msgs : List Message) (peer : Key) (names : List String) (s : Store) : Store :=
  { s with
    settings := s.settings.deleteWhere fun key _ =>
      key ∈ msgs.map (fun m => fileKey m.id) || key ∈ names
    ops := s.ops.deleteWhere fun _ row => row.1 = peer
    rooms := s.rooms.erase peer
    contacts := s.contacts.erase peer }

def forget (io : Sqlite) (orders : Orders) (peer : Key) (names : List String) :
    EStateM String Store (List String) := do
  let msgs ← lift ((← get).history (io 0) orders peer none)
  attempt (io 1)
  modify (forgotten msgs peer names)
  pure (attachmentPaths msgs)

/-- The transaction of `clear`. -/
def cleared (msgs : List Message) (peer : Key) (s : Store) : Store :=
  { s with
    settings := s.settings.deleteWhere fun key _ => key ∈ msgs.map (fun m => fileKey m.id)
    ops := s.ops.deleteWhere fun _ row => row.1 = peer }

def clear (io : Sqlite) (orders : Orders) (peer : Key) : EStateM String Store (List String) := do
  let msgs ← lift ((← get).history (io 0) orders peer none)
  attempt (io 1)
  modify (cleared msgs peer)
  pure (attachmentPaths msgs)

/-- The loop of `wipe` over the conversations. -/
def attachmentsOf (io : Option String) (orders : Orders) (s : Store) :
    List Key → Except String (List String)
  | [] => .ok []
  | peer :: peers => do
    let msgs ← s.history io orders peer none
    let files ← attachmentsOf io orders s peers
    pure (attachmentPaths msgs ++ files)

/-- The transaction of `wipe`. -/
def wiped (s : Store) : Store :=
  { s with
    ops := .empty
    rooms := .empty
    contacts := .empty
    settings := s.settings.deleteWhere fun key _ => key ≠ "prekey" }

def wipe (io : Sqlite) (orders : Orders) : EStateM String Store (List String) := do
  let s ← get
  let peers ← lift (s.peers (io 0) orders)
  let files ← lift (s.attachmentsOf (io 1) orders peers)
  attempt (io 2)
  modify wiped
  pure files

end Store

end Wicara.Client
