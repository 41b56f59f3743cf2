import Wicara.Client.Contacts
import Wicara.Core.Vault

namespace Wicara.Client

open Wicara.Core Lib Lib.Fallible

/-- A row of `ops` as it is on the disk. -/
abbrev SealedRow := MessageId × Key × List UInt8

/-- The store with its columns as they are on the disk: what was said, the logs of the rooms and
the settings are under seal; who said it when, and to whom, is not. -/
structure SealedStore where
  me : Key
  counter : Counter
  vault : VaultKey
  ops : Table MessageId (Key × List UInt8)
  rooms : Table RoomId (List UInt8)
  settings : Table String (List UInt8)
  contacts : Table Key Unit

/-- The orders that nothing promises, of sealed rows. -/
structure SealedOrders where
  ops : List SealedRow → List SealedRow
  ops_perm : ∀ l, (ops l).Perm l
  settings : List (String × List UInt8) → List (String × List UInt8)
  settings_perm : ∀ l, (settings l).Perm l
  contacts : List Key → List Key
  contacts_perm : ∀ l, (contacts l).Perm l
  reactions : List ((MessageId × String × Key) × Bool) → List ((MessageId × String × Key) × Bool)
  reactions_perm : ∀ l, (reactions l).Perm l

/-- What the generator answers when a nonce is asked for. -/
abbrev Nonce := Except String (Bytes 24)

def SealedRow.before (a b : SealedRow) : Prop :=
  a.1.tsMs.toInt64 < b.1.tsMs.toInt64 ∨
    a.1.tsMs.toInt64 = b.1.tsMs.toInt64 ∧ a.1.seq.toInt64 ≤ b.1.seq.toInt64

instance : DecidableRel SealedRow.before := fun _ _ =>
  inferInstanceAs (Decidable (_ ∨ _ ∧ _))

/-- `postcard::from_bytes`, of what is under seal. -/
structure Decoders where
  frame : List UInt8 → Except String Frame
  log : List UInt8 → Except String (List RoomEntry)

section

variable (A : Cipher) (D : Decoders)

def openText (vault : VaultKey) (sealed : List UInt8) : Except String String := do
  pure (fromUtf8Lossy (← vault.openWith A sealed))

def openOp (vault : VaultKey) (payload : List UInt8) : Except String Frame := do
  D.frame (← vault.openWith A payload)

def openLog (vault : VaultKey) (log : List UInt8) : Except String (List RoomEntry) := do
  D.log (← vault.openWith A log)

namespace SealedStore

def setting (io : Option String) (key : String) (s : SealedStore) :
    Except String (Option String) :=
  match io with
  | some err => .error err
  | none =>
    match s.settings.get key with
    | none => .ok none
    | some sealed => do pure (some (← openText A s.vault sealed))

def setSetting (io : Sqlite) (nonce : Nonce) (key value : String) :
    EStateM String SealedStore PUnit := do
  let s ← get
  let value ← lift (s.vault.sealWith A nonce (utf8 value))
  attempt (io 0)
  modify fun s => { s with settings := s.settings.upsert key value }

def setFilePath (io : Sqlite) (nonce : Nonce) (id : MessageId) (path : String) :
    EStateM String SealedStore PUnit :=
  setSetting A io nonce (fileKey id) path

def nextId (now : UInt64) : EStateM String SealedStore MessageId :=
  modifyGet fun s => ((s.counter.mint now).1, { s with counter := (s.counter.mint now).2 })

def record (io : Sqlite) (nonce : Nonce) (peer : Key) (frame : Frame) :
    EStateM String SealedStore Bool :=
  match frame.id with
  | none => pure false
  | some id => do
    let s ← get
    let payload ← lift (s.vault.sealWith A nonce frame.toStdvec)
    attempt (io 0)
    modify fun s => { s with contacts := s.contacts.insertOrIgnore peer () }
    attempt (io 1)
    let s ← get
    modify fun s => { s with ops := s.ops.insertOrIgnore id (peer, payload) }
    pure (id ∉ s.ops.keys)

def lastOp (s : SealedStore) (peer : Key) : Int :=
  (((s.ops.rows.filter fun r => r.2.1 = peer).map fun r => r.1.tsMs.toInt64.toInt).max?).getD 0

def peers (io : Option String) (orders : SealedOrders) (s : SealedStore) :
    Except String (List Key) :=
  match io with
  | some err => .error err
  | none => .ok ((orders.contacts s.contacts.keys).insertionSort fun a b => s.lastOp b ≤ s.lastOp a)

/-- The rows of a conversation as `history` goes through them. -/
def conversation (orders : SealedOrders) (peer : Key) (s : SealedStore) : List SealedRow :=
  (orders.ops (s.ops.rows.filter fun r => r.2.1 = peer)).insertionSort SealedRow.before

/-- One turn of the loop of `history`. -/
def foldRow (s : SealedStore) (fold : Fold) (row : SealedRow) : Except String Fold := do
  let (id, peer, payload) := row
  match ← openOp A D s.vault payload with
  | .file _ name size hash => do
    let path ← s.setting A none (fileKey id)
    pure (fold.push (Fold.message s.me id name none (some ⟨name, size, hash, path⟩)))
  | frame => pure (fold.op s.me .empty (id, peer, frame))

def messages (orders : SealedOrders) (peer : Key) (s : SealedStore) :
    Except String (List Message) := do
  let fold ← (s.conversation orders peer).foldlM (s.foldRow A D) .empty
  let fold := (orders.reactions fold.reactions.rows).foldl (Fold.react s.me) fold
  pure (fold.messages.map Message.sortReactions)

def history (io : Option String) (orders : SealedOrders) (peer : Key) (limit : Option Nat)
    (s : SealedStore) : Except String (List Message) :=
  match io with
  | some err => .error err
  | none => do
    let messages ← s.messages A D orders peer
    pure (messages.drop (messages.length - limit.getD messages.length))

def saveRoom (io : Sqlite) (nonce : Nonce) (id : RoomId) (entries : List RoomEntry) :
    EStateM String SealedStore PUnit := do
  attempt (io 0)
  modify fun s => { s with contacts := s.contacts.insertOrIgnore id () }
  let s ← get
  let log ← lift (s.vault.sealWith A nonce (logToStdvec entries))
  attempt (io 1)
  modify fun s => { s with rooms := s.rooms.upsert id log }

/-- The loop of `rooms`. -/
def openRooms (vault : VaultKey) :
    List (RoomId × List UInt8) → Except String (List (RoomId × List RoomEntry))
  | [] => .ok []
  | (id, log) :: rows => do
    let entries ← openLog A D vault log
    let rest ← openRooms vault rows
    pure ((id, entries) :: rest)

/-- `rooms` -/
def roomLogs (io : Option String) (s : SealedStore) :
    Except String (List (RoomId × List RoomEntry)) :=
  match io with
  | some err => .error err
  | none => openRooms A D s.vault s.rooms.rows

/-- The transaction of `forget`. -/
def forgotten (msgs : List Message) (peer : Key) (names : List String) (s : SealedStore) :
    SealedStore :=
  { s with
    settings := s.settings.deleteWhere fun key _ =>
      key ∈ msgs.map (fun m => fileKey m.id) || key ∈ names
    ops := s.ops.deleteWhere fun _ row => row.1 = peer
    rooms := s.rooms.erase peer
    contacts := s.contacts.erase peer }

def forget (io : Sqlite) (orders : SealedOrders) (peer : Key) (names : List String) :
    EStateM String SealedStore (List String) := do
  let msgs ← lift ((← get).history A D (io 0) orders peer none)
  attempt (io 1)
  modify (forgotten msgs peer names)
  pure (attachmentPaths msgs)

/-- The transaction of `clear`. -/
def cleared (msgs : List Message) (peer : Key) (s : SealedStore) : SealedStore :=
  { s with
    settings := s.settings.deleteWhere fun key _ => key ∈ msgs.map (fun m => fileKey m.id)
    ops := s.ops.deleteWhere fun _ row => row.1 = peer }

def clear (io : Sqlite) (orders : SealedOrders) (peer : Key) :
    EStateM String SealedStore (List String) := do
  let msgs ← lift ((← get).history A D (io 0) orders peer none)
  attempt (io 1)
  modify (cleared msgs peer)
  pure (attachmentPaths msgs)

/-- The loop of `wipe` over the conversations. -/
def attachmentsOf (io : Option String) (orders : SealedOrders) (s : SealedStore) :
    List Key → Except String (List String)
  | [] => .ok []
  | peer :: peers => do
    let msgs ← s.history A D io orders peer none
    let files ← attachmentsOf io orders s peers
    pure (attachmentPaths msgs ++ files)

/-- The transaction of `wipe`. -/
def wiped (s : SealedStore) : SealedStore :=
  { s with
    ops := .empty
    rooms := .empty
    contacts := .empty
    settings := s.settings.deleteWhere fun key _ => key ≠ "prekey" }

def wipe (io : Sqlite) (orders : SealedOrders) : EStateM String SealedStore (List String) := do
  let s ← get
  let peers ← lift (s.peers (io 0) orders)
  let files ← lift (s.attachmentsOf A D (io 1) orders peers)
  attempt (io 2)
  modify wiped
  pure files

def resume (me : Key) (s : SealedStore) : UInt64 :=
  .ofInt (((s.ops.rows.filter fun r => r.1.sender = me).map fun r =>
    r.1.seq.toInt64.toInt).max?.getD 0)

/-- The one sealed value that `check_belongs_here` tries its key on. -/
def probe (orders : SealedOrders) (s : SealedStore) : Option (List UInt8) :=
  ((orders.settings s.settings.rows).head?.map Prod.snd).or
    ((orders.ops s.ops.rows).head?.map fun row => row.2.2)

def foreignMessage (path : String) : String :=
  s!"{path} was written by a different identity, or under a different " ++
  "passphrase, and cannot be read with the identity file beside it.\n\n" ++
  "If you replaced a lost identity, this store went with it: delete " ++
  s!"{path} to start clean. Its contents cannot be recovered without the " ++
  "old passphrase."

/-- Both queries are made, whatever the first one finds. -/
def checkBelongsHere (io : Sqlite) (orders : SealedOrders) (path : String) (vault : VaultKey)
    (s : SealedStore) : Except String Unit :=
  match (io 3).or (io 4) with
  | some err => .error err
  | none =>
    match s.probe orders with
    | none => .ok ()
    | some sealed =>
      match vault.openWith A sealed with
      | .ok _ => .ok ()
      | .error _ => .error (foreignMessage path)

/-- `open` on the tables it finds. -/
def openWith (io : Sqlite) (orders : SealedOrders) (path : String) (vault : VaultKey) (me : Key) :
    EStateM String SealedStore PUnit := do
  attempt (io 0)
  modify fun s => { s with
    contacts := (s.ops.rows.map fun r => r.2.1).foldl
      (fun contacts peer => contacts.insertOrIgnore peer ()) s.contacts }
  attempt (io 1)
  modify fun s => { s with
    contacts := s.rooms.keys.foldl
      (fun contacts peer => contacts.insertOrIgnore peer ()) s.contacts }
  attempt (io 2)
  let s ← get
  lift (s.checkBelongsHere A io orders path vault)
  modify fun s => { s with me := me, counter := ⟨me, s.resume me⟩, vault := vault }

end SealedStore

end

/-- The calls on a store that is open, with the nonces that they draw. -/
inductive SealedAccess
  | nextId (now : UInt64)
  | record (io : Sqlite) (nonce : Nonce) (peer : Key) (frame : Frame)
  | saveRoom (io : Sqlite) (nonce : Nonce) (id : RoomId) (log : List RoomEntry)
  | setSetting (io : Sqlite) (nonce : Nonce) (key value : String)
  | setFilePath (io : Sqlite) (nonce : Nonce) (id : MessageId) (path : String)
  | clear (io : Sqlite) (orders : SealedOrders) (peer : Key)
  | forget (io : Sqlite) (orders : SealedOrders) (peer : Key) (names : List String)
  | wipe (io : Sqlite) (orders : SealedOrders)

def SealedAccess.act (A : Cipher) (D : Decoders) : SealedAccess → EStateM String SealedStore PUnit
  | .nextId now => ignore (SealedStore.nextId now)
  | .record io nonce peer frame => ignore (SealedStore.record A io nonce peer frame)
  | .saveRoom io nonce id log => SealedStore.saveRoom A io nonce id log
  | .setSetting io nonce key value => SealedStore.setSetting A io nonce key value
  | .setFilePath io nonce id path => SealedStore.setFilePath A io nonce id path
  | .clear io orders peer => ignore (SealedStore.clear A D io orders peer)
  | .forget io orders peer names => ignore (SealedStore.forget A D io orders peer names)
  | .wipe io orders => ignore (SealedStore.wipe A D io orders)

end Wicara.Client
