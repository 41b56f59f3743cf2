import Wicara.Client.FileTasks

namespace Wicara.Client

open Wicara.Core Lib Lib.Fallible

namespace Store

def forgetPreview (io : Option String) (orders : Orders) (peer : Key) (s : Store) :
    Except String (Nat × Nat) := do
  let msgs ← s.history io orders peer none
  pure (msgs.length, (attachmentPaths msgs).length)

/-- The loop of `wipe_preview`. -/
def previewOf (io : Option String) (orders : Orders) (s : Store) :
    List Key → Except String (Nat × Nat)
  | [] => .ok (0, 0)
  | peer :: peers => do
    let (msgs, files) ← s.forgetPreview io orders peer
    let rest ← previewOf io orders s peers
    pure (msgs + rest.1, files + rest.2)

def wipePreview (io : Sqlite) (orders : Orders) (s : Store) : Except String (Nat × Nat × Nat) := do
  let peers ← s.peers (io 0) orders
  let (msgs, files) ← s.previewOf (io 1) orders peers
  pure (peers.length, msgs, files)

end Store

/-- What one command finds in the store, on the clock and on the disk. -/
structure CommandIo where
  remove : RemoveIo
  setting : Sqlite
  names : Option String × Option String
  now : UInt64

/-- Where the loop of `dispatch` stands; each of these is followed by one section. -/
inductive DispatchPc
  | next
  | announce (x : CommandIo) (peer : Key)
  | record (x : CommandIo) (peer : Key) (frame : Frame)
  | refold (x : CommandIo) (peer : Key) (frame : Frame)
  | deliver (peer : Key) (frame : Frame)
  | cleared (x : CommandIo) (peer : Key)
  | forgetRoom (x : CommandIo) (peer : Key)
  | forgetStore (x : CommandIo) (peer : Key)
  | wipeRooms (x : CommandIo)
  | wipeStore (x : CommandIo)
  | returned

/-- The task that carries out the commands of the user, one after the other. -/
structure Dispatch where
  queue : List (UiCommand × CommandIo)
  pc : DispatchPc

/-- The op that a command makes under the id that is minted for it, and for which conversation. -/
def UiCommand.op : UiCommand → Option (Key × (MessageId → Frame))
  | .send peer body replyTo => some (peer, fun id => .chat id body replyTo)
  | .edit peer target body => some (peer, fun id => .edit id target body)
  | .delete peer target => some (peer, fun id => .delete id target)
  | .react peer target emoji on => some (peer, fun id => .react id target emoji on)
  | _ => none

namespace Dispatch

variable {C : Crypto} (env : Env C)

/-- The loop of `deliver` over the members of a room. -/
def deliverEach (wrapped : Frame) : List Key → Act PUnit
  | [] => pure .unit
  | member :: members => do
    if member ≠ env.me then deliverTo env member wrapped else pure .unit
    deliverEach wrapped members

def deliver (conversation : Key) (frame : Frame) : Act PUnit := do
  let app ← get
  match app.rooms.get conversation with
  | none => deliverTo env conversation frame
  | some room =>
    if env.me ∉ room.members then status "you are not in that room any more"
    else deliverEach env (.inRoom conversation frame) (inOrder room.members)

def announcePeer (names : Option String × Option String) (peer : Key) : Act PUnit := do
  let app ← get
  let nick := ((app.store.setting names.1 (nickKey peer)).toOption).join
  let aliased := ((app.store.setting names.2 (aliasKey peer)).toOption).join
  emit (.known peer nick (aliased.filter (· ≠ "")))

/-- `if let Err(err)`: the user is told, and the loop goes on. -/
def orWarn (text : String → String) (m : FileAct DispatchPc) : FileAct DispatchPc :=
  rescue m fun err => do
    inApp (warn (text err))
    pure .next

def issue (x : CommandIo) (peer : Key) (frame : MessageId → Frame) : FileAct DispatchPc := do
  let id ← inApp (inStore (Store.nextId x.now))
  pure (.record x peer (frame id))

/-- What is done to the store about a conversation that is forgotten. -/
def forgetStore (x : CommandIo) (peer : Key) : FileAct PUnit := do
  let files ← inApp (inStore
    (Store.forget x.remove.removal x.remove.io.orders peer [nickKey peer, aliasKey peer]))
  unlinkAll files
  inApp do
    emit (.forgotten peer)
    status s!"forgotten — {x.remove.gone} attachment(s) deleted from this machine"

def wipeStore (x : CommandIo) : FileAct PUnit := do
  let files ← inApp (inStore (Store.wipe x.remove.removal x.remove.io.orders))
  unlinkAll files
  inApp do
    emit .wiped
    status s!"everything deleted — {x.remove.gone} file(s) gone. Your identity is untouched."

/-- What an unconfirmed command would do is only said. -/
def preview (read : Store → Except String String) : FileAct DispatchPc := inApp do
  let app ← get
  status (← lift (read app.store))
  pure .next

/-- The first section of a command. -/
def begin (command : UiCommand) (x : CommandIo) : FileAct DispatchPc :=
  match command with
  | .quit => pure .returned
  | .sendFile peer _ => inApp do
    let app ← get
    if peer ∈ app.live then pure .next
    else do
      status "attachments need a live connection to that peer"
      pure .next
  | .name peer aliased => orWarn (fun err => s!"could not save that name: {err}") do
    inApp (inStore (Store.setSetting x.setting (aliasKey peer) (aliased.getD "")))
    pure (.announce x peer)
  | .forget peer true => do
    inApp (modify fun app => { app with live := app.live.erase peer })
    pure (.forgetRoom x peer)
  | .forget peer false => orWarn (fun err => s!"could not read that conversation: {err}") <|
    preview fun s => do
      let (msgs, files) ← s.forgetPreview x.remove.io.history x.remove.io.orders peer
      pure (s!"/forget yes  deletes {msgs} message(s) and {files} file(s) from " ++
        "this machine — no undo. Their copy is untouched.")
  | .clear peer true => orWarn (fun err => s!"could not clear that: {err}") do
    let files ← inApp (inStore (Store.clear x.remove.removal x.remove.io.orders peer))
    unlinkAll files
    pure (.cleared x peer)
  | .clear peer false => orWarn (fun err => s!"could not read that conversation: {err}") <|
    preview fun s => do
      let (msgs, files) ← s.forgetPreview x.remove.io.history x.remove.io.orders peer
      pure (s!"/clear yes  deletes {msgs} message(s) and {files} file(s) but keeps " ++
        "the contact — no undo. Their copy is untouched.")
  | .wipe true => do
    inApp (modify fun app => { app with live := ∅ })
    pure (.wipeRooms x)
  | .wipe false => orWarn (fun err => s!"could not read the store: {err}") <|
    preview fun s => do
      let (peers, msgs, files) ← s.wipePreview x.remove.removal x.remove.io.orders
      pure (s!"/wipe yes  deletes all {peers} conversation(s), {msgs} message(s) " ++
        s!"and {files} file(s) from this machine. Your identity survives; nothing else does.")
  | .connect _ | .room _ => pure .next
  | .nick nick => inApp do
    ignore (rescue (inStore (Store.setSetting x.setting "nickname" nick)) fun err =>
      warn s!"could not save nick: {err}")
    modify fun app => { app with outbound := app.outbound ++ [(none, .hello nick)] }
    pure .next
  | .send peer body replyTo => issue x peer fun id => .chat id body replyTo
  | .edit peer target body => issue x peer fun id => .edit id target body
  | .delete peer target => issue x peer fun id => .delete id target
  | .react peer target emoji on => issue x peer fun id => .react id target emoji on

/-- The next section of the command that is being carried out. -/
def go : DispatchPc → FileAct DispatchPc
  | .announce x peer => do
    inApp (announcePeer x.names peer)
    pure .next
  | .record x peer frame => orWarn (fun err => s!"could not save: {err}") do
    let _ ← inApp (inStore (Store.record x.remove.io.record peer frame))
    pure (.refold x peer frame)
  | .refold x peer frame => orWarn (fun err => s!"could not save: {err}") do
    inApp (sendLog x.remove.io peer)
    pure (.deliver peer frame)
  | .deliver peer frame => do
    inApp (deliver env peer frame)
    pure .next
  | .cleared x peer => do
    inApp do
      ignore (sendLog x.remove.io peer)
      status s!"conversation emptied — {x.remove.gone} file(s) deleted"
    pure .next
  | .forgetRoom x peer => do
    inApp (modify fun app => { app with rooms := app.rooms.erase peer })
    pure (.forgetStore x peer)
  | .forgetStore x peer => orWarn (fun err => s!"could not forget that: {err}") do
    forgetStore x peer
    pure .next
  | .wipeRooms x => do
    inApp (modify fun app => { app with rooms := .empty })
    pure (.wipeStore x)
  | .wipeStore x => orWarn (fun err => s!"could not wipe: {err}") do
    wipeStore x
    pure .next
  | .next => pure .next
  | .returned => pure .returned

def next (d : Dispatch) : FileAct Dispatch :=
  match d.pc, d.queue with
  | .next, (command, x) :: queue => do
    let pc ← begin command x
    pure ⟨queue, pc⟩
  | pc, queue => do
    let pc ← go env pc
    pure ⟨queue, pc⟩

def advance (d : Dispatch) (w : World) : Dispatch × World :=
  match (d.next env).run w with
  | .ok d w => (d, w)
  | .error _ w => ({ d with pc := .returned }, w)

end Dispatch

end Wicara.Client
