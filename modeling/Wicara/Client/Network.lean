import Wicara.Client.Admission
import Wicara.Client.Convergence
import Wicara.Core.Envelopes

namespace Wicara.Client

open Wicara.Core Lib Lib.Fallible Lib.Run

variable {C : Crypto} {S : Sealer} {ι : Type}

section Issue

variable (env : Env C)

/-- What `dispatch` does with a command that makes an op, from its first section to its last. -/
def issue (io : Io) (now : UInt64) (peer : Key) (frame : MessageId → Frame) : Act PUnit := do
  let id ← inStore (Store.nextId now)
  let saved ← rescue
    (do
      let _ ← inStore (Store.record io.record peer (frame id))
      sendLog io peer
      pure true)
    fun err => do
      warn s!"could not save: {err}"
      pure false
  if saved then Dispatch.deliver env peer (frame id) else pure .unit

/-- To whom `deliver` hands an op, and as what. -/
def addressees (rooms : Table RoomId Room) (conversation : Key) (frame : Frame) :
    List (Key × Frame) :=
  match rooms.get conversation with
  | none => [(conversation, frame)]
  | some room =>
    if env.me ∉ room.members then []
    else ((inOrder room.members).filter (· ≠ env.me)).map fun member =>
      (member, .inRoom conversation frame)

end Issue

/-- The endpoints of a network.  No two of them have one key, and each has a prekey that the
others seal mail to. -/
structure Endpoints (C : Crypto) (S : Sealer) (ι : Type) where
  env : ι → Env C
  apart : Function.Injective fun i => (env i).me
  secret : ι → S.StaticSecret
  decodeFrame : List UInt8 → Except String Frame
  decodeMail : List UInt8 → Except String (List (Int × Envelope))

namespace Endpoints

variable (E : Endpoints C S ι)

def key (i : ι) : Key := (E.env i).me

def mail (i : ι) : Mail where
  sealing := S.toSealing
  prekey := E.secret i
  decodeFrame := E.decodeFrame
  decodeMail := E.decodeMail

theorem key_inj {E : Endpoints C S ι} {i j : ι} : E.key i = E.key j ↔ i = j :=
  ⟨fun h => E.apart h, congrArg _⟩

end Endpoints

/-- The clients of a network, and the frames that each has taken from one of the others. -/
structure Network (ι : Type) where
  app : ι → App
  taken : ι → List (Key × Frame)

/-- A command that makes an op, and what it makes for whom under the id that it is given. -/
structure OpCommand where
  command : UiCommand
  peer : Key
  frame : MessageId → Frame
  makes : command.op = some (peer, frame)

/-- What can happen, each of it to its end before the next: a user writes something; a frame
arrives from one of the others, over the wire or out of the mailbox; somebody from elsewhere sends a
frame; a room is worked on; sessions come and go; a setting is written.  It is not among it that a
file is sent, nor that anything is cleared, forgotten or wiped. -/
inductive NetworkEvent (S : Sealer) (ι : Type)
  | command (i : ι) (io : Io) (now : UInt64) (command : OpCommand)
  | wire (i j : ι) (io : Io) (reply : Reply) (frame : Frame)
  | mail (i j : ι) (io : Io) (reply : Reply) (frame : Frame) (draw : Draw S) (envelope : Envelope)
  | stray (j : ι) (io : Io) (reply : Reply) (sender : Key) (frame : Frame)
  | room (i : ι) (step : RoomStep)
  | sessions (i : ι) (live : Finset Key)
  | setting (i : ι) (io : Sqlite) (key value : String)

/-- A command reads the conversation back before its op goes out. -/
def NetworkEvent.Reads : NetworkEvent S ι → Prop
  | .command _ io _ _ => io.history = none
  | _ => True

namespace Network

def start (app : ι → App) : Network ι := ⟨app, fun _ => []⟩

variable [DecidableEq ι]

def update (net : Network ι) (i : ι) (app : App) : Network ι :=
  { net with app := Function.update net.app i app }

/-- A frame arrives, and is taken unless it is refused. -/
def arrive (net : Network ι) (j : ι) (take : Act (Option Key)) (sender : Key) (frame : Frame) :
    Network ι where
  app := Function.update net.app j (after take (net.app j))
  taken := if succeeds take (net.app j) then
      Function.update net.taken j (net.taken j ++ [(sender, frame)])
    else net.taken

variable (E : Endpoints C S ι)

def step (net : Network ι) : NetworkEvent S ι → Network ι
  | .command i io now command =>
    net.update i (after (issue (E.env i) io now command.peer command.frame) (net.app i))
  | .wire i j io reply frame =>
    net.arrive j (accept (E.env j) io reply (E.key i) frame) (E.key i) frame
  | .mail i j io reply frame _ envelope =>
    net.arrive j (absorb (E.env j) (E.mail j) io reply envelope) (E.key i) frame
  | .stray j io reply sender frame =>
    net.update j (after (accept (E.env j) io reply sender frame) (net.app j))
  | .room i step => net.update i ((net.app i).step (E.env i) step)
  | .sessions i live => net.update i { net.app i with live := live }
  | .setting i io key value =>
    net.update i (after (inStore (Store.setSetting io key value)) (net.app i))

/-- What can arrive is what was sent: over the wire what was broadcast for this peer, and by mail
what was sealed to its prekey, which `postcard` reads back.  Who comes from elsewhere has neither
the key of an endpoint nor one that is the id of a room.  A counter is not at its end, and what a
room is told comes in as a frame. -/
def Allowed (net : Network ι) : NetworkEvent S ι → Prop
  | .command i _ _ _ => (net.app i).store.counter.seq.toNat + 1 < UInt64.size
  | .wire i j _ _ frame => (some (E.key j), frame) ∈ (net.app i).outbound
  | .mail i j _ _ frame draw envelope =>
    (E.key j, frame) ∈ (net.app i).mailing ∧ E.decodeFrame frame.toStdvec = .ok frame ∧
      ∃ prekey : VerifiedPrekey C, prekey.owner = E.key j ∧ prekey.key = S.publicKey (E.secret j) ∧
      Envelope.sealWith C S (E.env i).identity prekey draw frame.toStdvec = .ok envelope
  | .stray _ _ _ sender _ => ∀ i, E.key i ≠ sender ∧ (net.app i).rooms.get sender = none
  | .room _ step => ∀ io reply sender frame, step ≠ .accept io reply sender frame
  | .sessions _ _ | .setting _ _ _ _ => True

end Network

end Wicara.Client
