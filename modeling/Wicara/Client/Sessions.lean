import Wicara.Client.Arrival
import Wicara.Client.Files

namespace Wicara.Client

open Wicara.Core Lib Lib.Fallible Lib.Interleaving

/-- What the tasks that work on connections share.  A connection is known by its number. -/
structure Net where
  app : App
  nickname : String
  live : Table Key Nat
  dialing : Finset Key
  /-- For whom `deliver_to` has reported `Wire`, and where what it sent stands in the broadcast. -/
  wired : List (Key × Nat)

namespace Net

def start (store : Store) (nickname : String) : Net := ⟨.start store, nickname, .empty, ∅, []⟩

/-- The client as the rest of the code sees it. -/
def view (n : Net) : App := { n.app with live := n.live.keys.toFinset }

end Net

abbrev NetAct := EStateM String Net

def onApp (m : Act α) : NetAct α := zoom Net.view (fun app n => { n with app := app }) m

/-- The capacity of the broadcast. -/
@[irreducible] def capacity : Nat := 256

/-- One turn of the `select!` loop: the branch that is ready, and what comes of it. -/
inductive Turn
  | incoming (read : Except String (Option Frame)) (io : Io) (setting : Sqlite) (reply : Reply)
  | outgoing (write : Option String)

/-- How long the events and the reports were when a session put its peer into `live`. -/
structure Entered where
  events : Nat
  wired : Nat
  deriving DecidableEq

/-- A session in its loop: where its receiver began and stands, what it has written of the
broadcast, and the turns that are to come. -/
structure Stay where
  entered : Entered
  since : Nat
  cursor : Nat
  written : List Nat
  script : List Turn

/-- Where a session stands, from the dial on; each of these is followed by one section. -/
inductive SessionPc
  | dial
  | reserve
  | announcing
  | resolving
  | undial
  | opening
  | greeting
  | remember (them : String)
  | insert (them : String)
  | connected (entered : Entered) (them : String)
  | subscribe (entered : Entered)
  | loop (stay : Stay)
  | accepting (stay : Stay) (arrival : Arrival)
  | refold (stay : Stay) (io : Io) (conversation : Key)
  | rename (stay : Stay) (setting : Sqlite) (nickname : String)
  | renamed (stay : Stay) (nickname : String)
  | write (stay : Stay) (place : Nat) (frame : Frame) (outcome : Option String)
  | remove (stay : Stay) (result : Except String PUnit)
  | farewell (entered : Entered) (result : Except String PUnit)
  | returned (entered : Option Entered) (result : Except String PUnit)
  | gone (entered : Option Entered)

namespace SessionPc

/-- Set from the insertion into `live` on. -/
def entered : SessionPc → Option Entered
  | .connected entered _ | .subscribe entered | .farewell entered _ => some entered
  | .loop stay | .accepting stay _ | .refold stay _ _ | .rename stay _ _ | .renamed stay _
  | .write stay _ _ _ | .remove stay _ => some stay.entered
  | .returned entered _ | .gone entered => entered
  | _ => none

/-- Set inside the loop. -/
def stay : SessionPc → Option Stay
  | .loop stay | .accepting stay _ | .refold stay _ _ | .rename stay _ _ | .renamed stay _
  | .write stay _ _ _ => some stay
  | _ => none

/-- The frame that is being taken in. -/
def arrival : SessionPc → Option Arrival
  | .accepting _ arrival => some arrival
  | _ => none

/-- What has been taken off the broadcast and is still to be written. -/
def hand : SessionPc → Option Nat
  | .write _ place _ _ => some place
  | _ => none

end SessionPc

/-- A connection that `dial_peer` makes or that `accept_loop` is given, and how the calls on its
way turn out. -/
structure LiveSession where
  conn : Nat
  peer : Key
  dialed : Bool
  announce : Bool
  names : Option String × Option String
  valid : Bool
  connect : Option String
  opened : Option String
  hello : Option String
  first : Except String (Option Frame)
  setting : Sqlite
  script : List Turn
  pc : SessionPc

variable {C : Crypto} (env : Env C)

def announcePeer (names : Option String × Option String) (peer : Key) : NetAct PUnit := do
  let n ← get
  let nick := ((n.app.store.setting names.1 (nickKey peer)).toOption).join
  let aliased := ((n.app.store.setting names.2 (aliasKey peer)).toOption).join
  onApp (emit (.known peer nick (aliased.filter (· ≠ ""))))

/-- An error is only logged. -/
def rememberNick (setting : Sqlite) (peer : Key) (nick : String) : NetAct PUnit :=
  onApp (inStore (ignore (Store.setSetting setting (nickKey peer) nick)))

namespace LiveSession

/-- `dial_peer` up to its check of `live`. -/
def dial (s : LiveSession) : NetAct SessionPc := do
  let n ← get
  if s.peer = env.me then do
    if s.announce then onApp (status "that is your own endpoint id")
    pure (.gone none)
  else if n.live.containsKey s.peer then do
    if s.announce then onApp (status s!"already connected to {short s.peer}")
    pure (.gone none)
  else pure .reserve

def reserve (s : LiveSession) : NetAct SessionPc := do
  let n ← get
  if s.peer ∈ n.dialing then pure (.gone none)
  else do
    modify fun n => { n with dialing := insert s.peer n.dialing }
    pure .announcing

def release (s : LiveSession) : NetAct PUnit :=
  modify fun n => { n with dialing := n.dialing.erase s.peer }

def resolve (s : LiveSession) : NetAct SessionPc := do
  if s.valid then do
    if s.announce then onApp (status s!"dialing {short s.peer}")
    pure .undial
  else do
    s.release
    if s.announce then onApp (status "that is not a valid endpoint id")
    pure (.gone none)

def undial (s : LiveSession) : NetAct SessionPc := do
  s.release
  match s.connect with
  | none => pure .opening
  | some err => do
    if s.announce then onApp (warn s!"could not reach {short s.peer}: {err}")
    pure (.gone none)

/-- The stream is there and we have said hello. -/
def openBi (s : LiveSession) : NetAct SessionPc := do
  attempt s.opened
  let n ← get
  let _ ← lift (encode (.hello n.nickname))
  attempt s.hello
  pure .greeting

def greet (s : LiveSession) : NetAct SessionPc :=
  match s.first with
  | .error err => throw err
  | .ok (some (.hello them)) => pure (.remember them)
  | .ok _ => throw "peer did not open with a hello"

def enter (s : LiveSession) (them : String) : NetAct SessionPc := do
  let n ← get
  modify fun n => { n with live := n.live.upsert s.peer s.conn }
  pure (.connected ⟨n.app.events.length, n.wired.length⟩ them)

def subscribe (s : LiveSession) (entered : Entered) : NetAct SessionPc := do
  let n ← get
  pure (.loop ⟨entered, n.app.outbound.length, n.app.outbound.length, [], s.script⟩)

/-- What is made of a frame that has come in. -/
def incoming (s : LiveSession) (stay : Stay) (read : Except String (Option Frame)) (io : Io)
    (setting : Sqlite) (reply : Reply) : SessionPc :=
  match read with
  | .error err => .remove stay (.error err)
  | .ok none => .remove stay (.ok .unit)
  | .ok (some (.hello nickname)) => .rename stay setting nickname
  | .ok (some frame) => .accepting stay ⟨io, reply, s.peer, frame, .start⟩

/-- `outbound.recv()`; with nothing there it waits. -/
def receive (s : LiveSession) (stay : Stay) (write : Option String) (script : List Turn)
    (outbound : List (Option Key × Frame)) : SessionPc :=
  if stay.cursor + capacity < outbound.length then
    .loop { stay with cursor := outbound.length - capacity, script := script }
  else
    match outbound[stay.cursor]? with
    | none => .loop stay
    | some (target, frame) =>
      if target.all (· = s.peer) then
        .write { stay with cursor := stay.cursor + 1, script := script } stay.cursor frame write
      else .loop { stay with cursor := stay.cursor + 1, script := script }

def turn (s : LiveSession) (stay : Stay) : NetAct SessionPc := do
  match stay.script with
  | [] => pure (.loop stay)
  | .incoming read io setting reply :: script =>
    pure (s.incoming { stay with script := script } read io setting reply)
  | .outgoing write :: script => do
    let n ← get
    pure (s.receive stay write script n.app.outbound)

/-- A bad op is that peer's problem. -/
def accepted (stay : Stay) (arrival : Arrival) : SessionPc :=
  match arrival.pc with
  | .done (.ok (some conversation)) => .refold stay arrival.io conversation
  | .done _ => .loop stay
  | _ => .accepting stay arrival

/-- One section of `accept`. -/
def accept (stay : Stay) (arrival : Arrival) : NetAct SessionPc := do
  let arrival ← onApp fun app => .ok (arrival.advance env app).1 (arrival.advance env app).2
  pure (accepted stay arrival)

def writeFrame (stay : Stay) (place : Nat) (frame : Frame) (outcome : Option String) :
    NetAct SessionPc := do
  let _ ← lift (encode frame)
  attempt outcome
  pure (.loop { stay with written := stay.written ++ [place] })

/-- What `accept_loop` says of a session that has failed. -/
def ended (s : LiveSession) (result : Except String PUnit) : NetAct PUnit :=
  match s.dialed, result with
  | false, .error err => onApp (warn s!"session ended: {err}")
  | _, _ => pure .unit

/-- The next section; what it throws is what `?` returns. -/
def next (s : LiveSession) : NetAct SessionPc :=
  match s.pc with
  | .dial => s.dial env
  | .reserve => s.reserve
  | .announcing => do
    announcePeer s.names s.peer
    pure .resolving
  | .resolving => s.resolve
  | .undial => s.undial
  | .opening => s.openBi
  | .greeting => s.greet
  | .remember them => do
    rememberNick s.setting s.peer them
    pure (.insert them)
  | .insert them => s.enter them
  | .connected entered them => do
    onApp (emit (.connected s.peer them))
    pure (.subscribe entered)
  | .subscribe entered => s.subscribe entered
  | .loop stay => s.turn stay
  | .accepting stay arrival => accept env stay arrival
  | .refold stay io conversation => do
    onApp (sendLog io conversation)
    pure (.loop stay)
  | .rename stay setting nickname => do
    rememberNick setting s.peer nickname
    pure (.renamed stay nickname)
  | .renamed stay nickname => do
    onApp (emit (.connected s.peer nickname))
    pure (.loop stay)
  | .write stay place frame outcome => writeFrame stay place frame outcome
  | .remove stay result => do
    modify fun n => { n with live := n.live.erase s.peer }
    pure (.farewell stay.entered result)
  | .farewell entered result => do
    onApp (emit (.disconnected s.peer))
    pure (.returned (some entered) result)
  | .returned entered result => do
    s.ended result
    pure (.gone entered)
  | .gone entered => pure (.gone entered)

def advance (s : LiveSession) (n : Net) : LiveSession × Net :=
  match (s.next env).run n with
  | .ok pc n => ({ s with pc := pc }, n)
  | .error err n => ({ s with pc := .returned s.pc.entered (.error err) }, n)

end LiveSession

/-- Where a call of `deliver_to` stands. -/
inductive DeliverPc
  | start
  | send
  | report (place : Nat)
  | mail
  | fail
  | done

/-- Where in the broadcast stands what is about to be reported. -/
def DeliverPc.place : DeliverPc → Option Nat
  | .report place => some place
  | _ => none

structure Deliver where
  peer : Key
  frame : Frame
  pc : DeliverPc

def report (frame : Frame) (state : Delivery) : Act PUnit :=
  match frame.id with
  | some id => emit (.delivery id state)
  | none => pure .unit

namespace Deliver

def next (d : Deliver) : NetAct DeliverPc :=
  match d.pc with
  | .start => do
    onApp (modify fun app => { app with handed := app.handed ++ [(d.peer, d.frame)] })
    let n ← get
    pure (if n.live.containsKey d.peer then .send else if env.hub then .mail else .fail)
  | .send => do
    let n ← get
    onApp (modify fun app => { app with outbound := app.outbound ++ [(some d.peer, d.frame)] })
    pure (.report n.app.outbound.length)
  | .report place => do
    onApp (report d.frame .wire)
    if d.frame.id.isSome then modify fun n => { n with wired := n.wired ++ [(d.peer, place)] }
    pure .done
  | .mail => do
    onApp do
      report d.frame .mailbox
      modify fun app => { app with mailing := app.mailing ++ [(d.peer, d.frame)] }
    pure .done
  | .fail => do
    onApp do
      report d.frame .failed
      status "peer is offline and no hub is configured — saved locally only"
    pure .done
  | .done => pure .done

def advance (d : Deliver) (n : Net) : Deliver × Net :=
  match (d.next env).run n with
  | .ok pc n => ({ d with pc := pc }, n)
  | .error _ n => ({ d with pc := .done }, n)

end Deliver

/-- Where `/nick` stands. -/
inductive NickPc
  | start
  | save
  | send
  | done

structure Nick where
  nick : String
  setting : Sqlite
  pc : NickPc

namespace Nick

def next (k : Nick) : NetAct NickPc :=
  match k.pc with
  | .start => do
    modify fun n => { n with nickname := k.nick }
    pure .save
  | .save => do
    rescue (onApp (inStore (Store.setSetting k.setting "nickname" k.nick)))
      fun err => onApp (warn s!"could not save nick: {err}")
    pure .send
  | .send => do
    onApp (modify fun app => { app with outbound := app.outbound ++ [(none, .hello k.nick)] })
    pure .done
  | .done => pure .done

def advance (k : Nick) (n : Net) : Nick × Net :=
  match k.next.run n with
  | .ok pc n => ({ k with pc := pc }, n)
  | .error _ n => ({ k with pc := .done }, n)

end Nick

inductive NetTask
  | session (s : LiveSession)
  | deliver (d : Deliver)
  | nick (k : Nick)

def NetTask.advance (t : NetTask) (n : Net) : NetTask × Net :=
  match t with
  | .session s => (.session (s.advance env n).1, (s.advance env n).2)
  | .deliver d => (.deliver (d.advance env n).1, (d.advance env n).2)
  | .nick k => (.nick (k.advance n).1, (k.advance n).2)

/-- A task as it is spawned, its connection numbered. -/
def NetTask.spawned (number : Nat) : NetTask → NetTask
  | .session s => .session { s with conn := number, pc := if s.dialed then .dial else .opening }
  | .deliver d => .deliver { d with pc := .start }
  | .nick k => .nick { k with pc := .start }

abbrev NetTasks := Pool Net NetTask

def NetTasks.start (store : Store) (nickname : String) (tasks : List NetTask) : NetTasks :=
  ⟨.start store nickname, tasks.mapIdx NetTask.spawned⟩

end Wicara.Client
