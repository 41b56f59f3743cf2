import Wicara.Client.Contacts
import Wicara.Ui.Calls

namespace Wicara.Client

open Wicara.Core Lib Lib.Fallible Lib.Run Lib.Interleaving

/-- How the calls into the store turn out while the client comes up. -/
structure BootIo where
  sqlite : Sqlite
  io : Io
  peers : Option String
  names : Key → Option String × Option String
  history : Key → Option String

/-- The loop of `replay_history`. -/
def replayEach (x : BootIo) : List Key → Act PUnit
  | [] => pure .unit
  | peer :: peers => do
    Dispatch.announcePeer (x.names peer) peer
    sendLog { x.io with history := x.history peer } peer
    replayEach x peers

def replayHistory (x : BootIo) : Act PUnit := do
  let app ← get
  let peers ← lift (app.store.peers x.peers x.io.orders)
  replayEach x peers

section

variable {C : Crypto} (env : Env C)

/-- `run`, up to where the client is there: the store is opened, and the UI is told of it. -/
def boot (x : BootIo) : Act PUnit := do
  inStore (Store.openWith x.sqlite env.me)
  replayHistory x
  loadRooms env x.io x.history

variable (alphanumeric : Char → Bool) (m : Mail)

/-- What happens to a client that is up, each of these to its end before the next. -/
inductive Episode
  | up (peer : Key) (nick : String)
  | down (peer : Key)
  | tell (event : UiEvent)
  | name (io : Sqlite) (key : NameKey) (value : String)
  | handle (io : Io) (reply : Reply) (sender : Key) (frame : Frame)
  | command (command : UiCommand) (x : CommandIo)
  | room (io : Io) (reply : Reply) (now : UInt64) (command : RoomCommand)
  | fetch (io : Io) (id : RoomId) (reply : Reply)
  | send (io : SendIo) (peer : Key) (path : String)
  | receive (io : ReceiveIo) (peer : Key)
  | drain (xs : List MailboxIo)

namespace Episode

def drained (w : World) (xs : List MailboxIo) : Mailbox :=
  run (Mailbox.step env m) ⟨w.app, .fetch⟩ xs

def step (w : World) : Episode → World
  | .up peer nick => after (inApp do
    modify fun app => { app with live := insert peer app.live }
    emit (.connected peer nick)) w
  | .down peer => after (inApp do
    modify fun app => { app with live := app.live.erase peer }
    emit (.disconnected peer)) w
  | .tell event => after (inApp (emit event)) w
  | .name io key value => after ((FileCall.name io key value).run env) w
  | .handle io reply sender frame => after ((FileCall.accept io reply sender frame).run env) w
  | .command c x => (alone (Dispatch.advance env) 4 ⟨[(c, x)], .next⟩ w).2
  | .room io reply now c => after (inApp (roomCommand env io reply now c)) w
  | .fetch io id reply => after (inApp (fetchRoom env io id reply)) w
  | .send io peer path => after (rescue (Client.send io peer path) fun err =>
    inApp (warn s!"could not send that file: {err}")) w
  | .receive io peer => after (rescue (Client.receive env alphanumeric io peer) fun err =>
    inApp (status s!"attachment failed: {err}")) w
  | .drain xs => { w with app := (drained env m w xs).app }

/-- What is told of is not what the logs are told by; what is sent of a conversation can be read;
the path of a file that is sent can be written down, before which `send` tells of nothing; and a
drain goes on until it has sent what it has taken. -/
def Clear (w : World) : Episode → Prop
  | .tell event => ∀ peer entries, event.leaves peer entries = entries
  | .handle io _ _ _ => io.history = none
  | .command _ x => x.remove.io.history = none
  | .send io _ _ => io.io.history = none ∧ io.setting 0 = none
  | .receive io _ => io.io.history = none
  | .drain xs => (∀ x ∈ xs, x.meanwhile = id ∧ x.io.history = none) ∧
    (drained env m w xs).pc.unsent = []
  | _ => True

end Episode

end

section

variable {C : Crypto} {env : Env C} {alphanumeric : Char → Bool} {m : Mail} {peer : Key}

/-- Whatever the client does next, what has been shown is. -/
theorem Episode.carries_step {w : World} {e : Episode} (h : Episode.Clear env m w e) :
    World.Carries peer w (Episode.step env alphanumeric m w e) := by
  have hlive (event : UiEvent) {g : App → App} (hstore : ∀ app, (g app).store = app.store)
      (hevents : ∀ app, (g app).events = app.events)
      (hevent : ∀ entries, event.leaves peer entries = entries) :
      Moves (World.Carries peer) (inApp do
        modify g
        emit event) :=
    carries_inApp (.bind (carries_of_frames (screen_modify hstore hevents)) fun _ =>
      carries_emit hevent)
  have hsaid (text : String) (bad : Bool) :
      Moves (World.Carries peer) (inApp (emit (.status text bad))) :=
    carries_inApp (carries_emit fun _ => rfl)
  cases e with
  | up other nick =>
    exact hlive (.connected other nick) (fun _ => rfl) (fun _ => rfl) (fun _ => rfl) w
  | down other => exact hlive (.disconnected other) (fun _ => rfl) (fun _ => rfl) (fun _ => rfl) w
  | tell event => exact carries_inApp (carries_emit (h peer)) w
  | name io key value =>
    refine Moves.rescue (R := World.Carries peer)
      (carries_inApp (carries_of_frames (screen_setSetting _ _ _))) (fun _ => carries_inApp ?_) w
    cases key with
    | nick other => exact moves_pure _
    | nickname => exact carries_emit fun _ => rfl
    | aliased other => exact carries_emit fun _ => rfl
  | handle io reply sender frame => exact carries_accept_call h reply sender frame w
  | command c x => exact Dispatch.carries_command h c w
  | room io reply now c => exact carries_inApp (carries_roomCommand _ _ _) w
  | fetch io id reply => exact carries_inApp (carries_fetchRoom _ _) w
  | send io other path =>
    exact (carries_send h.1 h.2 other path).rescue (fun _ => hsaid _ true) w
  | receive io other =>
    exact (carries_receive h other).rescue (fun _ => hsaid _ false) w
  | drain xs => exact Mailbox.carries_run h.1 (fun _ => id) h.2

variable (peer) in
/-- Each of the conversations has been sent. -/
theorem wp_replayEach (x : BootIo) (peers : List Key) (app : App) :
    wp (replayEach x peers) (fun _ a => app.Carries peer a ∧ (peer ∈ peers → a.Shows peer))
      (fun _ _ => True) app := by
  induction peers generalizing app with
  | nil => exact ⟨id, fun hmem => absurd hmem List.not_mem_nil⟩
  | cons other peers ih =>
    simp only [replayEach, wp_bind]
    refine wp_mono (fun _ b hb => ?_) (fun _ _ _ => trivial)
      ((carries_announcePeer peer (x.names other) other).wp app)
    refine wp_mono (fun _ c hc => ?_) (fun _ _ _ => trivial)
      (wp_sendLog_shows peer { x.io with history := x.history other } other b)
    refine wp_mono (fun _ d hd => ⟨fun hshown => hd.1 (hc.1 (hb hshown)), fun hmem => ?_⟩)
      (fun _ _ _ => trivial) (ih c)
    obtain rfl | hmem := List.mem_cons.mp hmem
    · exact hd.1 (hc.2 rfl)
    · exact hd.2 hmem

variable (env) in
/-- A client that is up shows what there is. -/
theorem wp_boot_shows (x : BootIo) (s : Store) :
    wp (boot env x) (fun _ a => a.Shows peer) (fun _ _ => True) (App.start s) := by
  simp only [boot, inStore, replayHistory, wp_bind, wp_zoom, wp_get, wp_lift]
  refine wp_mono (fun _ s' hcovered => ⟨fun peers hpeers => ?_, fun _ _ => trivial⟩)
    (fun _ _ _ => trivial) (Store.covered_openWith x.sqlite env.me s)
  refine wp_mono (fun _ a ha => ?_) (fun _ _ _ => trivial)
    (wp_replayEach peer x peers _)
  refine wp_mono (fun _ b hb => hb ?_) (fun _ _ _ => trivial)
    ((carries_loadRooms env x.history).wp a)
  by_cases hmem : peer ∈ peers
  · exact ha.2 hmem
  · -- Who is no contact has no rows.
    refine ha.1 (shows_nil (List.filter_eq_nil_iff.mpr fun row hrow hpeer => hmem ?_) rfl)
    rw [Store.mem_peers hpeers, ← of_decide_eq_true hpeer]
    exact hcovered.ops row hrow

end

end Wicara.Client
