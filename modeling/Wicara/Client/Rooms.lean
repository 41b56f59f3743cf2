import Wicara.Client.Hub

namespace Wicara.Client

open Wicara.Core Lib Lib.Fallible

variable {C : Crypto} (env : Env C)

def fetchRoom (io : Io) (id : RoomId) (reply : Reply) : Act PUnit := do
  lift (ensure (env.hub = true) "no hub configured")
  let (room, entries) ← lift (Hub.room env id reply)
  inStore (Store.saveRoom io.saveRoom id entries)
  showRoom env io room
  status (if env.me ∈ room.members then s!"#{room.name} membership updated"
    else s!"#{room.name}: you are no longer a member")

/-- The checks of `absorb_room` that look at nothing but the log. -/
def judge (C : Crypto) (id : RoomId) (log : List RoomEntry) : Except String Room := do
  let room ← verified C log
  ensure (room.id = id) "that log belongs to a different room"
  pure room

def absorbRoom (io : Io) (id : RoomId) (log : List RoomEntry) (reply : Reply) : Act PUnit := do
  if log = [] then
    fetchRoom env io id reply
  else do
    let room ← lift (judge C id log)
    let app ← get
    lift (ensure ((app.rooms.get id).isSome = true ∨ env.me ∈ room.members)
      "a log for a room this endpoint is not in")
    if room.length ≤ app.heldLength id then
      pure .unit
    else do
      inStore (Store.saveRoom io.saveRoom id log)
      showRoom env io room
      note id (if env.me ∈ room.members then "membership changed"
        else "you are no longer a member of this room")

/-- The check on an op that claims to be for a room. -/
def enterRoom (io : Io) (reply : Reply) (sender : Key) (room : RoomId) : Act PUnit := do
  let app ← get
  if app.isMember room sender = true then
    pure .unit
  else do
    fetchRoom env io room reply
    let app ← get
    lift (ensure (app.isMember room sender = true)
      "op for a room the chain does not put that sender in")
  let app ← get
  lift (ensure (app.isMember room env.me = true) "op for a room this endpoint is not in")

def accept (io : Io) (reply : Reply) (sender : Key) (frame : Frame) : Act (Option Key) :=
  match frame with
  | .roomUpdated room log => do
    ignore (absorbRoom env io room log reply)
    pure none
  | frame =>
    match frame.id with
    | none => pure none
    | some id => do
      lift (ensure (id.sender = sender) "op is minted under a key other than the sender's")
      match frame with
      | .inRoom room _ => enterRoom env io reply sender room
      | _ => pure .unit
      let conversation := frame.conversation sender
      let fresh ← inStore (Store.record io.record conversation frame.unwrapRoom)
      pure (if fresh then some conversation else none)

/-- The loop of `load_rooms`; `refold` is how the history of each room reads. -/
def loadEach (io : Io) (refold : RoomId → Option String) :
    List (RoomId × List RoomEntry) → Act PUnit
  | [] => pure .unit
  | (id, entries) :: stored => do
    match verifyLog C entries with
    | .ok room =>
      if room.id = id then showRoom env { io with history := refold id } room else pure .unit
    | .error _ => pure .unit
    if env.hub then modify fun app => { app with fetching := app.fetching ++ [id] }
    loadEach io refold stored

def loadRooms (io : Io) (refold : RoomId → Option String) : Act PUnit := do
  attempt io.rooms
  let app ← get
  loadEach env io refold app.store.rooms.rows

/-- The log `append` starts from. -/
def knownLog (io : Io) : Option RoomId → Act (List RoomEntry)
  | none => pure []
  | some id => do
    attempt io.rooms
    let app ← get
    match app.store.rooms.get id with
    | some log => pure log
    | none => throw "that room is not one this endpoint knows about"

/-- What `append` has built before it touches anything. -/
structure Extension where
  verified : Room
  entries : List RoomEntry
  notify : Finset Key

def membersOf (C : Crypto) (entries : List RoomEntry) : Finset Key :=
  match verifyLog C entries with
  | .ok room => room.members
  | .error _ => ∅

/-- The entry `append` signs, on the last one of the log. -/
def nextEntry (now : UInt64) (op : RoomOp) (entries : List RoomEntry) : RoomEntry :=
  RoomEntry.new C env.identity ((entries.getLast?.map (RoomEntry.hash C)).getD genesis) now op

def extend (now : UInt64) (op : RoomOp) (entries : List RoomEntry) : Except String Extension := do
  let before := membersOf C entries
  let entries := entries ++ [nextEntry env now op entries]
  let room ← verified C entries
  pure ⟨room, entries, before ∪ room.members⟩

def publishRoom (io : Io) (reply : Reply) (room : Room) : Act PUnit := do
  showRoom env io room
  if env.hub then lift (Hub.putRoom reply) else pure .unit

def notifyEach (id : RoomId) (entries : List RoomEntry) : List Key → Act PUnit
  | [] => pure .unit
  | member :: members => do
    if member ≠ env.me then deliverTo env member (.roomUpdated id entries) else pure .unit
    notifyEach id entries members

def append (io : Io) (reply : Reply) (now : UInt64) (room : Option RoomId) (op : RoomOp) :
    Act PUnit := do
  let entries ← knownLog io room
  let ext ← lift (extend env now op entries)
  inStore (Store.saveRoom io.saveRoom ext.verified.id ext.entries)
  publishRoom env io reply ext.verified
  notifyEach env ext.verified.id ext.entries (inOrder ext.notify)

def roomCommand (io : Io) (reply : Reply) (now : UInt64) (command : RoomCommand) :
    Act PUnit := fun app =>
  let result := match command with
    | .create name => append env io reply now none (.create name)
    | .invite room member => append env io reply now (some room) (.invite member)
    | .kick room member => append env io reply now (some room) (.kick member)
    | .leave room => append env io reply now (some room) .leave
  match result.run app with
  | .ok _ app => .ok .unit app
  | .error err app => (status s!"room: {err}").run app

section Frames

variable {env} {f : Store → γ} {io : Io}

theorem frames_emit (event : UiEvent) : Frames (fun app => f app.store) (emit event) :=
  frames_modify fun _ => rfl

theorem frames_sendLog (peer : Key) : Frames (fun app => f app.store) (sendLog io peer) :=
  .bind frames_get fun _ => .bind (frames_lift _) fun _ => frames_emit _

theorem frames_inStore {m : EStateM String Store α} (h : Frames f m) :
    Frames (fun app => f app.store) (inStore m) :=
  frames_zoom fun app => h app.store

theorem frames_record (hf : ∀ s contacts ops, f { s with contacts := contacts, ops := ops } = f s)
    (sqlite : Sqlite) (peer : Key) (frame : Frame) :
    Frames (fun app => f app.store) (inStore (Store.record sqlite peer frame)) := by
  apply frames_inStore
  unfold Store.record
  split
  · exact frames_pure _
  · refine .bind (frames_attempt _) fun _ => .bind (frames_modify fun s => hf s _ _) fun _ => ?_
    refine .bind (frames_attempt _) fun _ => .bind frames_get fun _ => ?_
    exact .bind (frames_modify fun s => hf s _ _) fun _ => frames_pure _

theorem frames_showRoom (room : Room) :
    Frames (fun app => f app.store) (showRoom env io room) :=
  .bind (.bind (frames_modify fun _ => rfl) fun _ => frames_emit _) fun _ => frames_sendLog _

variable (hf : ∀ s contacts rooms, f { s with contacts := contacts, rooms := rooms } = f s)
include hf

theorem frames_saveRoom (sqlite : Sqlite) (id : RoomId) (entries : List RoomEntry) :
    Frames (fun app => f app.store) (inStore (Store.saveRoom sqlite id entries)) := by
  refine frames_inStore (.bind (frames_attempt _) fun _ => ?_)
  refine .bind (frames_modify fun s => hf s _ _) fun _ => .bind (frames_attempt _) fun _ => ?_
  exact frames_modify fun s => hf s _ _

theorem frames_fetchRoom (id : RoomId) (reply : Reply) :
    Frames (fun app => f app.store) (fetchRoom env io id reply) := by
  refine .bind (frames_lift _) fun _ => .bind (frames_lift _) fun _ => ?_
  refine .bind (frames_saveRoom hf _ _ _) fun _ => .bind (frames_showRoom _) fun _ => ?_
  exact frames_emit _

theorem frames_absorbRoom (id : RoomId) (log : List RoomEntry) (reply : Reply) :
    Frames (fun app => f app.store) (absorbRoom env io id log reply) := by
  refine .ite (frames_fetchRoom hf id reply) (.bind (frames_lift _) fun room => ?_)
  refine .bind frames_get fun app => .bind (frames_lift _) fun _ => .ite (frames_pure _) ?_
  refine .bind (frames_saveRoom hf _ _ _) fun _ => .bind (frames_showRoom _) fun _ => ?_
  exact frames_emit _

theorem frames_enterRoom (reply : Reply) (sender : Key) (room : RoomId) :
    Frames (fun app => f app.store) (enterRoom env io reply sender room) := by
  have hme : Frames (fun app : App => f app.store) (do
      let app ← get
      lift (ensure (app.isMember room env.me = true) "op for a room this endpoint is not in")) :=
    .bind frames_get fun _ => frames_lift _
  refine .bind frames_get fun app => .ite hme (.bind (frames_fetchRoom hf _ _) fun _ => ?_)
  exact .bind frames_get fun _ => .bind (frames_lift _) fun _ => hme

/-- An incoming op touches the ops, the contacts and the rooms of the store and nothing else. -/
theorem frames_accept
    (hf' : ∀ s contacts ops, f { s with contacts := contacts, ops := ops } = f s) (reply : Reply)
    (sender : Key) (frame : Frame) :
    Frames (fun app => f app.store) (accept env io reply sender frame) := by
  have hfile : ∀ peer frame', Frames (fun app : App => f app.store) (do
      let fresh ← inStore (Store.record io.record peer frame')
      pure (if fresh = true then some peer else none)) := fun _ _ =>
    .bind (frames_record hf' _ _ _) fun _ => frames_pure _
  unfold accept
  split
  · exact .bind (.ignore (frames_absorbRoom hf _ _ _)) fun _ => frames_pure _
  · split
    · exact frames_pure _
    · refine .bind (frames_lift _) fun _ => ?_
      split
      · exact .bind (frames_enterRoom hf _ _ _) fun _ => hfile _ _
      · exact hfile _ _

end Frames

section Writes

variable {env} {io : Io} {reply : Reply} {sender : Key} {frame : Frame}

/-- What a call of `accept` for an op of this sender has written to `ops` when it returns: the one
row that it reports, or nothing if there is no op in it or that was known. -/
inductive AcceptWrites (sender : Key) (frame : Frame) (before after : App) : Option Key → Prop
  | row {id : MessageId} (hid : frame.id = some id) (hsender : id.sender = sender)
      (hnew : id ∉ before.store.ops.keys)
      (hrows : after.store.ops.rows =
        before.store.ops.rows ++ [(id, frame.conversation sender, frame.unwrapRoom)]) :
      AcceptWrites sender frame before after (some (frame.conversation sender))
  | nothing (hops : after.store.ops = before.store.ops)
      (hknown : ∀ id, frame.id = some id → id ∈ before.store.ops.keys) :
      AcceptWrites sender frame before after none

theorem wp_record_ops {sqlite : Sqlite} {peer : Key} {id : MessageId} (hid : frame.id = some id)
    (app : App) : wp (inStore (Store.record sqlite peer frame))
      (fun fresh a => fresh = decide (id ∉ app.store.ops.keys) ∧
        a.store.ops = app.store.ops.insertOrIgnore id (peer, frame))
      (fun _ a => a.store.ops = app.store.ops) app := by
  simp only [inStore, Store.record, hid, wp_zoom, wp_bind, wp_attempt, wp_modify, wp_get, wp_pure]
  exact ⟨fun _ => ⟨fun _ => ⟨trivial, trivial⟩, fun _ _ => trivial⟩, fun _ _ => trivial⟩

/-- An op that gets as far as the store is written, or was known. -/
theorem wp_record_writes {before : App} {id : MessageId} (hid : frame.id = some id)
    (hsender : id.sender = sender) (app : App) (happ : app.store.ops = before.store.ops) :
    wp (do
        let fresh ← inStore (Store.record io.record (frame.conversation sender) frame.unwrapRoom)
        pure (if fresh = true then some (frame.conversation sender) else none))
      (fun conversation a => AcceptWrites sender frame before a conversation)
      (fun _ a => a.store.ops = before.store.ops) app := by
  rw [wp_bind, ← happ]
  refine wp_mono ?_ (fun _ _ h => h) (wp_record_ops (frame.id_unwrapRoom.trans hid) app)
  rintro fresh a ⟨rfl, hops⟩
  rw [wp_pure]
  by_cases hknown : id ∈ app.store.ops.keys
  · rw [Table.insertOrIgnore_of_mem hknown, happ] at hops
    have hids : ∀ id', frame.id = some id' → id' ∈ before.store.ops.keys := by
      rintro id' hid'
      rw [← happ, ← Option.some.inj (hid.symm.trans hid')]
      exact hknown
    simpa [hknown] using AcceptWrites.nothing hops hids
  · have hrows := congrArg Table.rows hops
    rw [Table.rows_insertOrIgnore hknown, happ] at hrows
    simpa [hknown] using AcceptWrites.row hid hsender (happ ▸ hknown) hrows

/-- A call of `accept` writes the one row that it reports, or none. -/
theorem wp_accept_writes (env : Env C) (io : Io) (reply : Reply) (sender : Key) (frame : Frame)
    (app : App) : wp (accept env io reply sender frame)
      (fun conversation a => AcceptWrites sender frame app a conversation)
      (fun _ a => a.store.ops = app.store.ops) app := by
  cases frame with
  | hello nickname => exact .nothing rfl fun id hid => absurd hid (Option.some_ne_none id).symm
  | roomUpdated room log =>
    simp only [accept, wp_bind, wp_ignore, wp_pure]
    have hops : Frames (fun app : App => app.store.ops) (absorbRoom env io room log reply) :=
      frames_absorbRoom (f := Store.ops) (fun _ _ _ => rfl) room log reply
    exact .nothing (hops app) fun id hid => absurd hid (Option.some_ne_none id).symm
  | inRoom room op =>
    cases hid : (Frame.inRoom room op).id with
    | none =>
      simp only [accept, hid]
      exact .nothing rfl fun id hsome =>
        absurd (hid.symm.trans hsome) (Option.some_ne_none id).symm
    | some id =>
      simp only [accept, hid]
      rw [wp_bind, wp_lift]
      refine ⟨fun _ hensured => ?_, fun _ _ => rfl⟩
      have hops : Frames (fun app : App => app.store.ops) (enterRoom env io reply sender room) :=
        frames_enterRoom (f := Store.ops) (fun _ _ _ => rfl) reply sender room
      rw [wp_bind]
      exact wp_mono (fun _ a ha => wp_record_writes hid (ensure_eq_ok.mp hensured) a ha)
        (fun _ _ h => h) (hops.wp app)
  | chat | edit | delete | react | file =>
    simp only [accept, Frame.id]
    rw [wp_bind, wp_lift]
    exact ⟨fun _ hensured => wp_record_writes rfl (ensure_eq_ok.mp hensured) app rfl,
      fun _ _ => rfl⟩

end Writes

end Wicara.Client
