import Wicara.Client.RoomRuns
import Wicara.Hub.MailTasks

namespace Wicara.Client

open Wicara.Core Lib Lib.Fallible Lib.Run

/-- What the mailbox needs beside the rest of the client: the prekey, and `postcard`'s readers. -/
structure Mail where
  sealing : Sealing
  prekey : sealing.StaticSecret
  decodeFrame : List UInt8 → Except String Frame
  decodeMail : List UInt8 → Except String (List (Int × Envelope))

namespace Hub

def publishPrekey : Reply → Except String Unit
  | none => .error "publishing prekey"
  | some res => ensure res.isSuccess s!"hub refused the prekey: {res.shown}"

def fetchMail (m : Mail) : Reply → Except String (List (Int × Envelope))
  | none => .error "draining the mailbox"
  | some res => do
    ensure res.isSuccess s!"hub returned {res.shown}"
    m.decodeMail (← limited res maxMailReply)

def deleteMail (ids : List Int) (reply : Reply) : Except String Unit :=
  if ids = [] then .ok ()
  else
    match reply with
    | none => .error "clearing the mailbox"
    | some res => ensure res.isSuccess s!"hub returned {res.shown}"

end Hub

variable {C : Crypto} (env : Env C) (m : Mail)

def absorb (io : Io) (reply : Reply) (envelope : Envelope) : Act (Option Key) := do
  let opened ← lift (envelope.openWith C m.sealing m.prekey env.me)
  let frame ← lift (m.decodeFrame opened.1)
  accept env io reply opened.2 frame

/-- A row that was put in `collected`, with the client before and after it was absorbed. -/
structure Taken where
  row : Int
  envelope : Envelope
  reply : Reply
  before : App
  after : App

/-- One round of the drain, so far. -/
structure Round where
  collected : List Taken
  touched : List Key
  arrived : Nat

def Round.start : Round := ⟨[], [], 0⟩

def Round.collect (taken : Taken) (conversation : Option Key) (round : Round) : Round where
  collected := round.collected ++ [taken]
  touched := match conversation with
    | some key => round.touched.insert key
    | none => round.touched
  arrived := match conversation with
    | some _ => round.arrived + 1
    | none => round.arrived

/-- Where `mailbox_loop` stands. -/
inductive MailboxPc
  | publish
  | fetch
  | rows (mail : List (Int × Envelope)) (round : Round)
  | refold (touched : List Key) (round : Round)
  | clear (round : Round)
  | announce (round : Round)
  | off

/-- How the calls of one step turn out, what the other tasks have made of the client before it,
and in which order a `HashSet` is iterated. -/
structure MailboxIo where
  io : Io
  reply : Reply
  meanwhile : App → App
  order : List Key → List Key
  order_perm : ∀ l, (order l).Perm l

structure Mailbox where
  app : App
  pc : MailboxPc

namespace Mailbox

/-- Leave it on the hub rather than lose it. -/
def takeRow (x : MailboxIo) (row : Int) (envelope : Envelope) (mail : List (Int × Envelope))
    (round : Round) : Act MailboxPc := fun app =>
  match (absorb env m x.io x.reply envelope).run app with
  | .ok conversation after =>
    .ok (.rows mail (round.collect ⟨row, envelope, x.reply, app, after⟩ conversation)) after
  | .error _ after => .ok (.rows mail round) after

def next (x : MailboxIo) : MailboxPc → Act MailboxPc
  | .publish => do
    match Hub.publishPrekey x.reply with
    | .ok _ => pure .fetch
    | .error err => do
      warn s!"could not publish prekey: {err}"
      pure .fetch
  | .fetch =>
    match Hub.fetchMail m x.reply with
    | .ok (row :: mail) => pure (.rows (row :: mail) .start)
    | _ => pure .fetch
  | .rows ((row, envelope) :: mail) round => takeRow env m x row envelope mail round
  | .rows [] round => pure (.refold (x.order round.touched) round)
  | .refold (peer :: touched) round => do
    ignore (sendLog x.io peer)
    pure (.refold touched round)
  | .refold [] round => pure (.clear round)
  | .clear round => do
    match Hub.deleteMail (round.collected.map Taken.row) x.reply with
    | .ok _ => pure (.announce round)
    | .error err => do
      warn s!"could not clear the mailbox: {err}"
      pure (.announce round)
  | .announce round => do
    if 0 < round.arrived then status s!"{round.arrived} message(s) delivered from the hub"
    pure .fetch
  | .off => pure .off

def step (mb : Mailbox) (x : MailboxIo) : Mailbox :=
  match (next env m x mb.pc).run (x.meanwhile mb.app) with
  | .ok pc app => ⟨app, pc⟩
  | .error _ app => ⟨app, .off⟩

def start (app : App) : Mailbox := ⟨app, if env.hub then .publish else .off⟩

end Mailbox

/-- `Hub::room` up to where the log is looked at. -/
def Hub.log : Reply → Except String (List RoomEntry)
  | none => .error "fetching the room log"
  | some res => do
    ensure (res.status ≠ 404) "the hub has no log for that room"
    ensure res.isSuccess s!"hub returned {res.shown}"
    env.decodeLog (← limited res maxRoomReply)

/-- The log that a `RoomUpdated` stands for: an empty one is for the hub's. -/
def standsFor (log : List RoomEntry) (reply : Reply) : Except String (List RoomEntry) :=
  if log = [] then Hub.log env reply else .ok log

/-- What `absorb_room` rightly refuses. -/
inductive Refused (app : App) (id : RoomId) (log : List RoomEntry) : Prop
  | forged {err : String} (h : verified C log = .error err)
  | other {room : Room} (h : verified C log = .ok room) (hid : room.id ≠ id)
  | notLonger {room : Room} (h : verified C log = .ok room)
      (hle : room.length ≤ app.heldLength id)
  | stranger {room : Room} (h : verified C log = .ok room) (hunknown : app.rooms.get id = none)
      (hme : env.me ∉ room.members)

/-- Nothing is lost with a row that carried `frame`: the op is in the store, as it came unless
its id was there before; or the room log is, or it is one that is rightly refused. -/
inductive Kept (sender : Key) (frame : Frame) (reply : Reply) (before after : App) : Prop
  | op {id : MessageId} {row : Key × Frame} (hid : frame.id = some id)
      (hrow : after.store.ops.get id = some row)
      (hsame : row = (frame.conversation sender, frame.unwrapRoom) ∨
        before.store.ops.get id = some row)
  | saved {room : RoomId} {log entries : List RoomEntry} (hframe : frame = .roomUpdated room log)
      (hlog : standsFor env log reply = .ok entries)
      (hsaved : after.store.rooms.get room = some entries)
  | refused {room : RoomId} {log entries : List RoomEntry} (hframe : frame = .roomUpdated room log)
      (hlog : standsFor env log reply = .ok entries) (hrefused : Refused env before room entries)

/-- The row carries an op; or a room log that can be had, and that is saved, or held already, or
refused. -/
inductive Keepable (io : Io) (frame : Frame) (reply : Reply) (before : App) : Prop
  | op (hid : frame.id ≠ none)
  | saves {room : RoomId} {log entries : List RoomEntry} (hframe : frame = .roomUpdated room log)
      (hlog : standsFor env log reply = .ok entries) (hsaves : io.Saves)
  | stored {room : RoomId} {log entries : List RoomEntry} (hframe : frame = .roomUpdated room log)
      (hlog : standsFor env log reply = .ok entries)
      (hstored : before.store.rooms.get room = some entries)
  | refused {room : RoomId} {log entries : List RoomEntry} (hframe : frame = .roomUpdated room log)
      (hlog : standsFor env log reply = .ok entries) (hrefused : Refused env before room entries)

variable {env}

theorem Hub.room_eq (id : RoomId) (reply : Reply) :
    Hub.room env id reply = (do
      let entries ← Hub.log env reply
      let room ← verified C entries
      ensure (room.id = id) "the hub returned a log for a different room"
      pure (room, entries)) := by
  cases reply with
  | none => rfl
  | some res => simp only [Hub.room, Hub.log, bind_assoc]

/-- `save_room` and what comes after it. -/
theorem rooms_file {io : Io} {id : RoomId} {log : List RoomEntry} {k : Act PUnit}
    (hk : Frames (fun app => app.store.rooms) k) (app : App) :
    (after (do inStore (Store.saveRoom io.saveRoom id log); k) app).store.rooms =
      if io.Saves then app.store.rooms.upsert id log else app.store.rooms := by
  rw [← wp_after (P := fun app' : App => app'.store.rooms = _)]
  simp only [inStore, Store.saveRoom, wp_zoom, wp_bind, wp_attempt, wp_modify]
  refine ⟨fun h0 => ⟨fun h1 => ?_, fun e he => ?_⟩, fun e he => ?_⟩
  · rw [if_pos ⟨h0, h1⟩]
    exact hk.wp _
  · rw [if_neg fun hs => by simp [hs.2] at he]
  · rw [if_neg fun hs => by simp [hs.1] at he]

/-- What `absorb_room` does not refuse, it saves if it can. -/
theorem rooms_absorbRoom {io : Io} {id : RoomId} {log entries : List RoomEntry} {reply : Reply}
    {app : App} (hhub : env.hub = true) (hlog : standsFor env log reply = .ok entries)
    (hrefused : ¬Refused env app id entries) :
    (after (absorbRoom env io id log reply) app).store.rooms =
      if io.Saves then app.store.rooms.upsert id entries else app.store.rooms := by
  obtain ⟨room, hroom⟩ : ∃ room, verified C entries = .ok room := by
    cases hverified : verified C entries with
    | ok room => exact ⟨room, rfl⟩
    | error err => exact absurd (.forged hverified) hrefused
  have hid : room.id = id := by_contra fun h => hrefused (.other hroom h)
  unfold standsFor at hlog
  rw [absorbRoom]
  split
  · rename_i hempty
    rw [if_pos hempty] at hlog
    have hfetched : Hub.room env id reply = .ok (room, entries) := by
      rw [Hub.room_eq, hlog]
      simp [hroom, hid, ensure, bind, Except.bind, pure, Except.pure]
    have hcall : fetchRoom env io id reply = (do
        inStore (Store.saveRoom io.saveRoom id entries)
        showRoom env io room
        status (if env.me ∈ room.members then s!"#{room.name} membership updated"
          else s!"#{room.name}: you are no longer a member")) := by
      simp [fetchRoom, hfetched, hhub, ensure, lift]
    rw [hcall]
    exact rooms_file (.bind (frames_showRoom room) fun _ => frames_emit _) app
  · rename_i hfull
    rw [if_neg hfull, Except.ok.injEq] at hlog
    subst hlog
    have hjudged : judge C id log = .ok room := by
      simp [judge, hroom, hid, ensure, bind, Except.bind, pure, Except.pure]
    have hknown : (app.rooms.get id).isSome = true ∨ env.me ∈ room.members := by
      by_contra h
      rw [not_or, Bool.not_eq_true, Option.isSome_eq_false_iff, Option.isNone_iff_eq_none] at h
      exact hrefused (.stranger hroom h.1 h.2)
    have hlonger : ¬room.length ≤ app.heldLength id := fun h => hrefused (.notLonger hroom h)
    have hfile : (after (do
        inStore (Store.saveRoom io.saveRoom id log)
        showRoom env io room
        note id (if env.me ∈ room.members then "membership changed"
          else "you are no longer a member of this room")) app).store.rooms =
        if io.Saves then app.store.rooms.upsert id log else app.store.rooms :=
      rooms_file (.bind (frames_showRoom room) fun _ => frames_emit _) app
    rw [← wp_after (P := fun app' : App => app'.store.rooms = _)] at hfile ⊢
    simp only [wp_bind] at hfile
    simp only [hjudged, lift, pure_bind, wp_bind, wp_get, hknown, ensure, if_true, wp_ite, wp_pure]
    exact ⟨fun h => absurd h hlonger, fun _ => hfile⟩

/-- What `accept` takes of an op is in the store. -/
theorem wp_accept_op {io : Io} {reply : Reply} {sender : Key} {frame : Frame} {id : MessageId}
    (hid : frame.id = some id) (app : App) :
    wp (accept env io reply sender frame)
      (fun _ a => ∃ row, a.store.ops.get id = some row ∧
        (row = (frame.conversation sender, frame.unwrapRoom) ∨ app.store.ops.get id = some row))
      (fun _ _ => True) app := by
  refine wp_mono ?_ (fun _ _ _ => trivial) (wp_accept_writes env io reply sender frame app)
  intro _ a hwrites
  cases hwrites with
  | row hid' _ _ hrows =>
    obtain rfl := Option.some.inj (hid.symm.trans hid')
    refine ⟨_, Table.get_eq_some.mpr ?_, .inl rfl⟩
    rw [hrows]
    simp
  | nothing hops hknown =>
    obtain ⟨row, hrow⟩ := Table.mem_keys.mp (hknown id hid)
    exact ⟨row, hops ▸ hrow, .inr hrow⟩

theorem run_accept_roomUpdated (io : Io) (reply : Reply) (sender : Key) (room : RoomId)
    (log : List RoomEntry) (app : App) :
    (accept env io reply sender (.roomUpdated room log)).run app =
      .ok none (after (absorbRoom env io room log reply) app) := by
  simp only [accept, EStateM.run_bind, run_ignore]
  rfl

/-- A frame that carries no op is always taken. -/
theorem run_accept_of_id_none {io : Io} {reply : Reply} {sender : Key} {frame : Frame}
    (hid : frame.id = none) (app : App) :
    ∃ app', (accept env io reply sender frame).run app = .ok none app' := by
  cases frame with
  | roomUpdated room log => exact ⟨_, run_accept_roomUpdated io reply sender room log app⟩
  | hello nickname => exact ⟨app, rfl⟩
  | inRoom room op =>
    simp only [accept, hid]
    exact ⟨app, rfl⟩
  | chat | edit | delete | react | file => cases hid

/-- Nothing is lost with a row that is taken exactly when there is nothing to lose. -/
theorem kept_iff {io : Io} {reply : Reply} {sender : Key} {frame : Frame} {before after : App}
    {conversation : Option Key} (hhub : env.hub = true)
    (hrun : (accept env io reply sender frame).run before = .ok conversation after) :
    Kept env sender frame reply before after ↔ Keepable env io frame reply before := by
  have hrooms {room : RoomId} {log entries : List RoomEntry}
      (hframe : frame = .roomUpdated room log)
      (hlog : standsFor env log reply = .ok entries) (hrefused : ¬Refused env before room entries) :
      after.store.rooms =
        if io.Saves then before.store.rooms.upsert room entries else before.store.rooms := by
    rw [hframe, run_accept_roomUpdated] at hrun
    cases hrun
    exact rooms_absorbRoom hhub hlog hrefused
  constructor
  · intro h
    cases h with
    | op hid => exact .op (by rw [hid]; exact Option.some_ne_none _)
    | @saved room log entries hframe hlog hsaved =>
      by_cases hrefused : Refused env before room entries
      · exact .refused hframe hlog hrefused
      · rw [hrooms hframe hlog hrefused] at hsaved
        by_cases hsaves : io.Saves
        · exact .saves hframe hlog hsaves
        · rw [if_neg hsaves] at hsaved
          exact .stored hframe hlog hsaved
    | refused hframe hlog hrefused => exact .refused hframe hlog hrefused
  · intro h
    cases h with
    | op hid =>
      obtain ⟨id, hid⟩ := Option.ne_none_iff_exists'.mp hid
      obtain ⟨row, hrow, hsame⟩ := (wp_iff.mp (wp_accept_op hid before)).1 _ _ hrun
      exact .op hid hrow hsame
    | @saves room log entries hframe hlog hsaves =>
      by_cases hrefused : Refused env before room entries
      · exact .refused hframe hlog hrefused
      · refine .saved hframe hlog ?_
        rw [hrooms hframe hlog hrefused, if_pos hsaves, Table.get_upsert, if_pos rfl]
    | @stored room log entries hframe hlog hstored =>
      by_cases hrefused : Refused env before room entries
      · exact .refused hframe hlog hrefused
      · refine .saved hframe hlog ?_
        rw [hrooms hframe hlog hrefused]
        split
        · rw [Table.get_upsert, if_pos rfl]
        · exact hstored
    | refused hframe hlog hrefused => exact .refused hframe hlog hrefused

namespace Mailbox

variable {m}

/-- The rows that are to be deleted. -/
def collected (mb : Mailbox) : List Taken :=
  match mb.pc with
  | .rows _ round | .refold _ round | .clear round | .announce round => round.collected
  | _ => []

/-- The row that is taken next. -/
def row (mb : Mailbox) : Option (Int × Envelope) :=
  match mb.pc with
  | .rows mail _ => mail.head?
  | _ => none

variable (env m)

/-- Nothing was lost with a row that is to be deleted. -/
def Taken.Safe (t : Taken) : Prop :=
  ∃ opened frame, t.envelope.openWith C m.sealing m.prekey env.me = .ok opened ∧
    m.decodeFrame opened.1 = .ok frame ∧ Kept env opened.2 frame t.reply t.before t.after

def Safe (mb : Mailbox) : Prop := ∀ t ∈ mb.collected, Taken.Safe env m t

/-- The row that is taken next, if it can be opened, can be kept. -/
def Keeps (mb : Mailbox) (x : MailboxIo) : Prop :=
  ∀ row ∈ mb.row, ∀ opened frame, row.2.openWith C m.sealing m.prekey env.me = .ok opened →
    m.decodeFrame opened.1 = .ok frame → Keepable env x.io frame x.reply (x.meanwhile mb.app)

variable {env m}

/-- What does not take a row does not collect any. -/
theorem collected_step {mb : Mailbox} (hrow : mb.row = none) (x : MailboxIo) :
    (mb.step env m x).collected = mb.collected ∨ (mb.step env m x).collected = [] := by
  obtain ⟨app, pc⟩ := mb
  unfold step
  cases pc with
  | publish =>
    right
    simp only [next]
    cases Hub.publishPrekey x.reply <;> rfl
  | fetch =>
    right
    simp only [next]
    rcases Hub.fetchMail m x.reply with err | mail
    · rfl
    · cases mail <;> rfl
  | rows mail round =>
    cases mail with
    | nil => exact .inl rfl
    | cons row mail => cases hrow
  | refold touched round =>
    left
    cases touched with
    | nil => rfl
    | cons peer touched =>
      simp only [next, EStateM.run_bind, run_ignore]
      rfl
  | clear round =>
    left
    simp only [next]
    cases Hub.deleteMail (round.collected.map Taken.row) x.reply <;> rfl
  | announce round =>
    right
    by_cases h : 0 < round.arrived <;> simp only [next, h, if_true, if_false] <;> rfl
  | off => exact .inl rfl

theorem collected_row {app app' : App} {row : Int} {envelope : Envelope}
    {mail : List (Int × Envelope)} {round : Round} {x : MailboxIo} {conversation : Option Key}
    (hrun : (absorb env m x.io x.reply envelope).run (x.meanwhile app) = .ok conversation app') :
    (step env m ⟨app, .rows ((row, envelope) :: mail) round⟩ x).collected =
      round.collected ++ [⟨row, envelope, x.reply, x.meanwhile app, app'⟩] := by
  simp only [EStateM.run] at hrun
  simp only [step, next, takeRow, EStateM.run, hrun]
  rfl

theorem collected_refused {app app' : App} {row : Int} {envelope : Envelope}
    {mail : List (Int × Envelope)} {round : Round} {x : MailboxIo} {err : String}
    (hrun : (absorb env m x.io x.reply envelope).run (x.meanwhile app) = .error err app') :
    (step env m ⟨app, .rows ((row, envelope) :: mail) round⟩ x).collected = round.collected := by
  simp only [EStateM.run] at hrun
  simp only [step, next, takeRow, EStateM.run, hrun]
  rfl

theorem run_absorb {io : Io} {reply : Reply} {envelope : Envelope} {opened : List UInt8 × Key}
    {frame : Frame} (hopen : envelope.openWith C m.sealing m.prekey env.me = .ok opened)
    (hframe : m.decodeFrame opened.1 = .ok frame) (app : App) :
    (absorb env m io reply envelope).run app = (accept env io reply opened.2 frame).run app := by
  rw [absorb, hopen]
  simp only [lift, pure_bind, hframe]

theorem opened_of_run_absorb {io : Io} {reply : Reply} {envelope : Envelope} {app app' : App}
    {conversation : Option Key}
    (hrun : (absorb env m io reply envelope).run app = .ok conversation app') :
    ∃ opened frame, envelope.openWith C m.sealing m.prekey env.me = .ok opened ∧
      m.decodeFrame opened.1 = .ok frame := by
  cases hopen : envelope.openWith C m.sealing m.prekey env.me with
  | error err =>
    rw [absorb, hopen] at hrun
    cases hrun
  | ok opened =>
    cases hframe : m.decodeFrame opened.1 with
    | error err =>
      rw [absorb, hopen] at hrun
      simp only [lift, pure_bind, hframe] at hrun
      cases hrun
    | ok frame => exact ⟨opened, frame, rfl, hframe⟩

theorem pc_of_row {mb : Mailbox} {row : Int × Envelope} (h : mb.row = some row) :
    ∃ mail round, mb.pc = .rows (row :: mail) round := by
  unfold Mailbox.row at h
  split at h
  · rename_i mail round hpc
    cases mail with
    | nil => cases h
    | cons row' mail =>
      cases h
      exact ⟨mail, round, hpc⟩
  · cases h

/-- Without a hub, or with one, for good. -/
def Lives (env : Env C) (mb : Mailbox) : Prop := mb.pc = .off ∨ env.hub = true

/-- A step gives nothing up exactly when the row it takes can be kept. -/
theorem safe_step_iff {mb : Mailbox} (hhub : env.hub = true) (hsafe : Safe env m mb)
    (x : MailboxIo) : Safe env m (mb.step env m x) ↔ Keeps env m mb x := by
  cases hrow : mb.row with
  | none =>
    refine iff_of_true (fun t ht => ?_) ?_
    · obtain hsame | hnone : (mb.step env m x).collected = mb.collected ∨
          (mb.step env m x).collected = [] := collected_step hrow x
      · exact hsafe t (hsame ▸ ht)
      · rw [hnone] at ht
        cases ht
    · intro row hmem
      rw [hrow] at hmem
      cases hmem
  | some row =>
    obtain ⟨mail, round, hpc⟩ := pc_of_row hrow
    obtain ⟨app, pc⟩ := mb
    obtain ⟨row, envelope⟩ := row
    subst hpc
    have hkeeps : Keeps env m ⟨app, .rows ((row, envelope) :: mail) round⟩ x ↔
        ∀ opened frame, envelope.openWith C m.sealing m.prekey env.me = .ok opened →
          m.decodeFrame opened.1 = .ok frame →
          Keepable env x.io frame x.reply (x.meanwhile app) :=
      ⟨fun h => h _ rfl, fun h row' hrow' => by cases hrow'; exact h⟩
    rw [hkeeps]
    cases hrun : (absorb env m x.io x.reply envelope).run (x.meanwhile app) with
    | ok conversation app' =>
      obtain ⟨opened, frame, hopen, hframe⟩ := opened_of_run_absorb hrun
      have haccept := (run_absorb hopen hframe _).symm.trans hrun
      have hkept := kept_iff hhub haccept
      rw [Safe, collected_row hrun]
      constructor
      · intro h opened' frame' hopen' hframe'
        cases hopen.symm.trans hopen'
        cases hframe.symm.trans hframe'
        obtain ⟨opened', frame', hopen', hframe', hkeep⟩ :=
          h _ (List.mem_append_right _ (List.mem_singleton_self _))
        cases hopen.symm.trans hopen'
        cases hframe.symm.trans hframe'
        exact hkept.mp hkeep
      · intro h t ht
        obtain hold | hnew := List.mem_append.mp ht
        · exact hsafe t hold
        · cases List.mem_singleton.mp hnew
          exact ⟨opened, frame, hopen, hframe, hkept.mpr (h opened frame hopen hframe)⟩
    | error err app' =>
      refine iff_of_true (fun t ht => ?_) ?_
      · rw [collected_refused hrun] at ht
        exact hsafe t ht
      · intro opened frame hopen hframe
        refine .op fun hid => ?_
        obtain ⟨app'', hok⟩ : ∃ app', (accept env x.io x.reply opened.2 frame).run
            (x.meanwhile app) = .ok none app' := run_accept_of_id_none hid _
        rw [← run_absorb hopen hframe, hrun] at hok
        cases hok

theorem lives_step {mb : Mailbox} (h : mb.Lives env) (x : MailboxIo) :
    Lives env (mb.step env m x) := by
  obtain hover | hhub := h
  · left
    obtain ⟨app, pc⟩ := mb
    subst hover
    rfl
  · exact .inr hhub

end Mailbox

/-- In a run of `mailbox_loop` nothing is ever to be deleted that would be lost by it exactly
when every row that can be opened, as it is taken, carries what can be kept. -/
theorem drain_never_loses_iff (env : Env C) (m : Mail) (app : App) (steps : List MailboxIo) :
    (∀ n, Mailbox.Safe env m (run (Mailbox.step env m) (.start env app) (steps.take n))) ↔
    Along (Mailbox.step env m) (Mailbox.Keeps env m) (.start env app) steps := by
  refine Along.iff_throughout (I := Mailbox.Lives env) (G := Mailbox.Safe env m)
    (fun mb x h => Mailbox.lives_step h x) (fun mb x h hsafe => ?_) ?_ ?_
  · obtain hover | hhub := h
    · obtain ⟨app, pc⟩ := mb
      subst hover
      exact iff_of_true (fun t ht => by cases ht) (fun row hrow => by cases hrow)
    · exact Mailbox.safe_step_iff hhub hsafe x
  · unfold Mailbox.start Mailbox.Lives
    cases env.hub
    · exact .inl rfl
    · exact .inr rfl
  · unfold Mailbox.start
    cases env.hub <;> exact fun t ht => by cases ht

namespace Sample

open Core.Sample Hub.Sample

/-- A cipher that leaves the message as it is. -/
def plainSealing : Sealing where
  StaticSecret := UInt8
  publicKey secret := Bytes.replicate 32 secret
  diffieHellman _ ephemeral := ephemeral
  wasContributory _ := true
  deriveKey _ := Bytes.replicate 32 0
  decrypt _ _ ciphertext _ := some ciphertext

/-- What 1 leaves on the hub for 2, whom it has invited. -/
def invitation : Frame := .roomUpdated kitchenRoom.id kitchen

def parcel : Envelope := sealed 1 2 invitation.toStdvec

def mail : Mail where
  sealing := plainSealing
  prekey := (8 : UInt8)
  decodeFrame body :=
    if body = invitation.toStdvec then .ok invitation
    else .error "Hit the end of buffer, expected more data"
  decodeMail body :=
    if body = Hub.mailToStdvec [(1, parcel)] then .ok [(1, parcel)]
    else .error "Hit the end of buffer, expected more data"

/-- The hub's answer that has the mail. -/
def delivery : Reply := some ⟨200, "200 OK", "", none, [.ok (Hub.mailToStdvec [(1, parcel)])]⟩

theorem decodeFrame_invitation : mail.decodeFrame invitation.toStdvec = .ok invitation := by
  simp only [mail, if_true]

/-- Who does not know the kitchen yet has no reason to refuse it. -/
theorem kitchen_not_refused {app : App} (hheld : app.heldLength kitchenRoom.id = 0) :
    ¬Refused (client 2 true) app kitchenRoom.id kitchen := by
  have hverified : verified crypto kitchen = .ok kitchenRoom := by
    rw [verified, verifyLog_kitchen]
    rfl
  intro h
  cases h with
  | forged h => cases hverified.symm.trans h
  | other h hid =>
    cases hverified.symm.trans h
    exact hid rfl
  | notLonger h hle =>
    cases hverified.symm.trans h
    rw [hheld] at hle
    cases hle
  | stranger h hunknown hme =>
    cases hverified.symm.trans h
    exact hme (by decide)

def undisturbed (io : Io) (reply : Reply) : MailboxIo := ⟨io, reply, id, id, .refl⟩

/-- The row is fetched, and the log in it cannot be saved. -/
def locked : List MailboxIo :=
  [undisturbed .ok delivery, undisturbed .ok delivery,
    undisturbed
      { Io.ok with saveRoom := fun n => if n = 1 then some "database is locked" else none } none]

def lockedOut : Mailbox :=
  run (Mailbox.step (client 2 true) mail) (.start (client 2 true) (App.start (Store.fresh (key 2))))
    locked

end Sample

open Core.Sample Sample in
/-- The row is to be deleted all the same, and nobody has the log it brought. -/
theorem locked_store_loses_invitation :
    lockedOut.collected.map (fun t => (t.row, t.envelope, t.before.heldLength kitchenRoom.id,
      t.after.store.rooms.get kitchenRoom.id)) = [(1, parcel, 0, none)] ∧
    ¬lockedOut.Safe (client 2 true) mail := by
  have hrun : lockedOut.collected.map (fun t => (t.row, t.envelope,
      t.before.heldLength kitchenRoom.id, t.after.store.rooms.get kitchenRoom.id)) =
        [(1, parcel, 0, none)] := by decide +kernel
  refine ⟨hrun, fun hsafe => ?_⟩
  obtain ⟨t, hcollected, hfields⟩ := List.map_eq_singleton_iff.mp hrun
  simp only [Prod.mk.injEq] at hfields
  obtain ⟨hrow, henvelope, hheld, hsaved⟩ := hfields
  obtain ⟨opened, frame, hopen, hframe, hkept⟩ := hsafe t (by rw [hcollected]; exact .head _)
  have hinvitation : parcel.openWith crypto plainSealing (8 : UInt8) (key 2) =
      .ok (invitation.toStdvec, key 1) := by decide +kernel
  rw [henvelope] at hopen
  cases hinvitation.symm.trans hopen
  cases decodeFrame_invitation.symm.trans hframe
  cases hkept with
  | op hid => cases hid
  | saved heq hlog hkept =>
    cases heq
    rw [hsaved] at hkept
    cases hkept
  | refused heq hlog hrefused =>
    cases heq
    rw [standsFor, if_neg (by decide), Except.ok.injEq] at hlog
    subst hlog
    exact kitchen_not_refused hheld hrefused

end Wicara.Client
