import Wicara.Client.Admission
import Wicara.Client.Arrival
import Wicara.Client.Mailbox
import Wicara.Client.Provenance

namespace Wicara.Client

open Wicara.Core Lib Lib.Fallible Lib.Run Lib.Interleaving

/-- Where `absorb` stands with an envelope: opening it is a section of its own. -/
inductive MailPc
  | sealed
  | taken (arrival : Arrival)
  | refused (err : String)

/-- The tasks that work on the store: the commands of the user, the streams that carry files,
what the sessions and the mailbox hand to `accept`, and what is spawned about rooms. -/
inductive StoreTask
  | dispatch (d : Dispatch)
  | file (t : FileTask)
  | live (a : Arrival)
  | mail (io : Io) (reply : Reply) (envelope : Envelope) (pc : MailPc)
  | room (t : Task)

/-- Whether the key is a member of the verified room that the memory holds under this id. -/
def Held (C : Crypto) (app : App) (room : RoomId) (who : Key) : Prop :=
  ∃ v : VerifiedLog C, v.room.id = room ∧ app.rooms.get room = some v.room ∧ who ∈ v.room.members

section

variable {C : Crypto} (env : Env C) (m : Mail) (alphanumeric : Char → Bool)

def MailPc.opened (io : Io) (reply : Reply) (envelope : Envelope) : MailPc :=
  match envelope.openWith C m.sealing m.prekey env.me with
  | .error err => .refused err
  | .ok (plaintext, sender) =>
    match m.decodeFrame plaintext with
    | .error err => .refused err
    | .ok frame => .taken ⟨io, reply, sender, frame, .start⟩

namespace StoreTask

def advance : StoreTask → World → StoreTask × World
  | .dispatch d, w => (.dispatch (d.advance env w).1, (d.advance env w).2)
  | .file t, w => (.file (t.advance env alphanumeric w).1, (t.advance env alphanumeric w).2)
  | .live a, w => (.live (a.advance env w.app).1, { w with app := (a.advance env w.app).2 })
  | .mail io reply envelope .sealed, w =>
    (.mail io reply envelope (.opened env m io reply envelope), w)
  | .mail io reply envelope (.taken a), w =>
    (.mail io reply envelope (.taken (a.advance env w.app).1),
      { w with app := (a.advance env w.app).2 })
  | .mail io reply envelope (.refused err), w => (.mail io reply envelope (.refused err), w)
  | .room t, w => (.room (t.advance env w.app).1, { w with app := (t.advance env w.app).2 })

/-- A task that has not begun. -/
def Fresh : StoreTask → Prop
  | .dispatch d => d.pc = .next
  | .file (.send _ _ _ pc) => pc = .start
  | .file (.receive _ _ pc) => pc = .start
  | .file (.once _ _) => False
  | .live a => a.pc = .start
  | .mail _ _ _ pc => pc = .sealed
  | .room t => t.pc = .start

/-- The call of `accept` that a task is in. -/
def arrival : StoreTask → Option Arrival
  | .live a | .mail _ _ _ (.taken a) => some a
  | _ => none

end StoreTask

/-- The membership that the next section of `accept` looks up. -/
def Arrival.checks (a : Arrival) : Option (RoomId × Key) :=
  match a.pc, a.frame with
  | .start, .inRoom room _ => some (room, a.sender)
  | .recheck room, _ => some (room, a.sender)
  | .checkMe room, _ => some (room, env.me)
  | _, _ => none

variable (tasks : List StoreTask)

/-- The frames that the tasks are handed, each with the key that authenticates it: the peer of
the connection, or the sender that an envelope verifies under. -/
inductive Authentic : Key → Frame → Prop
  | live {a : Arrival} (htask : .live a ∈ tasks) : Authentic a.sender a.frame
  | stream {io : ReceiveIo} {peer : Key} {frame : Frame}
      (htask : .file (.receive io peer .start) ∈ tasks) (hheader : io.header = .ok (some frame)) :
      Authentic peer frame
  | mail {io : Io} {reply : Reply} {envelope : Envelope} {plaintext : List UInt8} {sender : Key}
      {frame : Frame} (htask : .mail io reply envelope .sealed ∈ tasks)
      (hopen : envelope.openWith C m.sealing m.prekey env.me = .ok (plaintext, sender))
      (hframe : m.decodeFrame plaintext = .ok frame) : Authentic sender frame

/-- What the tasks make of the commands of the user. -/
inductive Issued : OpRow → Prop
  | dispatch {queue : List (UiCommand × CommandIo)} {command : UiCommand} {x : CommandIo}
      {peer : Key} {frame : MessageId → Frame} (id : MessageId)
      (htask : .dispatch ⟨queue, .next⟩ ∈ tasks) (hcommand : (command, x) ∈ queue)
      (hop : command.op = some (peer, frame)) : Issued (id, peer, frame id)
  | send {io : SendIo} {peer : Key} {path : String} {header : Header}
      (htask : .file (.send io peer path .start) ∈ tasks)
      (hfound : sendable io path = .ok (header.name, header.size, header.hash)) :
      Issued (header.id, peer, header.frame)

variable (past : Set (StoreTask × World))

/-- One of the sections has found the key to be a member when it checked the frame. -/
def Checked (sender : Key) (frame : Frame) (room : RoomId) (who : Key) : Prop :=
  ∃ t w, (t, w) ∈ past ∧ ∃ a, t.arrival = some a ∧ a.sender = sender ∧ a.frame = frame ∧
    a.checks env = some (room, who) ∧ Held C w.app room who

/-- How an op may have come into the store. -/
inductive Source (row : OpRow) : Prop
  | issued (hissued : Issued tasks row) (hsender : row.1.sender = env.me)
  | direct {frame : Frame} (hauth : Authentic env m tasks row.1.sender frame)
      (hid : frame.id = some row.1) (hframe : row.2.2 = frame.unwrapRoom)
      (hconversation : row.2.1 = row.1.sender)
  | room {frame op : Frame} (hauth : Authentic env m tasks row.1.sender frame)
      (hid : frame.id = some row.1) (hframe : row.2.2 = frame.unwrapRoom)
      (hroom : frame = .inRoom row.2.1 op)
      (hthem : Checked env past row.1.sender frame row.2.1 row.1.sender)
      (hme : Checked env past row.1.sender frame row.2.1 env.me)

end

variable {C : Crypto} {env : Env C}

theorem UiCommand.id_of_op {command : UiCommand} {peer : Key} {frame : MessageId → Frame}
    (h : command.op = some (peer, frame)) (id : MessageId) : (frame id).id = some id := by
  cases command with
  | send | edit | delete | react =>
    cases h
    rfl
  | _ => cases h

/-- What a section can rely on: the rooms verify, ops are minted under the own key, and every
op is `P`. -/
structure App.Sane (env : Env C) (P : OpRow → Prop) (app : App) : Prop where
  filed : Filed C app
  shown : ∀ id room, app.rooms.get id = some room → ∃ v : VerifiedLog C, v.room = room ∧
    v.room.id = id
  minter : app.store.counter.sender = env.me
  rows : ∀ row ∈ app.store.ops.rows, P row

namespace App.Sane

variable {P Q : OpRow → Prop} {app app' : App}

theorem mono (h : app.Sane env P) (hPQ : ∀ row, P row → Q row) : app.Sane env Q where
  filed := h.filed
  shown := h.shown
  minter := h.minter
  rows row hrow := hPQ row (h.rows row hrow)

theorem adds (h : app.Sane env P) (hadds : app.Adds P app') : app'.Sane env P where
  filed id log hlog := h.filed id log (hadds.store.stored id log hlog)
  shown id room hroom := h.shown id room (hadds.shown id room hroom)
  minter := hadds.store.minter.trans h.minter
  rows row hrow := (hadds.store.rows row hrow).elim (h.rows row) id

theorem held (h : app.Sane env P) {room : RoomId} {who : Key}
    (hmember : app.isMember room who = true) : Held C app room who := by
  unfold App.isMember at hmember
  split at hmember
  · rename_i r hr
    obtain ⟨v, rfl, hv⟩ := h.shown room r hr
    exact ⟨v, hv, hr, of_decide_eq_true hmember⟩
  · cases hmember

end App.Sane

namespace Task

theorem frames_notifyEach {f : Store → γ} (id : RoomId) (entries : List RoomEntry)
    (members : List Key) : Frames (fun app => f app.store) (notifyEach env id entries members) :=
  frames_iff.mpr fun _ => wp_mono (fun _ _ h => congrArg f h.1) (fun _ _ h => h.elim)
    (wp_notifyEach id entries members)

/-- Only a section that saves a log touches the store. -/
theorem frames_next_of_saving {f : Store → γ} {t : Task} (hpc : t.pc.saving = none) :
    Frames (fun app => f app.store) (t.next env) := by
  obtain ⟨call, io, reply, pc⟩ := t
  cases pc with
  | start =>
    cases call with
    | append now room op =>
      refine .bind ?_ fun _ => .bind (frames_lift _) fun _ => frames_pure _
      cases room with
      | none => exact frames_pure _
      | some id =>
        refine .bind (frames_attempt _) fun _ => .bind frames_get fun _ => ?_
        split
        · exact frames_pure _
        · exact fun _ => rfl
    | absorb id log =>
      exact .ite (.bind (frames_lift _) fun _ => .bind (frames_lift _) fun _ => frames_pure _)
        (.bind (frames_lift _) fun _ => .bind frames_get fun _ => .bind (frames_lift _) fun _ =>
          frames_pure _)
  | compare w => exact .bind frames_get fun _ => frames_pure _
  | save w => cases hpc
  | insert w =>
    exact .bind (.bind (frames_modify fun _ => rfl) fun _ => frames_emit _) fun _ => frames_pure _
  | refold w => exact .bind (frames_sendLog _) fun _ => frames_pure _
  | finish w =>
    refine .bind ?_ fun _ => frames_pure _
    unfold Writing.finish
    split
    · exact .ite (.bind (frames_lift _) fun _ => frames_notifyEach _ _ _) (frames_notifyEach _ _ _)
    · exact frames_emit _
    · exact frames_emit _
  | done saved result => exact frames_pure _

/-- Work on rooms leaves everything in the store alone but the rooms and the contacts. -/
theorem frames_next {f : Store → γ}
    (hf : ∀ s contacts rooms, f { s with contacts := contacts, rooms := rooms } = f s) (t : Task) :
    Frames (fun app => f app.store) (t.next env) := by
  cases hsaving : t.pc.saving with
  | none => exact frames_next_of_saving hsaving
  | some w =>
    obtain ⟨call, io, reply, pc⟩ := t
    cases pc with
    | save w => exact .bind (frames_saveRoom hf _ _ _) fun _ => frames_pure _
    | _ => cases hsaving

theorem advance_snd (t : Task) (app : App) : (t.advance env app).2 = after (t.next env) app := by
  unfold advance after
  cases (t.next env).run app <;> rfl

theorem advance_store {f : Store → γ}
    (hf : ∀ s contacts rooms, f { s with contacts := contacts, rooms := rooms } = f s) (t : Task)
    (app : App) : f (t.advance env app).2.store = f app.store := by
  rw [advance_snd]
  exact frames_next hf t app

theorem Section.shown {t : Task} {app app' : App} {pc' : Pc} (hs : t.Section env app pc' app')
    (h : t.Sound env)
    (hshown : ∀ id room, app.rooms.get id = some room → ∃ v : VerifiedLog C, v.room = room ∧
      v.room.id = id) :
    ∀ id room, app'.rooms.get id = some room → ∃ v : VerifiedLog C, v.room = room ∧
      v.room.id = id := by
  cases hs with
  | quiet leads stored shown => rwa [shown]
  | save hpc saves stored shown => rwa [shown]
  | @insert w _ hpc stored shown =>
    intro id room hroom
    rw [shown, Table.get_upsert] at hroom
    split at hroom
    · rename_i hid
      cases hroom
      exact ⟨⟨_, _, (h.carries w (by rw [hpc]; rfl)).replays⟩, rfl, hid.symm⟩
    · exact hshown id room hroom

theorem Sound.advance {P : OpRow → Prop} {t : Task} {app : App} (h : t.Sound env)
    (hsane : app.Sane env P) :
    (t.advance env app).1.Sound env ∧ (t.advance env app).2.Sane env P := by
  have hs := t.section_advance env app
  refine ⟨?_, hs.filed h hsane.filed, hs.shown h hsane.shown, ?_, ?_⟩
  · rw [t.advance_eq]
    exact hs.sound h hsane.filed
  · rw [advance_store (f := fun s => s.counter.sender) fun _ _ _ => rfl]
    exact hsane.minter
  · rw [advance_store (f := fun s => s.ops) fun _ _ _ => rfl]
    exact hsane.rows

end Task

namespace Arrival

variable {past past' : Set (StoreTask × World)} {P : OpRow → Prop}

/-- The frame carries an op of its sender. -/
def Minted (a : Arrival) : Prop := ∃ id, a.frame.id = some id ∧ id.sender = a.sender

abbrev Checked (env : Env C) (past : Set (StoreTask × World)) (a : Arrival) (room : RoomId)
    (who : Key) : Prop :=
  Client.Checked env past a.sender a.frame room who

/-- What has been made sure of about the frame by the time the call stands here. -/
def Cleared (env : Env C) (past : Set (StoreTask × World)) (a : Arrival) : Prop :=
  match a.pc with
  | .start | .done _ => True
  | .absorbing task => task.Sound env
  | .entering room task => task.Sound env ∧ a.Minted ∧ ∃ op, a.frame = .inRoom room op
  | .recheck room => a.Minted ∧ ∃ op, a.frame = .inRoom room op
  | .checkMe room => a.Minted ∧ (∃ op, a.frame = .inRoom room op) ∧
    a.Checked env past room a.sender
  | .record => a.Minted ∧ ∀ room op, a.frame = .inRoom room op →
    a.Checked env past room a.sender ∧ a.Checked env past room env.me

end Arrival

theorem Checked.mono {past past' : Set (StoreTask × World)} {sender : Key} {frame : Frame}
    {room : RoomId} {who : Key} (h : Checked env past sender frame room who)
    (hpast : past ⊆ past') : Checked env past' sender frame room who := by
  obtain ⟨t, w, htaken, hrest⟩ := h
  exact ⟨t, w, hpast htaken, hrest⟩

namespace Arrival

variable {past past' : Set (StoreTask × World)} {P : OpRow → Prop} {a : Arrival}

theorem Cleared.mono (h : a.Cleared env past) (hpast : past ⊆ past') : a.Cleared env past' := by
  obtain ⟨io, reply, sender, frame, pc⟩ := a
  cases pc with
  | checkMe room => exact ⟨h.1, h.2.1, Client.Checked.mono h.2.2 hpast⟩
  | record =>
    exact ⟨h.1, fun room op hframe =>
      ⟨Client.Checked.mono (h.2 room op hframe).1 hpast,
        Client.Checked.mono (h.2 room op hframe).2 hpast⟩⟩
  | _ => exact h

/-- A section of the call that finds the key to be a member has checked that. -/
theorem checked {t : StoreTask} {w : World} (htaken : (t, w) ∈ past) (ha : t.arrival = some a)
    (hsane : w.app.Sane env P) {room : RoomId} {who : Key}
    (hchecks : a.checks env = some (room, who)) (hmember : w.app.isMember room who = true) :
    a.Checked env past room who :=
  ⟨t, w, htaken, a, ha, rfl, rfl, hchecks, hsane.held hmember⟩

theorem wp_start {t : StoreTask} {w : World} (htaken : (t, w) ∈ past) (ha : t.arrival = some a)
    (hsane : w.app.Sane env P) (hpc : a.pc = .start) :
    wp a.start (fun pc app' => app' = w.app ∧ Cleared env past { a with pc := pc })
      (fun _ app' => app' = w.app) w.app := by
  have hthem : ∀ room op, a.frame = .inRoom room op → w.app.isMember room a.sender = true →
      a.Checked env past room a.sender := fun room op hframe hmember =>
    checked htaken ha hsane (by rw [checks, hpc, hframe]) hmember
  obtain ⟨io, reply, sender, frame, pc⟩ := a
  cases frame with
  | hello nickname => exact ⟨rfl, trivial⟩
  | roomUpdated room log => exact ⟨rfl, Task.Sound.start rfl⟩
  | inRoom room op =>
    simp only [start, Frame.id]
    cases hid : op.id with
    | none => exact ⟨rfl, trivial⟩
    | some id =>
      simp only [wp_bind, wp_lift, wp_get, wp_pure]
      refine ⟨fun _ hsender => ⟨trivial, ?_⟩, fun _ _ => trivial⟩
      have hminted : Minted ⟨io, reply, sender, .inRoom room op, pc⟩ :=
        ⟨id, hid, ensure_eq_ok.mp hsender⟩
      split
      · rename_i hmember
        exact ⟨hminted, ⟨op, rfl⟩, hthem room op rfl hmember⟩
      · exact ⟨Task.Sound.start rfl, hminted, op, rfl⟩
  | _ =>
    simp only [start, Frame.id, wp_bind, wp_lift, wp_pure]
    refine ⟨fun _ hsender => ⟨trivial, ⟨_, rfl, ensure_eq_ok.mp hsender⟩, ?_⟩, fun _ _ => trivial⟩
    intro room op hframe
    cases hframe

variable (past) in
theorem wp_entered_cleared {room : RoomId} {task : Task} {app : App} (htask : task.Sound env)
    (hminted : a.Minted) (hframe : ∃ op, a.frame = .inRoom room op) :
    wp (entered room task) (fun pc app' => app' = app ∧ Cleared env past { a with pc := pc })
      (fun _ app' => app' = app) app := by
  unfold entered
  split
  · exact ⟨rfl, hminted, hframe⟩
  · rfl
  · exact ⟨rfl, htask, hminted, hframe⟩

theorem cleared_absorbed {task : Task} (htask : task.Sound env) :
    Cleared env past { a with pc := absorbed task } := by
  unfold absorbed
  split
  · trivial
  · exact htask

theorem moves_record (h : Backed P (a.frame.conversation a.sender) a.frame.unwrapRoom) :
    Moves (App.Adds P) a.record :=
  .bind (adds_record h _) fun _ => moves_pure _

/-- One section of `accept`: the checks come before the record. -/
theorem Cleared.wp_next {t : StoreTask} {w : World} (htaken : (t, w) ∈ past)
    (ha : t.arrival = some a) (hsane : w.app.Sane env P) (h : a.Cleared env past)
    (hbacked : a.pc = .record → Backed P (a.frame.conversation a.sender) a.frame.unwrapRoom) :
    wp (a.next env) (fun pc app' => app'.Sane env P ∧ Cleared env past { a with pc := pc })
      (fun _ app' => app'.Sane env P) w.app := by
  have hcheck : ∀ room who, a.checks env = some (room, who) →
      w.app.isMember room who = true → a.Checked env past room who :=
    fun room who => checked htaken ha hsane
  have hstart := a.wp_start htaken ha hsane
  obtain ⟨io, reply, sender, frame, pc⟩ := a
  cases pc with
  | start =>
    refine wp_mono ?_ ?_ (hstart rfl)
    · rintro pc _ ⟨rfl, hpc⟩
      exact ⟨hsane, hpc⟩
    · rintro err _ rfl
      exact hsane
  | absorbing task =>
    obtain ⟨hsound, hsane'⟩ := Task.Sound.advance h hsane
    exact ⟨hsane', cleared_absorbed hsound⟩
  | entering room task =>
    obtain ⟨hsound, hminted, hframe⟩ := h
    obtain ⟨hsound', hsane'⟩ := hsound.advance hsane
    simp only [next, wp_bind, wp_within]
    refine wp_mono ?_ ?_ (wp_entered_cleared past hsound' hminted hframe)
    · rintro pc _ ⟨rfl, hpc⟩
      exact ⟨hsane', hpc⟩
    · rintro err _ rfl
      exact hsane'
  | recheck room =>
    simp only [next, recheck, wp_bind, wp_get, wp_lift, wp_pure]
    refine ⟨fun _ hmember => ⟨hsane, h.1, h.2, ?_⟩, fun _ _ => hsane⟩
    exact hcheck room sender rfl (ensure_eq_ok.mp hmember)
  | checkMe room =>
    simp only [next, checkMe, wp_bind, wp_get, wp_lift, wp_pure]
    refine ⟨fun _ hmember => ⟨hsane, h.1, ?_⟩, fun _ _ => hsane⟩
    obtain ⟨-, ⟨op, rfl⟩, hthem⟩ := h
    rintro room' op' ⟨⟩
    exact ⟨hthem, hcheck room env.me rfl (ensure_eq_ok.mp hmember)⟩
  | record =>
    simp only [next, wp_bind, wp_pure]
    refine wp_mono (fun _ app' hadds => ⟨hsane.adds hadds, trivial⟩)
      (fun _ app' hadds => hsane.adds hadds) ((moves_record (hbacked rfl)).wp w.app)
  | done result => exact ⟨hsane, trivial⟩

theorem Cleared.advance {t : StoreTask} {w : World} (htaken : (t, w) ∈ past)
    (ha : t.arrival = some a) (hsane : w.app.Sane env P) (h : a.Cleared env past)
    (hbacked : a.pc = .record → Backed P (a.frame.conversation a.sender) a.frame.unwrapRoom) :
    (a.advance env w.app).1.sender = a.sender ∧ (a.advance env w.app).1.frame = a.frame ∧
      (a.advance env w.app).1.Cleared env past ∧ (a.advance env w.app).2.Sane env P := by
  have hnext : wp (a.next env) _ _ w.app := h.wp_next htaken ha hsane hbacked
  unfold Arrival.advance
  rcases wp_cases hnext with ⟨pc, app', hrun, hnext⟩ | ⟨err, app', hrun, hnext⟩
  · rw [hrun]
    exact ⟨rfl, rfl, hnext.2, hnext.1⟩
  · rw [hrun]
    exact ⟨rfl, rfl, trivial, hnext⟩

end Arrival

section

variable {m : Mail} {alphanumeric : Char → Bool} {tasks : List StoreTask} {old : List OpRow}
  {past past' : Set (StoreTask × World)}

theorem Source.mono {row : OpRow} (h : Source env m tasks past row) (hpast : past ⊆ past') :
    Source env m tasks past' row := by
  cases h with
  | issued hissued hsender => exact .issued hissued hsender
  | direct hauth hid hframe hconversation => exact .direct hauth hid hframe hconversation
  | room hauth hid hframe hroom hthem hme =>
    exact .room hauth hid hframe hroom (hthem.mono hpast) (hme.mono hpast)

/-- An op was there before, or there is a source for it. -/
def Traced (env : Env C) (m : Mail) (tasks : List StoreTask) (old : List OpRow)
    (past : Set (StoreTask × World)) (row : OpRow) : Prop :=
  row ∈ old ∨ Source env m tasks past row

theorem Traced.mono (hpast : past ⊆ past') (row : OpRow) (h : Traced env m tasks old past row) :
    Traced env m tasks old past' row :=
  h.imp_right fun hsource => hsource.mono hpast

/-- What `accept` has made sure of is what a source has to be. -/
theorem Arrival.Cleared.backed {a : Arrival} (h : a.Cleared env past) (hpc : a.pc = .record)
    (hauth : Authentic env m tasks a.sender a.frame) :
    Backed (Traced env m tasks old past) (a.frame.conversation a.sender) a.frame.unwrapRoom := by
  obtain ⟨io, reply, sender, frame, pc⟩ := a
  obtain rfl : pc = .record := hpc
  obtain ⟨⟨id, hid, rfl⟩, hin⟩ := h
  intro id' hid'
  rw [Frame.id_unwrapRoom, hid] at hid'
  cases hid'
  right
  cases frame with
  | inRoom room op =>
    obtain ⟨hthem, hme⟩ := hin room op rfl
    exact .room hauth hid rfl rfl hthem hme
  | _ => exact .direct hauth hid rfl rfl

theorem backed_command {queue : List (UiCommand × CommandIo)} {command : UiCommand} {x : CommandIo}
    {peer : Key} {frame : MessageId → Frame} (htask : .dispatch ⟨queue, .next⟩ ∈ tasks)
    (hcommand : (command, x) ∈ queue) (hop : command.op = some (peer, frame)) {id : MessageId}
    (hid : id.sender = env.me) : Backed (Traced env m tasks old past) peer (frame id) := by
  intro id' hid'
  rw [UiCommand.id_of_op hop] at hid'
  cases hid'
  exact .inr (.issued (.dispatch id htask hcommand hop) hid)

theorem backed_header {io : SendIo} {peer : Key} {path : String} {header : Header}
    (htask : .file (.send io peer path .start) ∈ tasks)
    (hfound : sendable io path = .ok (header.name, header.size, header.hash))
    (hid : header.id.sender = env.me) :
    Backed (Traced env m tasks old past) peer header.frame := by
  rintro _ ⟨⟩
  exact .inr (.issued (.send htask hfound) hid)

theorem backed_stream {io : ReceiveIo} {peer : Key} {header : Header}
    (htask : .file (.receive io peer .start) ∈ tasks) (hheader : admissible io peer = .ok header) :
    Backed (Traced env m tasks old past) peer header.frame := by
  obtain ⟨hread, rfl, -⟩ := admissible_eq_ok.mp hheader
  rintro _ ⟨⟩
  exact .inr (.direct (.stream htask hread) rfl rfl rfl)

/-- What is known of a task as it stands. -/
def StoreTask.Sound (env : Env C) (m : Mail) (tasks : List StoreTask) (old : List OpRow)
    (past : Set (StoreTask × World)) : StoreTask → Prop
  | .dispatch d => d.pc.Backed (Traced env m tasks old past) ∧
    ∃ queue, .dispatch ⟨queue, .next⟩ ∈ tasks ∧ ∀ c ∈ d.queue, c ∈ queue
  | .file (.send io peer path pc) => .file (.send io peer path .start) ∈ tasks ∧
    FileTask.Backed (Traced env m tasks old past) (.send io peer path pc)
  | .file (.receive io peer _) => .file (.receive io peer .start) ∈ tasks
  | .file (.once _ _) => False
  | .live a | .mail _ _ _ (.taken a) =>
    Authentic env m tasks a.sender a.frame ∧ a.Cleared env past
  | .mail io reply envelope .sealed => .mail io reply envelope .sealed ∈ tasks
  | .mail _ _ _ (.refused _) => True
  | .room t => t.Sound env

theorem DispatchPc.Backed.mono {P Q : OpRow → Prop} {pc : DispatchPc} (h : pc.Backed P)
    (hPQ : ∀ row, P row → Q row) : pc.Backed Q := by
  cases pc with
  | record x peer frame => exact fun id hid => hPQ _ (h id hid)
  | _ => trivial

theorem FileTask.Backed.mono {P Q : OpRow → Prop} {io : SendIo} {peer : Key} {path : String}
    {pc : SendPc} (h : FileTask.Backed P (.send io peer path pc)) (hPQ : ∀ row, P row → Q row) :
    FileTask.Backed Q (.send io peer path pc) := by
  cases pc with
  | record header => exact fun id hid => hPQ _ (h id hid)
  | _ => trivial

namespace StoreTask

theorem Sound.mono {t : StoreTask} (h : t.Sound env m tasks old past) (hpast : past ⊆ past') :
    t.Sound env m tasks old past' := by
  have htraced : ∀ row, Traced env m tasks old past row → Traced env m tasks old past' row :=
    Traced.mono hpast
  cases t with
  | dispatch d => exact ⟨h.1.mono htraced, h.2⟩
  | file t =>
    cases t with
    | send io peer path pc => exact ⟨h.1, h.2.mono htraced⟩
    | receive io peer pc => exact h
    | once call isDone => exact h
  | live a => exact ⟨h.1, h.2.mono hpast⟩
  | mail io reply envelope pc =>
    cases pc with
    | sealed => exact h
    | taken a => exact ⟨h.1, h.2.mono hpast⟩
    | refused err => trivial
  | room t => exact h

theorem Fresh.sound {t : StoreTask} (h : t.Fresh) (ht : t ∈ tasks) :
    t.Sound env m tasks old past := by
  cases t with
  | dispatch d =>
    obtain ⟨queue, pc⟩ := d
    obtain rfl : pc = .next := h
    exact ⟨trivial, queue, ht, fun _ hc => hc⟩
  | file t =>
    cases t with
    | send io peer path pc =>
      obtain rfl : pc = .start := h
      exact ⟨ht, trivial⟩
    | receive io peer pc =>
      obtain rfl : pc = .start := h
      exact ht
    | once call isDone => exact h.elim
  | live a =>
    refine ⟨.live ht, ?_⟩
    rw [Arrival.Cleared, show a.pc = .start from h]
    trivial
  | mail io reply envelope pc =>
    obtain rfl : pc = .sealed := h
    exact ht
  | room t => exact .start h

end StoreTask

theorem Authentic.opened {io : Io} {reply : Reply} {envelope : Envelope}
    (htask : .mail io reply envelope .sealed ∈ tasks) :
    StoreTask.Sound env m tasks old past
      (.mail io reply envelope (.opened env m io reply envelope)) := by
  unfold MailPc.opened
  split
  · trivial
  · rename_i plaintext sender hopen
    split
    · trivial
    · rename_i frame hframe
      exact ⟨.mail htask hopen hframe, trivial⟩

namespace StoreTask

theorem sound_dispatch {d : Dispatch} {w : World}
    (hsane : w.app.Sane env (Traced env m tasks old past))
    (h : Sound env m tasks old past (.dispatch d)) :
    Sound env m tasks old past (.dispatch (d.advance env w).1) ∧
      (d.advance env w).2.app.Sane env (Traced env m tasks old past) := by
  obtain ⟨hpc, queue, htask, hqueue⟩ := h
  have hbacked := Dispatch.backed_advance env (P := Traced env m tasks old past)
    (d := d) (w := w) fun command x hcommand peer frame hop id hid =>
      backed_command htask (hqueue _ hcommand) hop (hid.trans hsane.minter)
  exact ⟨⟨hbacked.1, queue, htask, fun c hc => hqueue c (hbacked.2 c hc)⟩,
    hsane.adds (Dispatch.moves_advance (Dispatch.adds_next hpc) w)⟩

theorem sound_arrival {t : StoreTask} {a : Arrival} {w : World} (htaken : (t, w) ∈ past)
    (ha : t.arrival = some a) (hsane : w.app.Sane env (Traced env m tasks old past))
    (hauth : Authentic env m tasks a.sender a.frame) (hcleared : a.Cleared env past) :
    (Authentic env m tasks (a.advance env w.app).1.sender (a.advance env w.app).1.frame ∧
      (a.advance env w.app).1.Cleared env past) ∧
      (a.advance env w.app).2.Sane env (Traced env m tasks old past) := by
  obtain ⟨hsender, hframe, hcleared', hsane'⟩ :=
    hcleared.advance htaken ha hsane fun hpc => hcleared.backed hpc hauth
  rw [hsender, hframe]
  exact ⟨⟨hauth, hcleared'⟩, hsane'⟩

theorem sound_file {t : FileTask} {w : World}
    (hsane : w.app.Sane env (Traced env m tasks old past))
    (h : Sound env m tasks old past (.file t)) :
    Sound env m tasks old past (.file (t.advance env alphanumeric w).1) ∧
      (t.advance env alphanumeric w).2.app.Sane env (Traced env m tasks old past) := by
  cases t with
  | send io peer path pc =>
    obtain ⟨htask, hbacked⟩ := h
    obtain ⟨pc', hpc', hbacked'⟩ := FileTask.advance_send env alphanumeric
      (P := Traced env m tasks old past) (w := w) fun header hfound hid =>
        backed_header htask hfound (hid.trans hsane.minter)
    rw [hpc']
    exact ⟨⟨htask, hbacked'⟩, hsane.adds (FileTask.adds_advance hbacked w)⟩
  | receive io peer pc =>
    have htask : .file (.receive io peer .start) ∈ tasks := h
    obtain ⟨pc', hpc'⟩ := FileTask.advance_receive env alphanumeric io peer pc w
    have hbacked : FileTask.Backed (Traced env m tasks old past) (.receive io peer pc) := by
      cases pc with
      | start => exact fun header => backed_stream htask
      | _ => trivial
    rw [hpc']
    exact ⟨htask, hsane.adds (FileTask.adds_advance hbacked w)⟩
  | once call isDone => exact h.elim

/-- Whatever a task does next, it stays sound and keeps the client sane. -/
theorem Sound.advance {t : StoreTask} {w : World} (htaken : (t, w) ∈ past)
    (hsane : w.app.Sane env (Traced env m tasks old past)) (h : t.Sound env m tasks old past) :
    (t.advance env m alphanumeric w).2.app.Sane env (Traced env m tasks old past) ∧
      (t.advance env m alphanumeric w).1.Sound env m tasks old past := by
  cases t with
  | dispatch d => exact (sound_dispatch hsane h).symm
  | file t => exact (sound_file hsane h).symm
  | live a => exact (sound_arrival htaken rfl hsane h.1 h.2).symm
  | mail io reply envelope pc =>
    cases pc with
    | sealed => exact ⟨hsane, Authentic.opened h⟩
    | taken a => exact (sound_arrival htaken rfl hsane h.1 h.2).symm
    | refused err => exact ⟨hsane, trivial⟩
  | room t => exact (Task.Sound.advance h hsane).symm

end StoreTask

end

theorem Source.sender_eq {m : Mail} {tasks : List StoreTask} {past : Set (StoreTask × World)}
    {row : OpRow} (h : Source env m tasks past row)
    (hpeer : ∀ v : VerifiedLog C, v.room.id ≠ row.2.1) :
    row.1.sender = row.2.1 ∨ row.1.sender = env.me ∧ Issued tasks row := by
  cases h with
  | issued hissued hsender => exact .inr ⟨hsender, hissued⟩
  | direct hauth hid hframe hconversation => exact .inl hconversation.symm
  | room hauth hid hframe hroom hthem hme =>
    obtain ⟨t, w, -, a, -, -, -, -, v, hv, -⟩ := hthem
    exact absurd hv (hpeer v)

/-- Whatever the user, the peers and the hub do and however the tasks take their turns: every op
that comes into the store was issued here under the own key; or it is under the key that
authenticates it, in the conversation with that key, or in a room that both were found to be in
when the frame was checked.  No other peer gets into the conversation with a key that is not the
id of a room. -/
theorem every_op_has_a_source (env : Env C) (m : Mail) (alphanumeric : Char → Bool) {app : App}
    {b : Book C} (hmirrors : Mirrors app b) (hminter : app.store.counter.sender = env.me)
    {tasks : List StoreTask} (hfresh : ∀ t ∈ tasks, t.Fresh) (schedule : List Nat) :
    let start : Pool World StoreTask := ⟨World.start app, tasks⟩
    let past := start.Taken (StoreTask.advance env m alphanumeric) schedule
    let final := (run (Pool.step (StoreTask.advance env m alphanumeric)) start schedule).shared
    ∀ row ∈ final.app.store.ops.rows, row ∈ app.store.ops.rows ∨
      Source env m tasks past row ∧ ((∀ v : VerifiedLog C, v.room.id ≠ row.2.1) →
        row.1.sender = row.2.1 ∨ row.1.sender = env.me ∧ Issued tasks row) := by
  intro start past final row hrow
  have hstart : start.Holds
      (fun w => w.app.Sane env (Traced env m tasks app.store.ops.rows ∅))
      (fun t _ => t.Sound env m tasks app.store.ops.rows ∅) := by
    refine ⟨⟨hmirrors.filed, fun id room hroom => ?_, hminter, fun row hrow => .inl hrow⟩,
      fun i t ht => (hfresh t (List.mem_of_getElem? ht)).sound (List.mem_of_getElem? ht)⟩
    obtain ⟨v, hv, rfl⟩ := Option.map_eq_some_iff.mp ((hmirrors.shown id).symm.trans hroom)
    exact ⟨v, rfl, b.filed id v hv⟩
  have hrun := Pool.Holds.run_taken (StoreTask.advance env m alphanumeric)
    (I := fun past (w : World) => w.app.Sane env (Traced env m tasks app.store.ops.rows past))
    (L := fun past (t : StoreTask) _ => t.Sound env m tasks app.store.ops.rows past)
    (fun _ _ _ hpast hsane => hsane.mono (Traced.mono hpast))
    (fun _ _ _ _ hpast hsound => hsound.mono hpast)
    (fun _ _ _ htaken hsane hsound => hsound.advance htaken hsane)
    (fun _ _ _ _ _ hsound => hsound) hstart schedule
  exact (hrun.shared.rows row hrow).imp_right fun hsource => ⟨hsource, hsource.sender_eq⟩

namespace Sample

open Core.Sample

/-- 2 says something in the kitchen, 3 something to 1 alone, and 1 answers. -/
def dinner : List StoreTask :=
  [.live ⟨.ok, none, key 2, .inRoom kitchenRoom.id (.chat ⟨key 2, 1, 5⟩ "dinner?" none), .start⟩,
    .live ⟨.ok, none, key 3, .chat ⟨key 3, 1, 6⟩ "not hungry" none, .start⟩,
    .dispatch ⟨[(.send (key 3) "too bad" none, ⟨⟨.ok, .ok, 0⟩, .ok, (none, none), 7⟩)], .next⟩]

end Sample

open Core.Sample Sample in
theorem every_op_has_a_source_dinner :
    let start : Pool World StoreTask :=
      ⟨World.start (cameUp 1 false kitchenRoom.id kitchen), dinner⟩
    let past := start.Taken (StoreTask.advance (client 1 false) mail Char.isAlphanum)
      [0, 1, 2, 0, 1, 0, 2]
    let final := (run (Pool.step (StoreTask.advance (client 1 false) mail Char.isAlphanum)) start
      [0, 1, 2, 0, 1, 0, 2]).shared
    final.app.store.ops.rows.map (fun row => (row.1.sender, row.2.1)) =
      [(key 3, key 3), (key 2, kitchenRoom.id), (key 1, key 3)] ∧
    ∀ row ∈ final.app.store.ops.rows,
      row ∈ (cameUp 1 false kitchenRoom.id kitchen).store.ops.rows ∨
        Source (client 1 false) mail dinner past row ∧
          ((∀ v : VerifiedLog crypto, v.room.id ≠ row.2.1) →
            row.1.sender = row.2.1 ∨ row.1.sender = (client 1 false).me ∧ Issued dinner row) := by
  have hmirrors : Mirrors (cameUp 1 false kitchenRoom.id kitchen) (bookOf crypto _) :=
    mirrors_boot (bookOf_held (storeWith_verifies (key 1) verifyLog_kitchen rfl))
      (cameUp_run (by decide +kernel))
  have hminter : (cameUp 1 false kitchenRoom.id kitchen).store.counter.sender =
      (client 1 false).me := by
    decide +kernel
  have hfresh : ∀ t ∈ dinner, t.Fresh := by simp [dinner, StoreTask.Fresh]
  exact ⟨by decide +kernel, every_op_has_a_source (client 1 false) mail Char.isAlphanum hmirrors
    hminter hfresh [0, 1, 2, 0, 1, 0, 2]⟩

end Wicara.Client
