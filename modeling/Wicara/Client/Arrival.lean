import Wicara.Client.RoomTasks

namespace Wicara.Client

open Wicara.Core Lib Lib.Fallible Lib.Run Lib.Interleaving

/-- Where a call of `accept` stands; each of these is followed by one section. -/
inductive ArrivalPc
  | start
  | absorbing (task : Task)
  | entering (room : RoomId) (task : Task)
  | recheck (room : RoomId)
  | checkMe (room : RoomId)
  | record
  | done (result : Except String (Option Key))

/-- A frame that a session or the mailbox has handed to `accept`. -/
structure Arrival where
  io : Io
  reply : Reply
  sender : Key
  frame : Frame
  pc : ArrivalPc

variable {C : Crypto} (env : Env C)

namespace Arrival

/-- `absorb_room` of the log that the frame carries, or `fetch_room`. -/
def task (a : Arrival) (room : RoomId) (log : List RoomEntry) : Task :=
  ⟨.absorb room log, a.io, a.reply, .start⟩

def recheck (a : Arrival) (room : RoomId) : Act PUnit := do
  let app ← get
  lift (ensure (app.isMember room a.sender = true)
    "op for a room the chain does not put that sender in")

def checkMe (room : RoomId) : Act PUnit := do
  let app ← get
  lift (ensure (app.isMember room env.me = true) "op for a room this endpoint is not in")

def record (a : Arrival) : Act (Option Key) := do
  let conversation := a.frame.conversation a.sender
  let fresh ← inStore (Store.record a.io.record conversation a.frame.unwrapRoom)
  pure (if fresh then some conversation else none)

/-- The first section: what can be told from the frame, and whether the room is known. -/
def start (a : Arrival) : Act ArrivalPc :=
  match a.frame with
  | .roomUpdated room log => pure (.absorbing (a.task room log))
  | frame =>
    match frame.id with
    | none => pure (.done (.ok none))
    | some id => do
      lift (ensure (id.sender = a.sender) "op is minted under a key other than the sender's")
      match frame with
      | .inRoom room _ => do
        let app ← get
        pure (if app.isMember room a.sender = true then .checkMe room
          else .entering room (a.task room []))
      | _ => pure .record

/-- One section of a call that is made on the way. -/
def within (task : Task) : Act Task := fun app =>
  .ok (task.advance env app).1 (task.advance env app).2

/-- An error of `absorb_room` is only logged. -/
def absorbed (task : Task) : ArrivalPc :=
  match task.pc with
  | .done _ _ => .done (.ok none)
  | _ => .absorbing task

/-- An error of `fetch_room` is one of `accept`. -/
def entered (room : RoomId) (task : Task) : Act ArrivalPc :=
  match task.pc with
  | .done _ (.ok _) => pure (.recheck room)
  | .done _ (.error err) => throw err
  | _ => pure (.entering room task)

/-- The next section of the call. -/
def next (a : Arrival) : Act ArrivalPc :=
  match a.pc with
  | .start => a.start
  | .absorbing task => do
    let task ← within env task
    pure (absorbed task)
  | .entering room task => do
    let task ← within env task
    entered room task
  | .recheck room => do
    a.recheck room
    pure (.checkMe room)
  | .checkMe room => do
    checkMe env room
    pure .record
  | .record => do
    let conversation ← a.record
    pure (.done (.ok conversation))
  | .done result => pure (.done result)

def advance (a : Arrival) (app : App) : Arrival × App :=
  match (a.next env).run app with
  | .ok pc app => ({ a with pc := pc }, app)
  | .error err app => ({ a with pc := .done (.error err) }, app)

/-- The part of the call that is still to come. -/
def remaining (a : Arrival) : Act (Option Key) :=
  match a.pc with
  | .start => accept env a.io a.reply a.sender a.frame
  | .absorbing task => do
    ignore (task.remaining env)
    pure none
  | .entering room task => do
    task.remaining env
    a.recheck room
    checkMe env room
    a.record
  | .recheck room => do
    a.recheck room
    checkMe env room
    a.record
  | .checkMe room => do
    checkMe env room
    a.record
  | .record => a.record
  | .done result => lift result

end Arrival

def ArrivalPc.left : ArrivalPc → Nat
  | .start => 11
  | .absorbing task | .entering _ task => task.pc.left + 4
  | .recheck _ => 3
  | .checkMe _ => 2
  | .record => 1
  | .done _ => 0

variable {env}

namespace Arrival

theorem remaining_task (task : Task) :
    task.remaining env = within env task >>= fun task => task.remaining env :=
  funext fun app => task.run_remaining app

theorem ignore_remaining_task (task : Task) :
    ignore (task.remaining env) = within env task >>= fun task => ignore (task.remaining env) := by
  funext app
  change ignore (task.remaining env) app = ignore _ _
  unfold ignore
  rw [task.run_remaining]

/-- A log that is through has nothing left but its result, which nobody looks at. -/
theorem remaining_absorbed (io : Io) (reply : Reply) (sender : Key) (frame : Frame)
    (task : Task) : remaining env ⟨io, reply, sender, frame, absorbed task⟩ =
      ignore (task.remaining env) >>= fun _ => pure none := by
  unfold absorbed
  split
  · rename_i saved result hpc
    rw [Task.remaining, hpc]
    cases result <;> rfl
  · rfl

theorem remaining_entered (io : Io) (reply : Reply) (sender : Key) (frame : Frame)
    (room : RoomId) (task : Task) :
    (entered room task >>= fun pc => remaining env ⟨io, reply, sender, frame, pc⟩) =
      task.remaining env >>= fun _ =>
        remaining env ⟨io, reply, sender, frame, .recheck room⟩ := by
  unfold entered
  split
  · rename_i saved u hpc
    rw [Task.remaining, hpc]
    rfl
  · rename_i saved err hpc
    rw [Task.remaining, hpc]
    rfl
  · rfl

theorem remaining_start (a : Arrival) (hpc : a.pc = .start) :
    a.remaining env = a.start >>= fun pc => remaining env { a with pc := pc } := by
  obtain ⟨io, reply, sender, frame, pc⟩ := a
  obtain rfl : pc = .start := hpc
  cases frame with
  | hello nickname => rfl
  | roomUpdated room log => simp [remaining, accept, start, task, Task.remaining, Task.sequential]
  | inRoom room op =>
    simp only [remaining, accept, start, Frame.id]
    cases op.id with
    | none => rfl
    | some id =>
      simp only [enterRoom, bind_assoc, pure_bind]
      congr! 4 with _ app
      split <;> simp [task, Task.remaining, Task.sequential, absorbRoom, recheck,
        checkMe, record]
  | _ => simp [remaining, accept, start, record, Frame.id]

/-- One section taken off the front of what is still to come. -/
theorem remaining_eq (a : Arrival) :
    a.remaining env = a.next env >>= fun pc => remaining env { a with pc := pc } := by
  obtain ⟨io, reply, sender, frame, pc⟩ := a
  cases pc with
  | start => exact remaining_start _ rfl
  | absorbing task =>
    have htask : remaining env ⟨io, reply, sender, frame, .absorbing task⟩ =
        ignore (task.remaining env) >>= fun _ => pure none := rfl
    simp only [next, bind_assoc, pure_bind, remaining_absorbed]
    rw [htask, ignore_remaining_task, bind_assoc]
  | entering room task =>
    have htask : remaining env ⟨io, reply, sender, frame, .entering room task⟩ =
        task.remaining env >>= fun _ =>
          remaining env ⟨io, reply, sender, frame, .recheck room⟩ := rfl
    simp only [next, bind_assoc, remaining_entered]
    rw [htask, remaining_task, bind_assoc]
  | recheck room => simp [remaining, next, recheck, record]
  | checkMe room => simp [remaining, next, record]
  | record => simp [remaining, next, lift]
  | done result => simp [remaining, next]

/-- A section changes what is left of the call by what it does and by nothing else. -/
theorem run_remaining (a : Arrival) (app : App) :
    (a.remaining env).run app =
      ((a.advance env app).1.remaining env).run (a.advance env app).2 := by
  rw [remaining_eq, EStateM.run_bind, advance]
  cases (a.next env).run app <;> rfl

@[simp] theorem wp_within {ok : Task → App → Prop} {err : String → App → Prop} {task : Task}
    {app : App} :
    wp (within env task) ok err app ↔ ok (task.advance env app).1 (task.advance env app).2 :=
  Iff.rfl

theorem wp_start_left (a : Arrival) (app : App) :
    wp a.start (fun pc _ => pc.left ≤ 10) (fun _ _ => True) app := by
  obtain ⟨io, reply, sender, frame, pc⟩ := a
  cases frame with
  | hello nickname => exact Nat.zero_le _
  | roomUpdated room log => exact le_refl 10
  | inRoom room op =>
    simp only [start, Frame.id]
    cases op.id with
    | none => exact Nat.zero_le _
    | some id =>
      simp only [wp_bind, wp_lift, wp_get, wp_pure]
      refine ⟨fun _ _ => ?_, fun _ _ => trivial⟩
      split <;> simp [ArrivalPc.left, task, Pc.left]
  | _ =>
    simp only [start, Frame.id, wp_bind, wp_lift, wp_pure]
    exact ⟨fun _ _ => by simp [ArrivalPc.left], fun _ _ => trivial⟩

theorem left_pos {pc : Pc} (h : ∀ saved result, pc ≠ .done saved result) : 0 < pc.left := by
  cases pc with
  | done saved result => exact absurd rfl (h saved result)
  | _ => simp [Pc.left]

theorem left_absorbed (task : Task) :
    (absorbed task).left = 0 ∨ 0 < task.pc.left ∧ (absorbed task).left = task.pc.left + 4 := by
  unfold absorbed
  split
  · exact .inl rfl
  · rename_i hpc
    exact .inr ⟨left_pos hpc, rfl⟩

theorem wp_entered_left (room : RoomId) (task : Task) (app : App) :
    wp (entered room task)
      (fun pc _ => pc.left = 3 ∨ 0 < task.pc.left ∧ pc.left = task.pc.left + 4)
      (fun _ _ => True) app := by
  unfold entered
  split
  · exact .inl rfl
  · trivial
  · rename_i hok herr
    refine .inr ⟨left_pos fun saved result hpc => ?_, rfl⟩
    cases result with
    | ok u => exact hok saved u hpc
    | error err => exact herr saved err hpc

theorem wp_next_left (a : Arrival) (app : App) :
    wp (a.next env) (fun pc _ => pc.left ≤ a.pc.left - 1) (fun _ _ => True) app := by
  obtain ⟨io, reply, sender, frame, pc⟩ := a
  cases pc with
  | start => exact wp_start_left _ app
  | absorbing task =>
    have htask := (task.section_advance env app).left_le
    have hleft : (ArrivalPc.absorbing task).left = task.pc.left + 4 := rfl
    simp only [next, wp_bind, wp_within, wp_pure]
    rcases left_absorbed (task.advance env app).1 with h | ⟨hpos, h⟩ <;> omega
  | entering room task =>
    have htask := (task.section_advance env app).left_le
    have hleft : (ArrivalPc.entering room task).left = task.pc.left + 4 := rfl
    simp only [next, wp_bind, wp_within]
    refine wp_mono (fun pc _ hpc => ?_) (fun _ _ h => h) (wp_entered_left room _ _)
    rcases hpc with hpc | ⟨hpos, hpc⟩ <;> omega
  | recheck room =>
    simp only [next, recheck, wp_bind, wp_get, wp_lift, wp_pure]
    exact ⟨fun _ _ => le_refl 2, fun _ _ => trivial⟩
  | checkMe room =>
    simp only [next, checkMe, wp_bind, wp_get, wp_lift, wp_pure]
    exact ⟨fun _ _ => le_refl 1, fun _ _ => trivial⟩
  | record =>
    simp only [next, wp_bind, wp_pure]
    exact wp_of_forall (fun _ _ => le_refl 0) fun _ _ => trivial
  | done result => exact le_refl 0

theorem left_advance (a : Arrival) (app : App) :
    (a.advance env app).1.pc.left ≤ a.pc.left - 1 := by
  have hnext : wp (a.next env) _ _ app := a.wp_next_left app
  unfold advance
  rcases wp_cases hnext with ⟨pc, app', hrun, hnext⟩ | ⟨err, app', hrun, -⟩
  · rw [hrun]
    exact hnext
  · rw [hrun]
    exact Nat.zero_le _

/-- Run on its own, a call is through after so many sections, and has done what `accept` does
in one go. -/
theorem alone_eq_accept {a : Arrival} (ha : a.pc = .start) (app : App) :
    ∃ result, (alone (advance env) 11 a app).1.pc = .done result ∧
      (accept env a.io a.reply a.sender a.frame).run app =
        (lift result : Act (Option Key)).run (alone (advance env) 11 a app).2 := by
  have hleft : (alone (advance env) 11 a app).1.pc.left = 0 :=
    alone_finishes (fun a : Arrival => a.pc.left) (fun a app => a.left_advance app)
      (by rw [ha, ArrivalPc.left]) app
  have hrun := alone_meaning (fun a app => (a.remaining env).run app)
    (fun a app => a.run_remaining app) 11 a app
  have hstart : a.remaining env = accept env a.io a.reply a.sender a.frame := by
    rw [remaining, ha]
  cases hpc : (alone (advance env) 11 a app).1.pc with
  | done result =>
    refine ⟨result, rfl, ?_⟩
    rw [← hstart, hrun, remaining, hpc]
  | _ => simp [hpc, ArrivalPc.left] at hleft

end Arrival

/-- Nothing has been put on the wire and no event taken back. -/
structure App.Beside (app app' : App) : Prop where
  live : app'.live = app.live
  outbound : app'.outbound = app.outbound
  events : app.events <+: app'.events

theorem App.Beside.refl (app : App) : app.Beside app := ⟨rfl, rfl, List.prefix_refl _⟩

theorem App.Beside.trans {a b c : App} (hab : a.Beside b) (hbc : b.Beside c) : a.Beside c where
  live := hbc.live.trans hab.live
  outbound := hbc.outbound.trans hab.outbound
  events := hab.events.trans hbc.events

/-- What works on the store or shows something keeps out of the way of the wire. -/
theorem wp_inStore_beside {m : EStateM String Store α} (app : App) :
    wp (inStore m) (fun _ => app.Beside) (fun _ => app.Beside) app := by
  rw [inStore, wp_zoom]
  exact wp_of_forall (fun _ _ => ⟨rfl, rfl, List.prefix_refl _⟩)
    fun _ _ => ⟨rfl, rfl, List.prefix_refl _⟩

theorem App.beside_emit (app : App) (event : UiEvent) :
    app.Beside { app with events := app.events ++ [event] } :=
  ⟨rfl, rfl, List.prefix_append _ _⟩

theorem wp_sendLog_beside (io : Io) (peer : Key) (app : App) :
    wp (sendLog io peer) (fun _ => app.Beside) (fun _ => app.Beside) app := by
  simp only [sendLog, wp_bind, wp_get, wp_lift, wp_emit]
  exact ⟨fun _ _ => app.beside_emit _, fun _ _ => .refl app⟩

/-- A call of `absorb_room`, which tells nobody. -/
structure Task.Silent (t : Task) : Prop where
  call : ∃ id log, t.call = .absorb id log
  rest : ∀ w, t.pc.writing = some w → ∀ notify, w.rest ≠ .tell notify

theorem Task.Silent.wp_next {t : Task} (h : t.Silent) (app : App) :
    wp (t.next env) (fun pc app' => app.Beside app' ∧ Task.Silent { t with pc := pc })
      (fun _ => app.Beside) app := by
  obtain ⟨call, io, reply, pc⟩ := t
  obtain ⟨⟨id, log, hcall⟩, hrest⟩ := h
  obtain rfl : call = _ := hcall
  have hto : ∀ {pc : Pc}, (∀ w, pc.writing = some w → ∀ notify, w.rest ≠ .tell notify) →
      Task.Silent ⟨.absorb id log, io, reply, pc⟩ := fun h => ⟨⟨id, log, rfl⟩, h⟩
  have hself := App.Beside.refl app
  cases pc with
  | start =>
    simp only [next, wp_ite, wp_bind, wp_lift, wp_get, wp_pure]
    refine ⟨fun _ => ⟨fun _ _ => ⟨fun fetched _ => ⟨hself, hto ?_⟩, fun _ _ => hself⟩,
      fun _ _ => hself⟩, fun _ => ⟨fun room _ => ⟨fun _ _ => ⟨hself, hto ?_⟩,
      fun _ _ => hself⟩, fun _ _ => hself⟩⟩
    · rintro _ ⟨⟩ notify h
      cases h
    · rintro _ ⟨⟩ notify h
      cases h
  | compare w =>
    simp only [next, wp_bind, wp_get, wp_pure]
    refine ⟨hself, hto ?_⟩
    split
    · intro w h
      cases h
    · exact hrest
  | save w =>
    simp only [next, wp_bind, wp_pure]
    exact wp_mono (fun _ _ hbeside => ⟨hbeside, hto hrest⟩) (fun _ _ hbeside => hbeside)
      (wp_inStore_beside app)
  | insert w =>
    simp only [next, insertRoom, wp_bind, wp_modify, wp_emit, wp_pure]
    exact ⟨⟨rfl, rfl, List.prefix_append _ _⟩, hto hrest⟩
  | refold w =>
    simp only [next, wp_bind, wp_pure]
    exact wp_mono (fun _ _ hbeside => ⟨hbeside, hto hrest⟩) (fun _ _ hbeside => hbeside)
      (wp_sendLog_beside io w.room.id app)
  | finish w =>
    obtain ⟨wid, room, entries, rest⟩ := w
    simp only [next, wp_bind, wp_pure]
    cases rest with
    | tell notify => exact absurd rfl (hrest _ rfl notify)
    | note => exact ⟨app.beside_emit _, hto hrest⟩
    | status => exact ⟨app.beside_emit _, hto hrest⟩
  | done saved result => exact ⟨hself, hto hrest⟩

theorem Task.Silent.advance {t : Task} (h : t.Silent) (app : App) :
    app.Beside (t.advance env app).2 ∧ (t.advance env app).1.Silent := by
  have hnext : wp (t.next env) _ _ app := h.wp_next app
  unfold Task.advance
  rcases wp_cases hnext with ⟨pc, app', hrun, hnext⟩ | ⟨err, app', hrun, hnext⟩
  · rw [hrun]
    exact hnext
  · rw [hrun]
    refine ⟨hnext, h.call, fun w hw => h.rest w ?_⟩
    exact Pc.writing_of_saved hw

/-- The call that is being made on the way, if there is one. -/
def ArrivalPc.task : ArrivalPc → Option Task
  | .absorbing task | .entering _ task => some task
  | _ => none

namespace Arrival

def Silent (a : Arrival) : Prop := ∀ task, a.pc.task = some task → task.Silent

theorem silent_of_task_none {a : Arrival} (h : a.pc.task = none) : a.Silent := by
  intro task htask
  rw [h] at htask
  cases htask

theorem silent_task (a : Arrival) (room : RoomId) (log : List RoomEntry) :
    (a.task room log).Silent :=
  ⟨⟨room, log, rfl⟩, fun _ h => by cases h⟩

theorem task_absorbed {task u : Task} (h : (absorbed task).task = some u) : u = task := by
  unfold absorbed at h
  split at h
  · cases h
  · exact (Option.some.inj h).symm

theorem wp_entered (room : RoomId) (task : Task) (app : App) :
    wp (entered room task) (fun pc app' => app' = app ∧ ∀ u, pc.task = some u → u = task)
      (fun _ app' => app' = app) app := by
  unfold entered
  split
  · refine ⟨rfl, fun u hu => ?_⟩
    cases hu
  · exact rfl
  · refine ⟨rfl, fun u hu => ?_⟩
    cases hu
    rfl

theorem wp_record_beside (a : Arrival) (app : App) :
    wp a.record (fun _ => app.Beside) (fun _ => app.Beside) app := by
  simp only [record, wp_bind, wp_pure]
  exact wp_inStore_beside app

theorem wp_start_beside (a : Arrival) (app : App) :
    wp a.start (fun pc app' => app' = app ∧ ∀ u, pc.task = some u → u.Silent)
      (fun _ app' => app' = app) app := by
  obtain ⟨io, reply, sender, frame, pc⟩ := a
  have hnone : ∀ {pc : ArrivalPc}, pc.task = none → ∀ u, pc.task = some u → u.Silent := by
    intro pc hpc u hu
    rw [hpc] at hu
    cases hu
  cases frame with
  | hello nickname => exact ⟨rfl, hnone rfl⟩
  | roomUpdated room log =>
    refine ⟨rfl, fun u hu => ?_⟩
    cases hu
    exact silent_task _ room log
  | inRoom room op =>
    simp only [start, Frame.id]
    cases op.id with
    | none => exact ⟨rfl, hnone rfl⟩
    | some id =>
      simp only [wp_bind, wp_lift, wp_get, wp_pure]
      refine ⟨fun _ _ => ⟨trivial, ?_⟩, fun _ _ => trivial⟩
      split
      · exact hnone rfl
      · rintro u ⟨⟩
        exact silent_task _ room []
  | _ =>
    simp only [start, Frame.id, wp_bind, wp_lift, wp_pure]
    exact ⟨fun _ _ => ⟨trivial, hnone rfl⟩, fun _ _ => trivial⟩

theorem Silent.wp_next {a : Arrival} (h : a.Silent) (app : App) :
    wp (a.next env) (fun pc app' => app.Beside app' ∧ Silent { a with pc := pc })
      (fun _ => app.Beside) app := by
  obtain ⟨io, reply, sender, frame, pc⟩ := a
  cases pc with
  | start =>
    simp only [next]
    refine wp_mono ?_ ?_ (wp_start_beside _ app)
    · rintro pc _ ⟨rfl, hpc⟩
      exact ⟨.refl _, hpc⟩
    · rintro err _ rfl
      exact .refl _
  | absorbing task =>
    obtain ⟨hbeside, hsilent⟩ : app.Beside (task.advance env app).2 ∧
        (task.advance env app).1.Silent := (h task rfl).advance app
    simp only [next, wp_bind, wp_within, wp_pure]
    refine ⟨hbeside, fun u hu => ?_⟩
    rw [task_absorbed hu]
    exact hsilent
  | entering room task =>
    obtain ⟨hbeside, hsilent⟩ : app.Beside (task.advance env app).2 ∧
        (task.advance env app).1.Silent := (h task rfl).advance app
    simp only [next, wp_bind, wp_within]
    refine wp_mono ?_ ?_ (wp_entered room (task.advance env app).1 (task.advance env app).2)
    · rintro pc _ ⟨rfl, hpc⟩
      refine ⟨hbeside, fun u hu => ?_⟩
      rw [hpc u hu]
      exact hsilent
    · rintro err _ rfl
      exact hbeside
  | recheck room =>
    simp only [next, recheck, wp_bind, wp_get, wp_lift, wp_pure]
    exact ⟨fun _ _ => ⟨.refl app, silent_of_task_none rfl⟩, fun _ _ => .refl app⟩
  | checkMe room =>
    simp only [next, checkMe, wp_bind, wp_get, wp_lift, wp_pure]
    exact ⟨fun _ _ => ⟨.refl app, silent_of_task_none rfl⟩, fun _ _ => .refl app⟩
  | record =>
    simp only [next, wp_bind, wp_pure]
    exact wp_mono (fun _ _ hbeside => ⟨hbeside, silent_of_task_none rfl⟩)
      (fun _ _ hbeside => hbeside)
      (wp_record_beside _ app)
  | done result =>
    simp only [next, wp_pure]
    exact ⟨.refl app, silent_of_task_none rfl⟩

/-- Taking in a frame leaves the wire alone. -/
theorem Silent.advance {a : Arrival} (h : a.Silent) (app : App) :
    app.Beside (a.advance env app).2 ∧ (a.advance env app).1.Silent := by
  have hnext : wp (a.next env) _ _ app := h.wp_next app
  unfold Arrival.advance
  rcases wp_cases hnext with ⟨pc, app', hrun, hnext⟩ | ⟨err, app', hrun, hnext⟩
  · rw [hrun]
    exact hnext
  · rw [hrun]
    exact ⟨hnext, silent_of_task_none rfl⟩

end Arrival

end Wicara.Client
