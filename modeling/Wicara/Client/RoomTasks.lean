import Wicara.Client.Append
import Wicara.Lib.Interleaving

namespace Wicara.Client

open Wicara.Core Lib Lib.Fallible Lib.Run Lib.Interleaving

/-- What is left of a call once its log is saved and shown. -/
inductive Rest
  | tell (notify : Finset Key)
  | note
  | status
  deriving DecidableEq

/-- A verified log on its way into the store and the memory. -/
structure Writing where
  id : RoomId
  room : Room
  entries : List RoomEntry
  rest : Rest
  deriving DecidableEq

/-- Where a task stands: each of these is followed by one section, which holds one lock at
most.  A task that is through still says what it has saved. -/
inductive Pc
  | start
  | compare (w : Writing)
  | save (w : Writing)
  | insert (w : Writing)
  | refold (w : Writing)
  | finish (w : Writing)
  | done (saved : Option Writing) (result : Except String PUnit)
  deriving DecidableEq

/-- The calls that are spawned. -/
inductive Call
  | append (now : UInt64) (room : Option RoomId) (op : RoomOp)
  | absorb (id : RoomId) (log : List RoomEntry)
  deriving DecidableEq

structure Task where
  call : Call
  io : Io
  reply : Reply
  pc : Pc

variable {C : Crypto} (env : Env C)

/-- The call, run from start to end with nothing in between. -/
def Task.sequential (t : Task) : Act PUnit :=
  match t.call with
  | .append now room op => append env t.io t.reply now room op
  | .absorb id log => absorbRoom env t.io id log t.reply

/-- What follows `show_room`. -/
def Writing.finish (w : Writing) (reply : Reply) : Act PUnit :=
  match w.rest with
  | .tell notify => do
    if env.hub then lift (Hub.putRoom reply) else pure .unit
    notifyEach env w.id w.entries (inOrder notify)
  | .note => note w.id (if env.me ∈ w.room.members then "membership changed"
      else "you are no longer a member of this room")
  | .status => status (if env.me ∈ w.room.members then s!"#{w.room.name} membership updated"
      else s!"#{w.room.name}: you are no longer a member")

/-- The next section of a task: what it does before it lets go of the lock. -/
def Task.next (t : Task) : Act Pc :=
  match t.pc with
  | .start =>
    match t.call with
    | .append now room op => do
      let entries ← knownLog t.io room
      let ext ← lift (extend env now op entries)
      pure (.save ⟨ext.verified.id, ext.verified, ext.entries, .tell ext.notify⟩)
    | .absorb id log =>
      if log = [] then do
        lift (ensure (env.hub = true) "no hub configured")
        let (room, entries) ← lift (Hub.room env id t.reply)
        pure (.save ⟨id, room, entries, .status⟩)
      else do
        let room ← lift (judge C id log)
        let app ← get
        lift (ensure ((app.rooms.get id).isSome = true ∨ env.me ∈ room.members)
          "a log for a room this endpoint is not in")
        pure (.compare ⟨id, room, log, .note⟩)
  | .compare w => do
    let app ← get
    pure (if w.room.length ≤ app.heldLength w.id then .done none (.ok .unit) else .save w)
  | .save w => do
    inStore (Store.saveRoom t.io.saveRoom w.id w.entries)
    pure (.insert w)
  | .insert w => do
    insertRoom env w.room
    pure (.refold w)
  | .refold w => do
    sendLog t.io w.room.id
    pure (.finish w)
  | .finish w => do
    w.finish env t.reply
    pure (.done (some w) (.ok .unit))
  | .done saved result => pure (.done saved result)

def Pc.saving : Pc → Option Writing
  | .save w => some w
  | _ => none

/-- What a task has saved and not shown. -/
def Pc.showing : Pc → Option Writing
  | .insert w => some w
  | _ => none

/-- What a task has saved so far. -/
def Pc.saved : Pc → Option Writing
  | .insert w | .refold w | .finish w => some w
  | .done saved _ => saved
  | _ => none

/-- What a task has in its hands. -/
def Pc.writing : Pc → Option Writing
  | .compare w | .save w => some w
  | pc => pc.saved

def Task.advance (t : Task) (app : App) : Task × App :=
  match (t.next env).run app with
  | .ok pc app => ({ t with pc := pc }, app)
  | .error err app => ({ t with pc := .done t.pc.saved (.error err) }, app)

/-- The part of the call that a task has before it. -/
def Task.remaining (t : Task) : Act PUnit :=
  match t.pc with
  | .start => t.sequential env
  | .compare w => do
    let app ← get
    if w.room.length ≤ app.heldLength w.id then
      pure .unit
    else do
      inStore (Store.saveRoom t.io.saveRoom w.id w.entries)
      showRoom env t.io w.room
      w.finish env t.reply
  | .save w => do
    inStore (Store.saveRoom t.io.saveRoom w.id w.entries)
    showRoom env t.io w.room
    w.finish env t.reply
  | .insert w => do
    showRoom env t.io w.room
    w.finish env t.reply
  | .refold w => do
    sendLog t.io w.room.id
    w.finish env t.reply
  | .finish w => w.finish env t.reply
  | .done _ result => lift result

/-- How many sections a task has before it, at most. -/
def Pc.left : Pc → Nat
  | .start => 6
  | .compare _ => 5
  | .save _ => 4
  | .insert _ => 3
  | .refold _ => 2
  | .finish _ => 1
  | .done _ _ => 0

variable {env}

/-- One section taken off the front of what a task has before it. -/
theorem Task.remaining_eq (t : Task) :
    t.remaining env = t.next env >>= fun pc => Task.remaining env { t with pc := pc } := by
  obtain ⟨call, io, reply, pc⟩ := t
  cases pc with
  | start =>
    cases call with
    | append now room op =>
      simp only [remaining, next, sequential, append, publishRoom, Writing.finish, bind_assoc,
        pure_bind]
      congr! 5
      split <;> simp
    | absorb id log =>
      simp only [remaining, next, sequential, absorbRoom, fetchRoom, Writing.finish]
      split
      · simp
      · simp only [bind_assoc, pure_bind]
        congr! 2 with room
        -- the two locks of `absorb_room` find the same memory when nothing comes between
        rw [get_lift_get]
  | compare w =>
    simp only [remaining, next, bind_assoc, pure_bind]
    congr! 2
    split <;> rfl
  | save w => simp [remaining, next]
  | insert w => simp [remaining, next, showRoom]
  | refold w => simp [remaining, next]
  | finish w => simp [remaining, next, lift]
  | done saved result => simp [remaining, next]

/-- A section changes what is left of the call by what it does and by nothing else. -/
theorem Task.run_remaining (t : Task) (app : App) :
    (t.remaining env).run app =
      ((t.advance env app).1.remaining env).run (t.advance env app).2 := by
  rw [remaining_eq, EStateM.run_bind, advance]
  cases (t.next env).run app <;> rfl

theorem wp_finish {app : App} (w : Writing) (reply : Reply) :
    wp (w.finish env reply)
      (fun _ a => a.store.rooms = app.store.rooms ∧ a.rooms = app.rooms)
      (fun _ a => a.store.rooms = app.store.rooms ∧ a.rooms = app.rooms) app := by
  have hnotify : ∀ members : List Key, wp (notifyEach env w.id w.entries members)
      (fun _ a => a.store.rooms = app.store.rooms ∧ a.rooms = app.rooms)
      (fun _ a => a.store.rooms = app.store.rooms ∧ a.rooms = app.rooms) app := fun members =>
    wp_mono (fun _ a ha => ⟨congrArg _ ha.1, ha.2.1⟩) (fun _ _ hf => hf.elim)
      (wp_notifyEach w.id w.entries members)
  unfold Writing.finish
  split
  · rename_i notify _
    simp only [wp_bind, wp_ite, wp_lift]
    exact ⟨fun _ => ⟨fun _ _ => hnotify _, fun _ _ => ⟨trivial, trivial⟩⟩, fun _ => hnotify _⟩
  · exact ⟨rfl, rfl⟩
  · exact ⟨rfl, rfl⟩

/-- The sections that leave the rooms alone, by where they lead. -/
inductive Task.Leads (env : Env C) (t : Task) (app : App) : Pc → Prop
  | failed (err : String) (hpc : ∀ w, t.pc ≠ .insert w)
      (hdone : ∀ saved result, t.pc ≠ .done saved result) :
      t.Leads env app (.done t.pc.saved (.error err))
  | extended {now : UInt64} {room : Option RoomId} {op : RoomOp} {old : List RoomEntry} {R : Room}
      (hpc : t.pc = .start) (hcall : t.call = .append now room op)
      (hold : app.logOf room = some old) (hR : Replays C (old ++ [nextEntry env now op old]) R)
      (notify : Finset Key) :
      t.Leads env app (.save ⟨R.id, R, old ++ [nextEntry env now op old], .tell notify⟩)
  | fetched {id : RoomId} {R : Room} {entries : List RoomEntry} (hpc : t.pc = .start)
      (hcall : t.call = .absorb id []) (hR : Replays C entries R) (hid : R.id = id) :
      t.Leads env app (.save ⟨id, R, entries, .status⟩)
  | judged {id : RoomId} {R : Room} {log : List RoomEntry} (hpc : t.pc = .start)
      (hcall : t.call = .absorb id log) (hR : Replays C log R) (hid : R.id = id) :
      t.Leads env app (.compare ⟨id, R, log, .note⟩)
  | known {w : Writing} (hpc : t.pc = .compare w) : t.Leads env app (.done none (.ok .unit))
  | longer {w : Writing} (hpc : t.pc = .compare w) : t.Leads env app (.save w)
  | refolded {w : Writing} (hpc : t.pc = .refold w) : t.Leads env app (.finish w)
  | finished {w : Writing} (hpc : t.pc = .finish w) : t.Leads env app (.done (some w) (.ok .unit))
  | rested {saved : Option Writing} {result : Except String PUnit}
      (hpc : t.pc = .done saved result) : t.Leads env app (.done saved result)

/-- All that a section can do. -/
inductive Task.Section (env : Env C) (t : Task) (app : App) : Pc → App → Prop
  | quiet {pc' : Pc} {app' : App} (leads : t.Leads env app pc')
      (stored : app'.store.rooms = app.store.rooms) (shown : app'.rooms = app.rooms) :
      t.Section env app pc' app'
  | save {w : Writing} {app' : App} (hpc : t.pc = .save w) (saves : t.io.Saves)
      (stored : app'.store.rooms = app.store.rooms.upsert w.id w.entries)
      (shown : app'.rooms = app.rooms) : t.Section env app (.insert w) app'
  | insert {w : Writing} {app' : App} (hpc : t.pc = .insert w)
      (stored : app'.store.rooms = app.store.rooms)
      (shown : app'.rooms = app.rooms.upsert w.room.id w.room) : t.Section env app (.refold w) app'

theorem Task.wp_next (t : Task) (app : App) :
    wp (t.next env) (t.Section env app)
      (fun err => t.Section env app (.done t.pc.saved (.error err))) app := by
  obtain ⟨call, io, reply, pc⟩ := t
  cases pc with
  | start =>
    cases call with
    | append now room op =>
      simp only [next, wp_bind, wp_lift, wp_pure]
      refine wp_mono ?_ ?_ (wp_knownLog io app room)
      · rintro old a ⟨rfl, -, hold⟩
        refine ⟨fun ext hext => ?_, fun err _ => .quiet (.failed err (by simp) (by simp)) rfl rfl⟩
        obtain ⟨R, entries, notify⟩ := ext
        obtain ⟨hR, rfl, -⟩ := extend_eq_ok.mp hext
        exact .quiet (.extended rfl rfl hold hR notify) rfl rfl
      · rintro err a ⟨rfl, -⟩
        exact .quiet (.failed err (by simp) (by simp)) rfl rfl
    | absorb id log =>
      have hfails : ∀ err, Section env ⟨.absorb id log, io, reply, .start⟩ app
          (.done none (.error err)) app :=
        fun err => .quiet (.failed err (by simp) (by simp)) rfl rfl
      simp only [next, wp_ite, wp_bind, wp_lift, wp_get, wp_pure]
      constructor
      · rintro rfl
        refine ⟨fun _ _ => ⟨fun answer hanswer => ?_, fun err _ => hfails err⟩,
          fun err _ => hfails err⟩
        obtain ⟨hR, hid⟩ := Hub.room_eq_ok env hanswer
        exact .quiet (.fetched rfl rfl hR hid) rfl rfl
      · refine fun _ => ⟨fun R hjudge => ⟨fun _ _ => ?_, fun err _ => hfails err⟩,
          fun err _ => hfails err⟩
        obtain ⟨hR, hid⟩ := judge_eq_ok.mp hjudge
        exact .quiet (.judged rfl rfl hR hid) rfl rfl
  | compare w =>
    simp only [next, wp_bind, wp_get, wp_pure]
    split
    · exact .quiet (.known rfl) rfl rfl
    · exact .quiet (.longer rfl) rfl rfl
  | save w =>
    simp only [next, wp_bind, wp_pure]
    refine wp_mono ?_ ?_ (wp_saveRoom w.id w.entries)
    · rintro - a ⟨saves, stored, shown, -⟩
      exact .save rfl saves stored shown
    · rintro err a ⟨-, hquiet⟩
      exact .quiet (.failed err (by simp) (by simp)) hquiet.stored hquiet.shown
  | insert w =>
    simp only [next, insertRoom, wp_bind, wp_modify, wp_emit, wp_pure]
    exact .insert rfl rfl rfl
  | refold w =>
    simp only [next, sendLog, wp_bind, wp_get, wp_lift, wp_emit, wp_pure]
    exact ⟨fun _ _ => .quiet (.refolded rfl) rfl rfl,
      fun err _ => .quiet (.failed err (by simp) (by simp)) rfl rfl⟩
  | finish w =>
    simp only [next, wp_bind, wp_pure]
    refine wp_mono ?_ ?_ (wp_finish w reply)
    · rintro - a ⟨stored, shown⟩
      exact .quiet (.finished rfl) stored shown
    · rintro err a ⟨stored, shown⟩
      exact .quiet (.failed err (by simp) (by simp)) stored shown
  | done saved result => exact .quiet (.rested rfl) rfl rfl

variable (env) in
theorem Task.section_advance (t : Task) (app : App) :
    t.Section env app (t.advance env app).1.pc (t.advance env app).2 := by
  have h : wp (t.next env) _ _ app := t.wp_next app
  unfold wp at h
  unfold advance
  cases hrun : (t.next env).run app <;> simpa [hrun] using h

theorem Task.Section.left_le {t : Task} {app app' : App} {pc' : Pc}
    (h : t.Section env app pc' app') : pc'.left ≤ t.pc.left - 1 := by
  cases h with
  | quiet leads => cases leads <;> simp [Pc.left, *]
  | save hpc => simp [Pc.left, hpc]
  | insert hpc => simp [Pc.left, hpc]

/-- Run on its own, a call is through after six sections, and has done what the function
does in one go. -/
theorem Task.alone_eq_sequential {t : Task} (ht : t.pc = .start) (app : App) :
    ∃ saved result,
      (alone (advance env) 6 t app).1.pc = .done saved result ∧
      (t.sequential env).run app =
        (lift result : Act PUnit).run (alone (advance env) 6 t app).2 := by
  have hleft : (alone (advance env) 6 t app).1.pc.left = 0 :=
    alone_finishes (fun t : Task => t.pc.left) (fun t app => (t.section_advance env app).left_le)
      (by simp [ht, Pc.left]) app
  have hrun := alone_meaning (fun t app => (t.remaining env).run app)
    (fun t app => t.run_remaining app) 6 t app
  have hstart : t.remaining env = t.sequential env := by simp [remaining, ht]
  cases hpc : (alone (advance env) 6 t app).1.pc with
  | done saved result =>
    refine ⟨saved, result, rfl, ?_⟩
    rw [← hstart, hrun, remaining, hpc]
  | _ => simp [hpc, Pc.left] at hleft

/-- The stored logs verify under the ids they are filed by. -/
def Filed (C : Crypto) (app : App) : Prop :=
  ∀ id log, app.store.rooms.get id = some log → ∃ v : VerifiedLog C, v.log = log ∧ v.room.id = id

theorem Mirrors.filed {app : App} {b : Book C} (h : Mirrors app b) : Filed C app := by
  intro id log hlog
  rw [h.stored] at hlog
  obtain ⟨v, hv, rfl⟩ := Option.map_eq_some_iff.mp hlog
  exact ⟨v, rfl, b.filed id v hv⟩

/-- What a call has in its hands is a verified log of the room, and for `append` one that
ends with the entry it has signed. -/
structure Call.Carries (env : Env C) (call : Call) (w : Writing) : Prop where
  replays : Replays C w.entries w.room
  filed : w.room.id = w.id
  signed : ∀ now room op, call = .append now room op →
    (∀ id, room = some id → w.id = id) ∧ ∃ old, w.entries = old ++ [nextEntry env now op old]

structure Task.Sound (env : Env C) (t : Task) : Prop where
  carries : ∀ w, t.pc.writing = some w → t.call.Carries env w
  /-- `append` does not compare, and does not succeed without saving. -/
  saves : ∀ now room op, t.call = .append now room op →
    (∀ w, t.pc ≠ .compare w) ∧ t.pc ≠ .done none (.ok .unit)

theorem Pc.writing_of_saved {pc : Pc} {w : Writing} (h : pc.saved = some w) :
    pc.writing = some w := by
  cases pc with
  | compare w' => cases h
  | save w' => cases h
  | _ => exact h

theorem Task.Sound.start {t : Task} (h : t.pc = .start) : t.Sound env where
  carries w hw := by simp [h, Pc.writing, Pc.saved] at hw
  saves _ _ _ _ := by simp [h]

/-- The log that `append` extends is of the room it is called for. -/
theorem carries_extended {app : App} {now : UInt64} {room : Option RoomId} {op : RoomOp}
    {old : List RoomEntry} {R : Room} (hfiled : Filed C app) (hold : app.logOf room = some old)
    (hR : Replays C (old ++ [nextEntry env now op old]) R) (rest : Rest) :
    Call.Carries env (.append now room op) ⟨R.id, R, old ++ [nextEntry env now op old], rest⟩ where
  replays := hR
  filed := rfl
  signed now' room' op' hcall := by
    obtain ⟨rfl, rfl, rfl⟩ : now = now' ∧ room = room' ∧ op = op' := by simpa using hcall
    refine ⟨?_, old, rfl⟩
    rintro id rfl
    obtain ⟨v, rfl, rfl⟩ := hfiled id old hold
    let w : VerifiedLog C := ⟨_, R, hR⟩
    exact (VerifiedLog.id_eq_of_prefix (v := v) (w := w) (List.prefix_append _ _)).symm

theorem Task.Section.sound {t : Task} {app app' : App} {pc' : Pc} (hs : t.Section env app pc' app')
    (h : t.Sound env) (hfiled : Filed C app) : Task.Sound env { t with pc := pc' } := by
  obtain ⟨call, io, reply, pc⟩ := t
  cases hs with
  | quiet leads =>
    cases leads with
    | failed err =>
      exact ⟨fun w hw => h.carries w (Pc.writing_of_saved hw),
        fun _ _ _ _ => ⟨nofun, fun hpc => by simp at hpc⟩⟩
    | extended hpc hcall hold hR notify =>
      obtain rfl : call = _ := hcall
      refine ⟨fun w hw => ?_, fun _ _ _ _ => ⟨nofun, nofun⟩⟩
      cases hw
      exact carries_extended hfiled hold hR _
    | fetched hpc hcall hR hid =>
      obtain rfl : call = _ := hcall
      refine ⟨fun w hw => ?_, nofun⟩
      cases hw
      exact ⟨hR, hid, nofun⟩
    | judged hpc hcall hR hid =>
      obtain rfl : call = _ := hcall
      refine ⟨fun w hw => ?_, nofun⟩
      cases hw
      exact ⟨hR, hid, nofun⟩
    | known hpc => exact ⟨nofun, fun _ _ _ hcall => absurd hpc ((h.saves _ _ _ hcall).1 _)⟩
    | longer hpc =>
      obtain rfl : pc = _ := hpc
      exact ⟨h.carries, fun _ _ _ _ => ⟨nofun, nofun⟩⟩
    | refolded hpc =>
      obtain rfl : pc = _ := hpc
      exact ⟨h.carries, fun _ _ _ _ => ⟨nofun, nofun⟩⟩
    | finished hpc =>
      obtain rfl : pc = _ := hpc
      exact ⟨h.carries, fun _ _ _ _ => ⟨nofun, nofun⟩⟩
    | rested hpc =>
      obtain rfl : pc = _ := hpc
      exact h
  | save hpc =>
    obtain rfl : pc = _ := hpc
    exact ⟨h.carries, fun _ _ _ _ => ⟨nofun, nofun⟩⟩
  | insert hpc =>
    obtain rfl : pc = _ := hpc
    exact ⟨h.carries, fun _ _ _ _ => ⟨nofun, nofun⟩⟩

theorem Task.Leads.saved {t : Task} {app : App} {pc' : Pc} (h : t.Leads env app pc') :
    pc'.saved = t.pc.saved := by
  cases h <;> simp [Pc.saved, *]

/-- What an `append` has saved, unless it has failed since. -/
def Task.appended (t : Task) : Option Writing :=
  match t.call, t.pc with
  | .append _ _ _, .done _ (.error _) => none
  | .append _ _ _, pc => pc.saved
  | .absorb _ _, _ => none

/-- There is a log of every room the task has saved, and what an `append` has saved is still
the beginning of it. -/
structure Task.Kept (t : Task) (app : App) : Prop where
  stored : ∀ w ∈ t.pc.saved, (app.store.rooms.get w.id).isSome = true
  appended : ∀ w ∈ t.appended, ∃ log, app.store.rooms.get w.id = some log ∧ w.entries <+: log

/-- If the next section of `t` saves, the log it saves begins with what `u` has appended. -/
def Task.BuildsOn (t u : Task) : Prop :=
  ∀ w ∈ t.pc.saving, t.io.Saves → ∀ w' ∈ u.appended, w'.id = w.id → w'.entries <+: w.entries

instance (t u : Task) : Decidable (t.BuildsOn u) :=
  inferInstanceAs (Decidable (∀ w ∈ t.pc.saving, _ → ∀ w' ∈ u.appended, _ → _))

theorem Task.Kept.congr {t : Task} {app app' : App} (h : t.Kept app)
    (hstored : app'.store.rooms = app.store.rooms) : t.Kept app' := by
  constructor
  · simpa only [hstored] using h.stored
  · simpa only [hstored] using h.appended

theorem Task.Kept.upsert {t : Task} {app app' : App} {w : Writing} (h : t.Kept app)
    (hstored : app'.store.rooms = app.store.rooms.upsert w.id w.entries)
    (hbuilds : ∀ w' ∈ t.appended, w'.id = w.id → w'.entries <+: w.entries) : t.Kept app' := by
  constructor
  · intro w' hw'
    rw [hstored, Table.get_upsert]
    split
    · rfl
    · exact h.stored w' hw'
  · intro w' hw'
    rw [hstored, Table.get_upsert]
    split
    · rename_i hid
      exact ⟨_, rfl, hbuilds w' hw' hid⟩
    · exact h.appended w' hw'

theorem Task.Section.filed {t : Task} {app app' : App} {pc' : Pc} (hs : t.Section env app pc' app')
    (h : t.Sound env) (hfiled : Filed C app) : Filed C app' := by
  cases hs with
  | quiet leads stored => simpa [Filed, stored] using hfiled
  | insert hpc stored => simpa [Filed, stored] using hfiled
  | @save w _ hpc saves stored =>
    have hw := h.carries w (by rw [hpc]; rfl)
    intro id log hlog
    rw [stored, Table.get_upsert] at hlog
    split at hlog
    · rename_i hid
      cases hlog
      exact ⟨⟨_, _, hw.replays⟩, rfl, hw.filed.trans hid.symm⟩
    · exact hfiled id log hlog

/-- No section takes from what another task has appended, if it builds on it. -/
theorem Task.Section.others_kept {t u : Task} {app app' : App} {pc' : Pc}
    (hs : t.Section env app pc' app') (hbuilds : t.BuildsOn u) (hu : u.Kept app) :
    u.Kept app' := by
  cases hs with
  | quiet leads stored => exact hu.congr stored
  | insert hpc stored => exact hu.congr stored
  | save hpc saves stored => exact hu.upsert stored (hbuilds _ (by rw [hpc]; rfl) saves)

theorem Task.Leads.appended {t : Task} {app : App} {pc' : Pc} {w : Writing}
    (h : t.Leads env app pc') (hw : w ∈ Task.appended { t with pc := pc' }) : w ∈ t.appended := by
  obtain ⟨call, io, reply, pc⟩ := t
  cases call with
  | absorb id log => cases hw
  | append now room op =>
    cases h with
    | refolded hpc =>
      obtain rfl : pc = _ := hpc
      exact hw
    | finished hpc =>
      obtain rfl : pc = _ := hpc
      exact hw
    | rested hpc =>
      obtain rfl : pc = _ := hpc
      exact hw
    | _ => cases hw

theorem Task.Section.own_kept {t : Task} {app app' : App} {pc' : Pc}
    (hs : t.Section env app pc' app') (h : t.Kept app) : Task.Kept { t with pc := pc' } app' := by
  obtain ⟨call, io, reply, pc⟩ := t
  cases hs with
  | quiet leads stored =>
    constructor
    · intro w hw
      rw [stored]
      exact h.stored w (leads.saved ▸ hw)
    · intro w hw
      rw [stored]
      exact h.appended w (leads.appended hw)
  | save hpc saves stored =>
    obtain rfl : pc = _ := hpc
    constructor
    · rintro w ⟨⟩
      rw [stored, Table.get_upsert, if_pos rfl]
      rfl
    · intro w hw
      cases call with
      | append now room op =>
        cases hw
        rw [stored, Table.get_upsert, if_pos rfl]
        exact ⟨_, rfl, List.prefix_rfl⟩
      | absorb id log => cases hw
  | insert hpc stored =>
    obtain rfl : pc = _ := hpc
    refine ⟨(h.congr stored).stored, ?_⟩
    cases call with
    | append now room op => exact (h.congr stored).appended
    | absorb id log => nofun

/-- The in-memory room is what the stored log replays to. -/
def InStep (C : Crypto) (app : App) (id : RoomId) : Prop :=
  app.rooms.get id = (app.store.rooms.get id).bind fun log => (verifyLog C log).toOption

instance (app : App) (id : RoomId) : Decidable (InStep C app id) :=
  inferInstanceAs (Decidable (_ = _))

abbrev Tasks := Pool App Task

/-- The section that task `i` runs next is in order: it saves on top of what has been
appended, and what it shows is what is stored, unless another task has still to show that. -/
structure Tasks.InOrder (p : Tasks) (i : Nat) : Prop where
  saves : ∀ t ∈ p.tasks[i]?, ∀ u ∈ p.tasks, t.BuildsOn u
  shows : ∀ t ∈ p.tasks[i]?, ∀ w ∈ t.pc.showing, ∀ log ∈ p.shared.store.rooms.get w.id,
    log = w.entries ∨ ∃ u ∈ p.tasks.eraseIdx i, ∃ w' ∈ u.pc.showing, w'.id = w.id ∧ w'.entries = log

instance (p : Tasks) (i : Nat) : Decidable (p.InOrder i) :=
  decidable_of_iff
    ((∀ t ∈ p.tasks[i]?, ∀ u ∈ p.tasks, t.BuildsOn u) ∧
      ∀ t ∈ p.tasks[i]?, ∀ w ∈ t.pc.showing, ∀ log ∈ p.shared.store.rooms.get w.id,
        log = w.entries ∨
          ∃ u ∈ p.tasks.eraseIdx i, ∃ w' ∈ u.pc.showing, w'.id = w.id ∧ w'.entries = log)
    ⟨fun h => ⟨h.1, h.2⟩, fun h => ⟨h.saves, h.shows⟩⟩

/-- Every room is in step, or the task that has to put it in step is on its way. -/
def Tasks.Showing (C : Crypto) (p : Tasks) : Prop :=
  ∀ id, InStep C p.shared id ∨ ∃ (i : Nat) (t : Task) (w : Writing), p.tasks[i]? = some t ∧
    t.pc.showing = some w ∧ w.id = id ∧ p.shared.store.rooms.get id = some w.entries

theorem Mirrors.inStep {app : App} {b : Book C} (h : Mirrors app b) (id : RoomId) :
    InStep C app id := by
  rw [InStep, h.shown, h.stored]
  cases b.held id with
  | none => rfl
  | some v => simp [v.replays.verifyLog_eq, Except.toOption]

theorem InStep.congr {app app' : App} {id : RoomId} (h : InStep C app id)
    (hstored : app'.store.rooms.get id = app.store.rooms.get id)
    (hshown : app'.rooms.get id = app.rooms.get id) : InStep C app' id := by
  rw [InStep, hstored, hshown]
  exact h

/-- The invariant of a run whose sections are in order. -/
structure Tasks.Coherent (env : Env C) (p : Tasks) : Prop where
  holds : p.Holds (Filed C) fun t app => t.Sound env ∧ t.Kept app
  showing : p.Showing C

theorem Tasks.Coherent.start {p : Tasks} {b : Book C} (h : Mirrors p.shared b)
    (hstart : ∀ t ∈ p.tasks, t.pc = .start) : p.Coherent env where
  holds := by
    refine ⟨h.filed, fun i t ht => ?_⟩
    have hpc := hstart t (List.mem_of_getElem? ht)
    refine ⟨.start hpc, fun w hw => ?_, fun w hw => ?_⟩
    · simp [hpc, Pc.saved] at hw
    · cases hcall : t.call <;> simp [Task.appended, hcall, hpc, Pc.saved] at hw
  showing id := .inl (h.inStep id)

theorem Task.advance_eq (t : Task) (app : App) :
    (t.advance env app).1 = { t with pc := (t.advance env app).1.pc } := by
  unfold advance
  split <;> rfl

theorem Tasks.Coherent.step_holds {p : Tasks} {i : Nat} (h : p.Coherent env)
    (hi : p.InOrder i) :
    (p.step (Task.advance env) i).Holds (Filed C) fun t app => t.Sound env ∧ t.Kept app := by
  refine Pool.Holds.step (P := fun t u _ => t.BuildsOn u) ?_ ?_ h.holds
    fun t j u ht hu => hi.saves t ht u (List.mem_of_getElem? hu)
  · rintro t app - hfiled ⟨hsound, hkept⟩
    have hs := t.section_advance env app
    rw [t.advance_eq]
    exact ⟨hs.filed hsound hfiled, hs.sound hsound hfiled, hs.own_kept hkept⟩
  · rintro t u app hbuilds ⟨hsound, hkept⟩
    exact ⟨hsound, (t.section_advance env app).others_kept hbuilds hkept⟩

theorem Task.Leads.showing {t : Task} {app : App} {pc' : Pc} (h : t.Leads env app pc') :
    t.pc.showing = none := by
  cases h with
  | failed err hno =>
    cases hpc : t.pc with
    | insert w => exact absurd hpc (hno w)
    | _ => rfl
  | _ => simp [Pc.showing, *]

/-- A room whose log and whose memory a section leaves alone stays in step, or waits for the
same task as before. -/
theorem Tasks.Showing.frame {p : Tasks} {i : Nat} {t : Task} {id : RoomId} (h : p.Showing C)
    (ht : p.tasks[i]? = some t) (hno : ∀ w ∈ t.pc.showing, w.id ≠ id)
    (hstored : (t.advance env p.shared).2.store.rooms.get id = p.shared.store.rooms.get id)
    (hshown : (t.advance env p.shared).2.rooms.get id = p.shared.rooms.get id) :
    let p' := p.step (Task.advance env) i
    InStep C p'.shared id ∨ ∃ (j : Nat) (u : Task) (w : Writing), p'.tasks[j]? = some u ∧
      u.pc.showing = some w ∧ w.id = id ∧ p'.shared.store.rooms.get id = some w.entries := by
  intro p'
  have hp' : p'.shared = (t.advance env p.shared).2 := by
    simp only [p', Pool.step_of_some ht]
  rcases h id with hin | ⟨j, u, w, hu, hw, hid, hlog⟩
  · refine .inl (hin.congr ?_ ?_)
    · rw [hp', hstored]
    · rw [hp', hshown]
  · have hij : i ≠ j := by
      rintro rfl
      obtain rfl : t = u := Option.some.inj (ht.symm.trans hu)
      exact hno w hw hid
    refine .inr ⟨j, u, w, ?_, hw, hid, by rw [hp', hstored, hlog]⟩
    rw [Pool.getElem?_step_of_ne hij, hu]

theorem Tasks.Coherent.step_showing {p : Tasks} {i : Nat} (h : p.Coherent env)
    (hi : p.InOrder i) : Tasks.Showing C (p.step (Task.advance env) i) := by
  cases ht : p.tasks[i]? with
  | none =>
    rw [Pool.step_of_none ht]
    exact h.showing
  | some t =>
    intro id
    have hp' : (p.step (Task.advance env) i).shared = (t.advance env p.shared).2 := by
      simp only [Pool.step_of_some ht]
    have hself : (p.step (Task.advance env) i).tasks[i]? = some (t.advance env p.shared).1 :=
      Pool.getElem?_step_self ht
    generalize hpc' : (t.advance env p.shared).1.pc = pc' at *
    have hs := t.section_advance env p.shared
    rw [hpc'] at hs
    generalize happ' : (t.advance env p.shared).2 = app' at *
    cases hs with
    | quiet leads stored shown =>
      refine h.showing.frame ht (fun w hw => ?_) ?_ ?_
      · rw [leads.showing] at hw
        cases hw
      · rw [happ', stored]
      · rw [happ', shown]
    | @save w _ hpc saves stored shown =>
      by_cases hid : id = w.id
      · refine .inr ⟨i, _, w, hself, by rw [hpc']; rfl, hid.symm, ?_⟩
        rw [hp', stored, Table.get_upsert, if_pos hid]
      · refine h.showing.frame ht (fun w' hw' => ?_) ?_ ?_
        · rw [hpc] at hw'
          cases hw'
        · rw [happ', stored, Table.get_upsert, if_neg hid]
        · rw [happ', shown]
    | @insert w _ hpc stored shown =>
      have hshowing : t.pc.showing = some w := by rw [hpc]; rfl
      have hcarries := (h.holds.tasks i t ht).1.carries w (by rw [hpc]; rfl)
      by_cases hid : id = w.id
      · subst hid
        obtain ⟨log, hlog⟩ := Option.isSome_iff_exists.mp
          ((h.holds.tasks i t ht).2.stored w (by rw [hpc]; rfl))
        rcases hi.shows t ht w hshowing log hlog with rfl | ⟨u, hu, w', hw', hid, rfl⟩
        · left
          rw [hp', InStep, stored, shown, hlog, hcarries.filed, Table.get_upsert, if_pos rfl]
          simp [hcarries.replays.verifyLog_eq, Except.toOption]
        · obtain ⟨j, hne, hj⟩ := List.mem_eraseIdx_iff_getElem?.mp hu
          refine .inr ⟨j, u, w', ?_, hw', hid, by rw [hp', stored, hlog]⟩
          rw [Pool.getElem?_step_of_ne hne.symm, hj]
      · refine h.showing.frame ht (fun w' hw' => ?_) ?_ ?_
        · obtain rfl : w = w' := Option.some.inj (hshowing.symm.trans hw')
          exact Ne.symm hid
        · rw [happ', stored]
        · rw [happ', shown, hcarries.filed, Table.get_upsert, if_neg hid]

theorem Tasks.Coherent.step {p : Tasks} {i : Nat} (h : p.Coherent env) (hi : p.InOrder i) :
    Tasks.Coherent env (p.step (Task.advance env) i) :=
  ⟨h.step_holds hi, h.step_showing hi⟩

/-- Every append that returned `Ok` has its entry in the stored log, and once nobody is at
work any more the memory is what the store replays to. -/
structure Tasks.NothingLost (env : Env C) (p : Tasks) : Prop where
  appended : ∀ t ∈ p.tasks, ∀ now room op, t.call = .append now room op →
    ∀ saved, t.pc = .done saved (.ok .unit) →
      ∃ id old log, (∀ r, room = some r → id = r) ∧ p.shared.store.rooms.get id = some log ∧
        old ++ [nextEntry env now op old] <+: log
  shown : (∀ t ∈ p.tasks, t.pc.left = 0) → ∀ id, InStep C p.shared id

theorem Tasks.Coherent.nothingLost {p : Tasks} (h : p.Coherent env) : p.NothingLost env where
  appended t ht now room op hcall saved hpc := by
    obtain ⟨i, hi⟩ := List.mem_iff_getElem?.mp ht
    obtain ⟨hsound, hkept⟩ := h.holds.tasks i t hi
    cases saved with
    | none => exact absurd hpc (hsound.saves now room op hcall).2
    | some w =>
      have hsaved : t.pc.saved = some w := by rw [hpc]; rfl
      obtain ⟨hid, old, hold⟩ :=
        (hsound.carries w (Pc.writing_of_saved hsaved)).signed now room op hcall
      obtain ⟨log, hlog, hpre⟩ := hkept.appended w (by simp [Task.appended, hcall, hpc, Pc.saved])
      exact ⟨w.id, old, log, hid, hlog, hold ▸ hpre⟩
  shown hdone id := by
    rcases h.showing id with hin | ⟨i, t, w, ht, hw, -⟩
    · exact hin
    · have := hdone t (List.mem_of_getElem? ht)
      cases hpc : t.pc <;> simp [hpc, Pc.left, Pc.showing] at this hw

theorem Task.advance_finish {t : Task} {w : Writing} {notify : Finset Key} (hpc : t.pc = .finish w)
    (hrest : w.rest = .tell notify) (hhub : env.hub = false) (app : App) :
    ∃ app', t.advance env app = ({ t with pc := .done (some w) (.ok .unit) }, app') ∧
      app'.store.rooms = app.store.rooms ∧ app'.rooms = app.rooms := by
  have hnext : t.next env = notifyEach env w.id w.entries (inOrder notify) >>= fun _ =>
      pure (.done (some w) (.ok .unit)) := by
    simp [next, hpc, Writing.finish, hrest, hhub]
  have hrun : wp (notifyEach env w.id w.entries (inOrder notify)) _ _ app := wp_notifyEach _ _ _
  unfold wp at hrun
  unfold advance
  rw [hnext, EStateM.run_bind]
  cases hn : (notifyEach env w.id w.entries (inOrder notify)).run app with
  | ok u app' =>
    rw [hn] at hrun
    exact ⟨app', rfl, congrArg _ hrun.1, hrun.2.1⟩
  | error err app' =>
    rw [hn] at hrun
    exact hrun.elim

/-- What a task is for and where it stands. -/
def Task.whereabouts (t : Task) : Call × Pc := (t.call, t.pc)

/-- Two calls of `append` that have only their members left to tell. -/
theorem run_finish_both {p : Tasks} {c c' : Call} {w w' : Writing} {notify notify' : Finset Key}
    (hp : p.tasks.map Task.whereabouts = [(c, .finish w), (c', .finish w')])
    (hw : w.rest = .tell notify) (hw' : w'.rest = .tell notify') (hhub : env.hub = false) :
    let q := run (Pool.step (Task.advance env)) p [0, 1]
    q.tasks.map Task.whereabouts =
      [(c, .done (some w) (.ok .unit)), (c', .done (some w') (.ok .unit))] ∧
    q.shared.store.rooms = p.shared.store.rooms ∧ q.shared.rooms = p.shared.rooms := by
  obtain ⟨app, tasks⟩ := p
  obtain ⟨t, l, rfl, ht, hl⟩ := List.map_eq_cons_iff.mp hp
  obtain ⟨u, l, rfl, hu, hnil⟩ := List.map_eq_cons_iff.mp hl
  obtain rfl := List.map_eq_nil_iff.mp hnil
  simp only [Task.whereabouts, Prod.mk.injEq] at ht hu
  obtain ⟨a, ha, hastored, hashown⟩ := Task.advance_finish ht.2 hw hhub app
  obtain ⟨a', ha', hastored', hashown'⟩ := Task.advance_finish hu.2 hw' hhub a
  have hfirst : Pool.step (Task.advance env) ⟨app, [t, u]⟩ 0 =
      ⟨a, [{ t with pc := .done (some w) (.ok .unit) }, u]⟩ := by
    rw [Pool.step_of_some (t := t) rfl, ha]
    rfl
  intro q
  have hq : q = ⟨a', [{ t with pc := .done (some w) (.ok .unit) },
      { u with pc := .done (some w') (.ok .unit) }]⟩ := by
    simp only [q, run_cons, run_nil, hfirst]
    rw [Pool.step_of_some (t := u) rfl, ha']
    rfl
  rw [hq]
  exact ⟨by simp [Task.whereabouts, ht.1, hu.1], hastored'.trans hastored, hashown'.trans hashown⟩

/-- An entry whose op is nowhere in the stored log is lost. -/
theorem Tasks.not_nothingLost {p : Tasks} {now : UInt64} {id : RoomId} {op : RoomOp}
    {saved : Option Writing} {log : List RoomEntry}
    (hdone : (.append now (some id) op, .done saved (.ok .unit)) ∈ p.tasks.map Task.whereabouts)
    (hstored : p.shared.store.rooms.get id = some log) (hmissing : ∀ e ∈ log, e.op ≠ op) :
    ¬p.NothingLost env := by
  intro h
  obtain ⟨t, ht, hwhere⟩ := List.mem_map.mp hdone
  obtain ⟨hcall, hpc⟩ := Prod.mk.inj hwhere
  obtain ⟨id', old, log', hid, hlog, hpre⟩ := h.appended t ht now _ op hcall saved hpc
  obtain rfl : id' = id := hid id rfl
  obtain rfl : log = log' := Option.some.inj (hstored.symm.trans hlog)
  exact hmissing (nextEntry env now op old) (hpre.mem (by simp)) rfl

namespace Sample

open Core.Sample

def command (now : UInt64) (op : RoomOp) : Task :=
  ⟨.append now (some kitchenRoom.id) op, .ok, none, .start⟩

/-- The founder kicks 3 and invites 4, by two commands one right after the other. -/
def twoCommands : Tasks :=
  ⟨cameUp 1 false kitchenRoom.id kitchen,
    [command 4 (.kick (key 3)), command 5 (.invite (key 4))]⟩

/-- What `append` makes of one more entry in the kitchen. -/
def writing (now : UInt64) (op : RoomOp) : Writing :=
  let entry := signed 1 kitchenRoom.head now op
  let room := kitchenRoom.after crypto entry
  ⟨kitchenRoom.id, room, kitchen ++ [entry], .tell (kitchenRoom.members ∪ room.members)⟩

end Sample

open Core.Sample Sample in
/-- Both commands read the log before either has saved: the kick returns `Ok`, and 3 is in
the room still. -/
theorem overlapping_commands_lose_kick :
    let q := run (Pool.step (Task.advance (client 1 false))) twoCommands
      ([0, 1, 0, 1, 0, 1, 0, 1] ++ [0, 1])
    q.tasks.map Task.whereabouts =
      [(.append 4 (some kitchenRoom.id) (.kick (key 3)),
          .done (some (writing 4 (.kick (key 3)))) (.ok .unit)),
        (.append 5 (some kitchenRoom.id) (.invite (key 4)),
          .done (some (writing 5 (.invite (key 4)))) (.ok .unit))] ∧
    q.shared.isMember kitchenRoom.id (key 3) = true ∧
    ¬Tasks.NothingLost (client 1 false) q := by
  rw [run_append]
  have htasks : (run (Pool.step (Task.advance (client 1 false))) twoCommands
      [0, 1, 0, 1, 0, 1, 0, 1]).tasks.map Task.whereabouts =
      [(.append 4 (some kitchenRoom.id) (.kick (key 3)), .finish (writing 4 (.kick (key 3)))),
        (.append 5 (some kitchenRoom.id) (.invite (key 4)),
          .finish (writing 5 (.invite (key 4))))] := by
    decide +kernel
  have hstored : (run (Pool.step (Task.advance (client 1 false))) twoCommands
      [0, 1, 0, 1, 0, 1, 0, 1]).shared.store.rooms.get kitchenRoom.id =
      some (kitchen ++ [signed 1 kitchenRoom.head 5 (.invite (key 4))]) := by
    decide +kernel
  have hshown : (run (Pool.step (Task.advance (client 1 false))) twoCommands
      [0, 1, 0, 1, 0, 1, 0, 1]).shared.isMember kitchenRoom.id (key 3) = true := by
    decide +kernel
  have hmissing : ∀ e ∈ kitchen ++ [signed 1 kitchenRoom.head 5 (.invite (key 4))],
      e.op ≠ .kick (key 3) := by
    decide +kernel
  generalize run (Pool.step (Task.advance (client 1 false))) twoCommands
    [0, 1, 0, 1, 0, 1, 0, 1] = p at *
  obtain ⟨hq, hqstored, hqshown⟩ := run_finish_both htasks rfl rfl
    (rfl : (client 1 false).hub = false)
  intro q
  refine ⟨hq, ?_, Tasks.not_nothingLost (hq ▸ List.mem_cons_self) ?_ hmissing⟩
  · rw [App.isMember, hqshown]
    exact hshown
  · rw [hqstored, hstored]

/-- Any number of calls, their sections taken in any order in which every save is on top of
what has been appended and every show is of what is stored: no entry of theirs is lost. -/
theorem interleaved_updates_are_kept (env : Env C) {p : Tasks} {b : Book C}
    (hb : Mirrors p.shared b) (hstart : ∀ t ∈ p.tasks, t.pc = .start) (schedule : List Nat)
    (horder : Along (Pool.step (Task.advance env)) Tasks.InOrder p schedule) :
    Tasks.NothingLost env (run (Pool.step (Task.advance env)) p schedule) := by
  have hstep : ∀ p i, Tasks.Coherent env p → p.InOrder i →
      Tasks.Coherent env (p.step (Task.advance env) i) := fun _ _ h hi => h.step hi
  exact (horder.invariant hstep (.start hb hstart)).nothingLost

open Core.Sample Sample in
/-- The invite reads its log once the kick is saved, and overtakes it only on the way to the
members. -/
theorem interleaved_updates_are_kept_kitchen :
    Tasks.NothingLost (client 1 false)
      (run (Pool.step (Task.advance (client 1 false))) twoCommands
        [0, 0, 1, 0, 1, 1, 1, 1, 0, 0]) := by
  have hmirrors : Mirrors (cameUp 1 false kitchenRoom.id kitchen) (bookOf crypto _) :=
    mirrors_boot (bookOf_held (storeWith_verifies (key 1) verifyLog_kitchen rfl))
      (cameUp_run (by decide +kernel))
  have hshared : twoCommands.shared = cameUp 1 false kitchenRoom.id kitchen := by
    simp only [twoCommands]
  rw [← hshared] at hmirrors
  have hstart : ∀ t ∈ twoCommands.tasks, t.pc = .start := by decide +kernel
  have horder : Along (Pool.step (Task.advance (client 1 false))) Tasks.InOrder twoCommands
      [0, 0, 1, 0, 1, 1, 1, 1, 0, 0] := by
    decide +kernel
  exact interleaved_updates_are_kept (client 1 false) hmirrors hstart _ horder

end Wicara.Client
