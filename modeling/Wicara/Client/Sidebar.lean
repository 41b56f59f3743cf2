import Wicara.Client.RoomRuns

namespace Wicara.Client

open Wicara.Core Lib Lib.Fallible

variable {C : Crypto}

/-- The rooms of the client, in memory and in the store. -/
structure Sidebar where
  shown : Table RoomId Room
  stored : Table RoomId (List RoomEntry)

def App.sidebar (app : App) : Sidebar := ⟨app.rooms, app.store.rooms⟩

namespace Sidebar

def Knows (h : Sidebar) (id : RoomId) : Prop := id ∈ h.shown.keys ∨ id ∈ h.stored.keys

def file (o : Option (VerifiedLog C)) (h : Sidebar) : Sidebar :=
  match o with
  | some v => ⟨h.shown.upsert v.room.id v.room, h.stored.upsert v.room.id v.log⟩
  | none => h

/-- Of the rooms that are new here, this endpoint is a member by the log that was saved. -/
def Entitles (C : Crypto) (me : Key) (h h' : Sidebar) : Prop :=
  ∀ id, ¬h.Knows id → h'.Knows id →
    ∃ log room, h'.stored.get id = some log ∧ verifyLog C log = .ok room ∧ me ∈ room.members

theorem entitles_refl (me : Key) (h : Sidebar) : h.Entitles C me h := fun _ hnew hknown =>
  absurd hknown hnew

theorem knows_file {v : VerifiedLog C} {h : Sidebar} {id : RoomId} :
    (h.file (some v)).Knows id ↔ id = v.room.id ∨ h.Knows id := by
  simp only [Knows, file, Table.mem_keys_upsert]
  tauto

theorem entitles_file_iff {me : Key} {v : VerifiedLog C} {h : Sidebar} :
    h.Entitles C me (h.file (some v)) ↔ (h.Knows v.room.id ∨ me ∈ v.room.members) := by
  constructor
  · intro hent
    by_cases hknown : h.Knows v.room.id
    · exact .inl hknown
    · obtain ⟨log, room, hlog, hroom, hme⟩ := hent v.room.id hknown (knows_file.mpr (.inl rfl))
      simp only [file, Table.get_upsert, if_true, Option.some.injEq] at hlog
      subst hlog
      cases v.replays.verifyLog_eq.symm.trans hroom
      exact .inr hme
  · rintro hv id hnew hknown
    obtain rfl := (knows_file.mp hknown).resolve_right hnew
    refine ⟨v.log, v.room, ?_, v.replays.verifyLog_eq, hv.resolve_left hnew⟩
    simp [file]

end Sidebar

section

variable {env : Env C} {io : Io}

theorem sidebar_emit (event : UiEvent) : Frames App.sidebar (emit event) := fun _ => rfl

theorem sidebar_sendLog (peer : Key) : Frames App.sidebar (sendLog io peer) :=
  .bind frames_get fun _ => .bind (frames_lift _) fun _ => sidebar_emit _

theorem sidebar_record (peer : Key) (frame : Frame) :
    Frames App.sidebar (inStore (Store.record io.record peer frame)) := by
  have hstore : Frames Store.rooms (Store.record io.record peer frame) := by
    unfold Store.record
    split
    · exact frames_pure _
    · refine .bind (frames_attempt _) fun _ => .bind (frames_modify fun _ => rfl) fun _ => ?_
      refine .bind (frames_attempt _) fun _ => .bind frames_get fun _ => ?_
      exact .bind (frames_modify fun _ => rfl) fun _ => frames_pure _
  exact frames_zoom fun app => congrArg (Sidebar.mk app.rooms) (hstore app.store)

/-- `save_room` as one step on the rooms. -/
theorem sidebar_saveRoom (v : VerifiedLog C) (app : App) :
    wp (inStore (Store.saveRoom io.saveRoom v.room.id v.log))
      (fun _ a => io.Saves ∧
        a.sidebar = ⟨app.rooms, app.store.rooms.upsert v.room.id v.log⟩)
      (fun _ a => ¬io.Saves ∧ a.sidebar = app.sidebar) app := by
  simp only [inStore, Store.saveRoom, wp_zoom, wp_bind, wp_attempt, wp_modify]
  refine ⟨fun h0 => ⟨fun h1 => ⟨⟨h0, h1⟩, rfl⟩, fun e he => ?_⟩, fun e he => ?_⟩
  · exact ⟨fun hs => by simp [hs.2] at he, rfl⟩
  · exact ⟨fun hs => by simp [hs.1] at he, trivial⟩

/-- `save_room` and `show_room`, and then code that leaves the rooms alone. -/
theorem sidebar_file {v : VerifiedLog C} {k : Act PUnit} (hk : Frames App.sidebar k) (app : App) :
    wp (do
        inStore (Store.saveRoom io.saveRoom v.room.id v.log)
        showRoom env io v.room
        k)
      (fun _ a => a.sidebar = app.sidebar.file (if io.Saves then some v else none))
      (fun _ a => a.sidebar = app.sidebar.file (if io.Saves then some v else none)) app := by
  rw [wp_bind]
  refine wp_mono ?_ ?_ (sidebar_saveRoom v app)
  · rintro - a ⟨hs, ha⟩
    have hshow : Frames App.sidebar (do
        emit (.room v.room.id (RoomView.of env.me v.room))
        sendLog io v.room.id
        k) :=
      .bind (sidebar_emit _) fun _ => .bind (sidebar_sendLog _) fun _ => hk
    rw [if_pos hs]
    simp only [showRoom, insertRoom, bind_assoc]
    rw [wp_bind, wp_modify]
    have hheld : App.sidebar { a with rooms := a.rooms.upsert v.room.id v.room } =
        app.sidebar.file (some v) := by
      obtain ⟨hrooms, hstored⟩ := Sidebar.mk.inj ha
      simp only [App.sidebar, Sidebar.file, hrooms, hstored]
    exact wp_mono (fun _ _ h => h.trans hheld) (fun _ _ h => h.trans hheld) (hshow.wp _)
  · rintro - a ⟨hs, ha⟩
    rw [if_neg hs]
    exact ha

/-- `fetch_room` looks at nothing that the client holds. -/
theorem sidebar_fetchRoom (id : RoomId) (reply : Reply) (app : App) :
    wp (fetchRoom env io id reply)
      (fun _ a => a.sidebar = app.sidebar.file (fetched env io id reply))
      (fun _ a => a.sidebar = app.sidebar.file (fetched env io id reply)) app := by
  simp only [fetchRoom]
  rw [wp_bind, wp_lift]
  constructor
  · intro u hu
    have henv := ensure_eq_ok.mp hu
    rw [wp_bind, wp_lift]
    constructor
    · rintro ⟨room, entries⟩ hroom
      obtain ⟨hr, rfl⟩ := Hub.room_eq_ok env hroom
      let v : VerifiedLog C := ⟨entries, room, hr⟩
      have hf : fetched env io room.id reply = if io.Saves then some v else none := by
        rw [fetched, if_pos henv, hroom]
        exact congrArg (fun o => if io.Saves then o else none) v.ofLog_log
      rw [hf]
      exact sidebar_file (v := v) (sidebar_emit _) app
    · intro err herr
      rw [fetched, if_pos henv, herr]
      rfl
  · intro err herr
    have henv : ¬env.hub = true := fun he => by simp [ensure, he] at herr
    rw [fetched, if_neg henv]
    rfl

variable (env io) in
/-- A log that comes with the frame is taken only where the rule lets it. -/
theorem entitles_absorbRoom {log : List RoomEntry} (hlog : log ≠ []) (id : RoomId) (reply : Reply)
    (app : App) :
    wp (absorbRoom env io id log reply) (fun _ a => app.sidebar.Entitles C env.me a.sidebar)
      (fun _ a => app.sidebar.Entitles C env.me a.sidebar) app := by
  have hsame : app.sidebar.Entitles C env.me app.sidebar := Sidebar.entitles_refl _ _
  simp only [absorbRoom, if_neg hlog]
  rw [wp_bind, wp_lift]
  refine ⟨fun room hroom => ?_, fun err _ => hsame⟩
  obtain ⟨hr, rfl⟩ := judge_eq_ok.mp hroom
  let v : VerifiedLog C := ⟨log, room, hr⟩
  rw [wp_bind, wp_get, wp_bind, wp_lift, wp_ite]
  refine ⟨fun u hu => ⟨fun _ => hsame, fun _ => ?_⟩, fun err _ => hsame⟩
  have hrule : app.sidebar.Knows v.room.id ∨ env.me ∈ v.room.members := by
    refine (ensure_eq_ok.mp hu).imp_left fun hsome => .inl ?_
    exact Table.mem_keys.mpr (Option.isSome_iff_exists.mp hsome)
  have hfiled : app.sidebar.Entitles C env.me
      (app.sidebar.file (if io.Saves then some v else none)) := by
    split
    · exact Sidebar.entitles_file_iff.mpr hrule
    · exact hsame
  refine wp_mono (fun _ a ha => ?_) (fun _ a ha => ?_) (sidebar_file (v := v) (sidebar_emit _) app)
  · rw [ha]
    exact hfiled
  · rw [ha]
    exact hfiled

variable (env io) in
theorem sidebar_enterRoom (reply : Reply) (sender : Key) (id : RoomId) (app : App) :
    wp (enterRoom env io reply sender id)
      (fun _ a => a.sidebar = app.sidebar.file
        (if app.isMember id sender = true then none else fetched env io id reply))
      (fun _ a => a.sidebar = app.sidebar.file
        (if app.isMember id sender = true then none else fetched env io id reply)) app := by
  simp only [enterRoom, wp_bind, wp_get, wp_ite, wp_lift]
  constructor
  · intro hin
    rw [if_pos hin]
    exact ⟨fun _ _ => rfl, fun _ _ => rfl⟩
  · intro hout
    rw [if_neg hout]
    refine wp_mono (fun _ a ha => ?_) (fun _ _ ha => ha) (sidebar_fetchRoom id reply app)
    exact ⟨fun _ _ => ⟨fun _ _ => ha, fun _ _ => ha⟩, fun _ _ => ha⟩

/-- Where `accept` asks the hub, what it holds afterwards is up to the hub. -/
theorem sidebar_accept {reply reply' : Reply} {sender : Key} {frame : Frame} {id : RoomId}
    {app : App} (h : (RoomStep.accept io reply sender frame).fetches app = some (id, reply')) :
    (after (accept env io reply sender frame) app).sidebar =
      app.sidebar.file (fetched env io id reply') := by
  refine (wp_after (P := fun a : App =>
    a.sidebar = app.sidebar.file (fetched env io id reply'))).mp ?_
  cases frame with
  | roomUpdated room log =>
    cases log with
    | nil =>
      cases h
      simp only [accept, wp_bind, wp_ignore, wp_pure]
      exact (wp_after (P := fun a : App => a.sidebar = _)).mp (sidebar_fetchRoom id reply app)
    | cons e log => cases h
  | inRoom room op =>
    simp only [accept, Frame.id]
    cases hop : op.id with
    | none => simp [RoomStep.fetches, hop] at h
    | some opId =>
      simp only [RoomStep.fetches, hop, Option.ite_none_right_eq_some] at h
      obtain ⟨⟨hsender, hout⟩, h⟩ := h
      cases h
      rw [wp_bind, wp_lift]
      refine ⟨fun u _ => ?_, fun err herr => by simp [ensure, hsender] at herr⟩
      have henter := sidebar_enterRoom env io reply sender id app
      rw [if_neg hout] at henter
      rw [wp_bind]
      refine wp_mono (fun _ a ha => ?_) (fun _ _ ha => ha) henter
      rw [wp_bind]
      exact wp_mono (fun _ _ h => h.trans ha) (fun _ _ h => h.trans ha) ((sidebar_record _ _).wp a)
  | _ => cases h

/-- Filing an op is no business of the rooms. -/
theorem sidebar_file_op {sender : Key} {opId : MessageId} {m : Act PUnit} {peer : Key} {op : Frame}
    {app : App} (hm : opId.sender = sender →
      wp m (fun _ a => a.sidebar = app.sidebar) (fun _ a => a.sidebar = app.sidebar) app) :
    (after (do
      lift (ensure (opId.sender = sender) "op is minted under a key other than the sender's")
      m
      let fresh ← inStore (Store.record io.record peer op)
      pure (if fresh = true then some peer else none)) app).sidebar = app.sidebar := by
  refine (wp_after (P := fun a : App => a.sidebar = app.sidebar)).mp ?_
  rw [wp_bind, wp_lift]
  refine ⟨fun u hu => ?_, fun _ _ => rfl⟩
  rw [wp_bind]
  refine wp_mono (fun _ a ha => ?_) (fun _ _ ha => ha) (hm (ensure_eq_ok.mp hu))
  rw [wp_bind]
  exact wp_mono (fun _ _ h => h.trans ha) (fun _ _ h => h.trans ha) ((sidebar_record _ _).wp a)

/-- Where it does not ask the hub, the rule holds. -/
theorem entitles_accept {reply : Reply} {sender : Key} {frame : Frame} {app : App}
    (h : (RoomStep.accept io reply sender frame).fetches app = none) :
    app.sidebar.Entitles C env.me (after (accept env io reply sender frame) app).sidebar := by
  have hsame {h' : Sidebar} (hheld : h' = app.sidebar) : app.sidebar.Entitles C env.me h' :=
    hheld ▸ Sidebar.entitles_refl _ _
  cases frame with
  | roomUpdated room log =>
    cases log with
    | nil => cases h
    | cons e log =>
      have habsorb := entitles_absorbRoom env io (List.cons_ne_nil e log) room reply app
      refine (wp_after (P := fun a : App => app.sidebar.Entitles C env.me a.sidebar)).mp ?_
      simp only [accept, wp_bind, wp_ignore, wp_pure]
      exact (wp_after (P := fun a : App => app.sidebar.Entitles C env.me a.sidebar)).mp habsorb
  | inRoom room op =>
    simp only [accept, Frame.id]
    cases hop : op.id with
    | none => exact Sidebar.entitles_refl _ _
    | some opId =>
      refine hsame (sidebar_file_op fun hsender => ?_)
      have hmember : app.isMember room sender = true := by
        by_contra hout
        simp [RoomStep.fetches, hop, hsender, hout] at h
      have henter := sidebar_enterRoom env io reply sender room app
      rwa [if_pos hmember] at henter
  | hello nickname => exact Sidebar.entitles_refl _ _
  | chat id body replyTo => exact hsame (sidebar_file_op (m := pure .unit) fun _ => rfl)
  | edit id target body => exact hsame (sidebar_file_op (m := pure .unit) fun _ => rfl)
  | delete id target => exact hsame (sidebar_file_op (m := pure .unit) fun _ => rfl)
  | react id target emoji on => exact hsame (sidebar_file_op (m := pure .unit) fun _ => rfl)
  | file id name size hash => exact hsame (sidebar_file_op (m := pure .unit) fun _ => rfl)

end

theorem fetched_iff {env : Env C} {io : Io} {id : RoomId} {reply : Reply} {P : Room → Prop} :
    (∃ v, fetched env io id reply = some v ∧ P v.room) ↔
      env.hub = true ∧ io.Saves ∧
        ∃ room entries, Hub.room env id reply = .ok (room, entries) ∧ P room := by
  constructor
  · rintro ⟨v, hv, hP⟩
    obtain ⟨hroom, hs, -⟩ := fetched_eq_some hv
    refine ⟨?_, hs, v.room, v.log, hroom, hP⟩
    by_contra hhub
    rw [fetched, if_neg hhub] at hv
    cases hv
  · rintro ⟨hhub, hs, room, entries, hroom, hP⟩
    let v : VerifiedLog C := ⟨entries, room, (Hub.room_eq_ok env hroom).1⟩
    refine ⟨v, ?_, hP⟩
    rw [fetched, if_pos hhub, hroom]
    simp only [if_pos hs]
    exact v.ofLog_log

/-- The frame makes the client ask the hub for a room that it does not know, and the hub has a log
of it that this endpoint is not in. -/
def Pushes (env : Env C) (io : Io) (reply : Reply) (sender : Key) (frame : Frame) (app : App) :
    Prop :=
  ∃ id, (RoomStep.accept io reply sender frame).fetches app = some (id, reply) ∧
    ¬app.sidebar.Knows id ∧ env.hub = true ∧ io.Saves ∧
    ∃ room entries, Hub.room env id reply = .ok (room, entries) ∧ env.me ∉ room.members

/-- The room that is asked for is asked of the reply that comes. -/
theorem reply_of_fetches {io : Io} {reply reply' : Reply} {sender : Key} {frame : Frame}
    {app : App} {id : RoomId}
    (h : (RoomStep.accept io reply sender frame).fetches app = some (id, reply')) :
    reply' = reply := by
  cases frame with
  | roomUpdated room log =>
    cases log with
    | nil =>
      cases h
      rfl
    | cons e log => cases h
  | inRoom room op =>
    cases hop : op.id with
    | none => simp [RoomStep.fetches, hop] at h
    | some opId =>
      simp only [RoomStep.fetches, hop, Option.ite_none_right_eq_some] at h
      cases h.2
      rfl
  | _ => cases h

/-- Whatever state the client is in, a frame brings it no room that it is not a member of unless
the frame makes it fetch one. -/
theorem accept_entitles_iff (env : Env C) (io : Io) (reply : Reply) (sender : Key) (frame : Frame)
    (app : App) :
    app.sidebar.Entitles C env.me (after (accept env io reply sender frame) app).sidebar ↔
      ¬Pushes env io reply sender frame app := by
  cases h : (RoomStep.accept io reply sender frame).fetches app with
  | none =>
    refine iff_of_true (entitles_accept h) ?_
    rintro ⟨id, hid, -⟩
    rw [h] at hid
    cases hid
  | some x =>
    obtain ⟨id, reply'⟩ := x
    obtain rfl := reply_of_fetches h
    have hpushes : Pushes env io reply' sender frame app ↔ ¬app.sidebar.Knows id ∧
        ∃ v, fetched env io id reply' = some v ∧ env.me ∉ v.room.members := by
      rw [fetched_iff (P := fun room => env.me ∉ room.members), Pushes, h]
      simp
    rw [sidebar_accept h, hpushes]
    cases hv : fetched env io id reply' with
    | none => simp [Sidebar.file, Sidebar.entitles_refl]
    | some v =>
      have hid : v.room.id = id := (fetched_eq_some hv).2.2
      rw [Sidebar.entitles_file_iff, hid]
      simp only [Option.some.injEq, exists_eq_left', not_and_or, not_not]

theorem Sidebar.not_entitles {me : Key} {h h' : Sidebar} {v : VerifiedLog C}
    (hnew : ¬h.Knows v.room.id) (hstored : h'.stored.get v.room.id = some v.log)
    (hout : me ∉ v.room.members) : ¬h.Entitles C me h' := by
  intro hent
  obtain ⟨log, room, hlog, hroom, hme⟩ :=
    hent v.room.id hnew (.inr (Table.mem_keys.mpr ⟨_, hstored⟩))
  cases hstored.symm.trans hlog
  cases v.replays.verifyLog_eq.symm.trans hroom
  exact hout hme

namespace Sample

open Core.Sample

/-- 9, who is in no room, takes a frame from 3. -/
def stranger : App := App.start (Store.fresh (key 9))

def hearing (frame : Frame) : App :=
  after (accept (client 9 true) .ok (served kitchen) (key 3) frame) stranger

def kitchenLog : VerifiedLog crypto :=
  ⟨kitchen, kitchenRoom, replays_of_verifyLog verifyLog_kitchen⟩

end Sample

open Core.Sample Sample in
/-- 3 makes 9 take the kitchen from the hub: by naming it, and by an op that is then refused. -/
theorem stranger_is_given_kitchen :
    let named := hearing (.roomUpdated kitchenRoom.id [])
    let refused := hearing (.inRoom kitchenRoom.id (.chat ⟨key 3, 1, 5⟩ "come in" none))
    key 9 ∉ kitchenRoom.members ∧
    named.rooms.get kitchenRoom.id = some kitchenRoom ∧
    refused.rooms.get kitchenRoom.id = some kitchenRoom ∧
    ¬stranger.sidebar.Entitles crypto (key 9) named.sidebar ∧
    ¬stranger.sidebar.Entitles crypto (key 9) refused.sidebar := by
  have hnew : ¬stranger.sidebar.Knows kitchenLog.room.id := by
    rintro (h | h) <;> cases h
  have hout : key 9 ∉ kitchenLog.room.members := by decide +kernel
  refine ⟨hout, by decide +kernel, by decide +kernel, ?_, ?_⟩
  · exact Sidebar.not_entitles hnew (by decide +kernel) hout
  · exact Sidebar.not_entitles hnew (by decide +kernel) hout

end Wicara.Client
