import Wicara.Ui.Screen

namespace Wicara.Client

open Wicara.Core Lib Lib.Fallible Lib.Run Lib.Interleaving

section Carries

variable {C : Crypto} {env : Env C} {peer other : Key} {io : Io}

theorem screen_insertRoom (room : Room) : Frames (App.screen peer) (insertRoom env room) :=
  .bind (screen_modify (fun _ => rfl) fun _ => rfl) fun _ => screen_emit fun _ => rfl

theorem carries_emit {event : UiEvent} (h : ∀ entries, event.leaves peer entries = entries) :
    Moves (App.Carries peer) (emit event) :=
  carries_of_frames (screen_emit h)

theorem carries_showRoom (room : Room) : Moves (App.Carries peer) (showRoom env io room) :=
  .bind (carries_of_frames (screen_insertRoom room)) fun _ => carries_sendLog io _

theorem carries_saveRoom (sqlite : Sqlite) (id : RoomId) (log : List RoomEntry) :
    Moves (App.Carries peer) (inStore (Store.saveRoom sqlite id log)) :=
  carries_of_frames (screen_saveRoom sqlite id log)

theorem carries_fetchRoom (id : RoomId) (reply : Reply) :
    Moves (App.Carries peer) (fetchRoom env io id reply) :=
  .bind (moves_lift _) fun _ => .bind (moves_lift _) fun _ => .bind (carries_saveRoom _ _ _)
    fun _ => .bind (carries_showRoom _) fun _ => carries_emit fun _ => rfl

theorem carries_absorbRoom (id : RoomId) (log : List RoomEntry) (reply : Reply) :
    Moves (App.Carries peer) (absorbRoom env io id log reply) := by
  refine .ite (carries_fetchRoom id reply) (.bind (moves_lift _) fun room => ?_)
  refine .bind moves_get fun app => .bind (moves_lift _) fun _ => .ite (moves_pure _) ?_
  exact .bind (carries_saveRoom _ _ _) fun _ => .bind (carries_showRoom _) fun _ =>
    carries_emit fun _ => rfl

theorem carries_enterRoom (reply : Reply) (sender : Key) (room : RoomId) :
    Moves (App.Carries peer) (enterRoom env io reply sender room) := by
  have hme : Moves (App.Carries peer) (do
      let app ← get
      lift (ensure (app.isMember room env.me = true) "op for a room this endpoint is not in")) :=
    .bind moves_get fun _ => moves_lift _
  refine .bind moves_get fun app => .ite hme (.bind (carries_fetchRoom _ _) fun _ => ?_)
  exact .bind moves_get fun _ => .bind (moves_lift _) fun _ => hme

theorem carries_deliverTo (frame : Frame) :
    Moves (App.Carries peer) (deliverTo env other frame) := by
  have hmodify {g : App → App} (hstore : ∀ app, (g app).store = app.store)
      (hevents : ∀ app, (g app).events = app.events) :
      Moves (App.Carries peer) (modify g : Act PUnit) :=
    carries_of_frames (screen_modify hstore hevents)
  refine .bind (hmodify (fun _ => rfl) fun _ => rfl) fun _ => .bind moves_get fun app => ?_
  split
  · refine .bind (hmodify (fun _ => rfl) fun _ => rfl) fun _ => ?_
    split
    · exact carries_emit fun _ => rfl
    · exact moves_pure _
  · split
    · refine .bind ?_ fun _ => hmodify (fun _ => rfl) fun _ => rfl
      split
      · exact carries_emit fun _ => rfl
      · exact moves_pure _
    · refine .bind ?_ fun _ => carries_emit fun _ => rfl
      split
      · exact carries_emit fun _ => rfl
      · exact moves_pure _

theorem carries_deliverEach (wrapped : Frame) (members : List Key) :
    Moves (App.Carries peer) (Dispatch.deliverEach env wrapped members) := by
  induction members with
  | nil => exact moves_pure _
  | cons member members ih =>
    simp only [Dispatch.deliverEach]
    exact .ite (.bind (carries_deliverTo _) fun _ => ih) ih

theorem carries_deliver (conversation : Key) (frame : Frame) :
    Moves (App.Carries peer) (Dispatch.deliver env conversation frame) := by
  refine .bind moves_get fun app => ?_
  split
  · exact carries_deliverTo _
  · exact .ite (carries_emit fun _ => rfl) (carries_deliverEach _ _)

theorem carries_notifyEach (id : RoomId) (entries : List RoomEntry) (members : List Key) :
    Moves (App.Carries peer) (notifyEach env id entries members) := by
  induction members with
  | nil => exact moves_pure _
  | cons member members ih =>
    simp only [notifyEach]
    exact .ite (.bind (carries_deliverTo _) fun _ => ih) ih

theorem carries_append (reply : Reply) (now : UInt64) (room : Option RoomId) (op : RoomOp) :
    Moves (App.Carries peer) (append env io reply now room op) := by
  have hknown : Moves (App.Carries peer) (knownLog io room) := by
    cases room with
    | none => exact moves_pure _
    | some id =>
      refine .bind (moves_attempt _) fun _ => .bind moves_get fun app => ?_
      split
      · exact moves_pure _
      · exact moves_lift (.error _)
  have hpublish (verified : Room) : Moves (App.Carries peer) (publishRoom env io reply verified) :=
    .bind (carries_showRoom _) fun _ => .ite (moves_lift _) (moves_pure _)
  exact .bind hknown fun _ => .bind (moves_lift _) fun ext => .bind (carries_saveRoom _ _ _)
    fun _ => .bind (hpublish _) fun _ => carries_notifyEach _ _ _

variable (env io) in
/-- Every command about a room is an `append`, and what the user is told of its failure. -/
theorem roomCommand_eq (reply : Reply) (now : UInt64) (command : RoomCommand) :
    ∃ room op, roomCommand env io reply now command =
      rescue (append env io reply now room op) fun err => status s!"room: {err}" := by
  cases command with
  | create name =>
    refine ⟨none, .create name, funext fun app => ?_⟩
    simp only [roomCommand, rescue]
    cases (append env io reply now none (.create name)).run app <;> rfl
  | invite room member =>
    refine ⟨some room, .invite member, funext fun app => ?_⟩
    simp only [roomCommand, rescue]
    cases (append env io reply now (some room) (.invite member)).run app <;> rfl
  | kick room member =>
    refine ⟨some room, .kick member, funext fun app => ?_⟩
    simp only [roomCommand, rescue]
    cases (append env io reply now (some room) (.kick member)).run app <;> rfl
  | leave room =>
    refine ⟨some room, .leave, funext fun app => ?_⟩
    simp only [roomCommand, rescue]
    cases (append env io reply now (some room) .leave).run app <;> rfl

theorem carries_roomCommand (reply : Reply) (now : UInt64) (command : RoomCommand) :
    Moves (App.Carries peer) (roomCommand env io reply now command) := by
  obtain ⟨room, op, heq⟩ := roomCommand_eq env io reply now command
  rw [heq]
  exact (carries_append _ _ _ _).rescue fun _ => carries_emit fun _ => rfl

theorem carries_loadEach (refold : RoomId → Option String)
    (stored : List (RoomId × List RoomEntry)) :
    Moves (App.Carries peer) (loadEach env io refold stored) := by
  induction stored with
  | nil => exact moves_pure _
  | cons row stored ih =>
    have hrest : Moves (App.Carries peer) (do
        if env.hub then modify fun app => { app with fetching := app.fetching ++ [row.1] }
        loadEach env io refold stored) :=
      .ite (.bind (carries_of_frames (screen_modify (fun _ => rfl) fun _ => rfl)) fun _ => ih) ih
    simp only [loadEach]
    split
    · exact .ite (.bind (carries_showRoom _) fun _ => hrest) hrest
    · exact hrest

variable (env) in
theorem carries_loadRooms (refold : RoomId → Option String) :
    Moves (App.Carries peer) (loadRooms env io refold) :=
  .bind (moves_attempt _) fun _ => .bind moves_get fun _ => carries_loadEach _ _

variable (peer) in
theorem carries_announcePeer (names : Option String × Option String) (key : Key) :
    Moves (App.Carries peer) (Dispatch.announcePeer names key) :=
  .bind moves_get fun _ => carries_emit fun _ => rfl

end Carries

section Trails

variable {C : Crypto} {env : Env C} {peer other : Key} {io : Io} {a b : App}

/-- What is shown before is shown after, but for what is to be sent yet. -/
def App.Trails (peer : Key) (unsent : Option Key) (a b : App) : Prop :=
  unsent ≠ some peer → a.Carries peer b

theorem App.Carries.trails (h : a.Carries peer b) (unsent : Option Key) :
    a.Trails peer unsent b := fun _ => h

theorem App.Trails.carries (h : a.Trails peer none b) : a.Carries peer b := h (by simp)

theorem App.Trails.trans {unsent : Option Key} {c : App} (h : a.Trails peer unsent b)
    (h' : b.Carries peer c) : a.Trails peer unsent c := fun hne hshown => h' (h hne hshown)

theorem carries_of_sheet {s : Store} (h : s.sheet peer = a.store.sheet peer) :
    a.Carries peer { a with store := s } := by
  simp only [Store.sheet, Prod.mk.injEq] at h
  exact fun hshown => hshown.of_screen (by simp only [App.screen, h]; rfl)

variable (peer) in
/-- A conversation that is sent is shown, whatever it was. -/
theorem wp_sendLog_shows (io : Io) (other : Key) (b : App) :
    wp (sendLog io other) (fun _ c => b.Carries peer c ∧ (other = peer → c.Shows peer))
      (fun _ _ => io.history ≠ none) b := by
  refine wp_iff.mpr ⟨fun u c hrun => ⟨?_, ?_⟩, fun err c hrun => ?_⟩
  · exact (wp_iff.mp ((carries_sendLog io other).wp b)).1 u c hrun
  · rintro rfl
    exact (wp_iff.mp (shows_sendLog io other b)).1 u c hrun
  · exact ((wp_iff.mp (shows_sendLog io other b)).2 err c hrun).1

theorem wp_sendLog_trails (hio : io.history = none) (h : a.Trails peer (some other) b) :
    wp (sendLog io other) (fun _ c => a.Carries peer c) (fun _ _ => False) b := by
  refine wp_mono (fun _ c hsent hshown => ?_) (fun _ _ hfails => hfails hio)
    (wp_sendLog_shows peer io other b)
  by_cases heq : other = peer
  · exact hsent.2 heq
  · exact hsent.1 (h (fun hsome => heq (Option.some.inj hsome)) hshown)

variable (peer other) in
theorem wp_record_trails (sqlite : Sqlite) (frame : Frame) (a : App) :
    wp (inStore (Store.record sqlite other frame))
      (fun fresh b => a.Trails peer (if fresh then some other else none) b)
      (fun _ b => a.Carries peer b) a := by
  simp only [inStore, wp_zoom]
  refine wp_mono (fun fresh s h hne => carries_of_sheet (h fun heq => ?_))
    (fun _ s h => carries_of_sheet h) (sheet_record sqlite other frame a.store)
  subst heq
  cases fresh with
  | false => rfl
  | true => exact absurd rfl hne

/-- What `accept` takes it reports, for the conversation to be sent. -/
theorem wp_accept_trails (reply : Reply) (sender : Key) (frame : Frame) (a : App) :
    wp (accept env io reply sender frame) (fun conversation b => a.Trails peer conversation b)
      (fun _ b => a.Carries peer b) a := by
  have hfile (conversation : Key) (op : Frame) {b : App} (hb : a.Carries peer b) : wp (do
      let fresh ← inStore (Store.record io.record conversation op)
      pure (if fresh = true then some conversation else none))
      (fun conversation c => a.Trails peer conversation c) (fun _ c => a.Carries peer c) b := by
    rw [wp_bind]
    refine wp_mono (fun fresh c h => ?_) (fun _ c h => Trans.trans hb h)
      (wp_record_trails peer _ _ _ b)
    exact fun hne hshown => h hne (hb hshown)
  unfold accept
  split
  · simp only [wp_bind, wp_ignore, wp_pure]
    exact fun _ => carries_absorbRoom _ _ _ a
  · split
    · exact fun _ => id
    · rw [wp_bind, wp_lift]
      refine ⟨fun _ _ => ?_, fun _ _ => id⟩
      split
      · rw [wp_bind]
        exact wp_mono (fun _ b hb => hfile _ _ hb) (fun _ _ h => h)
          ((carries_enterRoom _ _ _).wp a)
      · exact hfile _ _ id

/-- What a session does with a frame. -/
theorem carries_accept_call (hio : io.history = none) (reply : Reply) (sender : Key)
    (frame : Frame) (w : World) :
    w.app.Carries peer (after ((FileCall.accept io reply sender frame).run env) w).app := by
  rw [FileCall.run, inApp, after_zoom, after_ignore,
    ← wp_after (P := fun b : App => w.app.Carries peer b), wp_bind]
  refine wp_mono (fun conversation b h => ?_) (fun _ _ h => h)
    (wp_accept_trails reply sender frame w.app)
  cases conversation with
  | none => exact h.carries
  | some other => exact wp_mono (fun _ _ h => h) (fun _ _ h => h.elim) (wp_sendLog_trails hio h)

end Trails

/-- What there is to see of the client in this world is shown after as before. -/
abbrev World.Carries (peer : Key) (w w' : World) : Prop := w.app.Carries peer w'.app

instance (peer : Key) : Std.Refl (World.Carries peer) := ⟨fun _ h => h⟩

instance (peer : Key) : Trans (World.Carries peer) (World.Carries peer) (World.Carries peer) :=
  ⟨fun hab hbc h => hbc (hab h)⟩

section World

variable {C : Crypto} {env : Env C} {alphanumeric : Char → Bool} {peer other : Key} {io : Io}

theorem carries_inApp {m : Act α} (h : Moves (App.Carries peer) m) :
    Moves (World.Carries peer) (inApp m) :=
  moves_zoom fun w => h w.app

theorem wp_refold_trails (hio : io.history = none) {a : App} {w : World}
    (h : a.Trails peer (some other) w.app) :
    wp (refold io other) (fun _ w' => a.Carries peer w'.app) (fun _ _ => False) w := by
  rw [refold, inApp, wp_zoom]
  exact wp_sendLog_trails hio h

theorem wp_recordHeader_trails (header : Header) (w : World) :
    wp (recordHeader io other header)
      (fun _ w' => w.app.Trails peer (some other) w'.app)
      (fun _ w' => w.app.Carries peer w'.app) w := by
  simp only [recordHeader, inApp, wp_bind, wp_zoom, wp_pure]
  refine wp_mono (fun fresh b h => ?_) (fun _ _ h => h)
    (wp_record_trails peer other _ _ w.app)
  cases fresh with
  | true => exact h
  | false => exact h.carries.trails _

variable (peer) in
theorem carries_placeFile (setting : Sqlite) (origin : Origin) (id : MessageId) (path : String) :
    Moves (World.Carries peer) (placeFile setting origin id path) :=
  .bind (carries_inApp (carries_of_frames (screen_setSetting _ _ _))) fun _ =>
    moves_modify fun _ h => h

theorem wp_placeFile_ok {setting : Sqlite} (hplace : setting 0 = none) {origin : Origin}
    {id : MessageId} {path : String} {a : App} {unsent : Option Key} {w : World}
    (h : a.Trails peer unsent w.app) :
    wp (placeFile setting origin id path) (fun _ w' => a.Trails peer unsent w'.app)
      (fun _ _ => False) w := by
  have hcarries := (carries_placeFile peer setting origin id path).wp w
  simp only [placeFile, inApp, inStore, Store.setFilePath, Store.setSetting, wp_bind, wp_zoom,
    wp_attempt, wp_modify, hplace] at hcarries ⊢
  exact ⟨fun _ => h.trans (hcarries.1 trivial), by simp⟩

theorem carries_receiveChunks (header : Header) (got : List UInt8) (chunks : List Chunk) :
    Moves (App.Carries peer) (receiveChunks header got chunks) := by
  induction chunks generalizing got with
  | nil => exact moves_pure _
  | cons chunk chunks ih =>
    cases chunk with
    | failed err => exact moves_lift (.error err)
    | data bytes write =>
      exact .ite (moves_pure _) (.bind (moves_lift _) fun _ => .bind (moves_attempt _) fun _ =>
        .bind (carries_emit fun _ => rfl) fun _ => ih _)

theorem carries_transfer (io : SendIo) (header : Header) :
    Moves (World.Carries peer) (transfer io header) :=
  moves_transfer (fun _ _ => id) (fun _ => carries_inApp (carries_emit fun _ => rfl))
    (carries_inApp (carries_emit fun _ => rfl))

theorem carries_download (io : ReceiveIo) (header : Header) :
    Moves (World.Carries peer) (download env alphanumeric io header) :=
  .bind (moves_lift _) fun _ => .bind (moves_modify fun _ => id) fun _ =>
    carries_inApp (.bind (carries_receiveChunks _ _ _) fun _ => .bind (moves_attempt _) fun _ =>
      .bind (moves_lift _) fun _ => moves_pure _)

theorem carries_mintHeader (io : SendIo) (path : String) :
    Moves (World.Carries peer) (mintHeader io path) :=
  .bind (moves_modify fun _ => id) fun _ => .bind (moves_lift _) fun _ =>
    .bind (carries_inApp (carries_of_frames (screen_nextId _))) fun _ => moves_pure _

/-- A file that is sent is shown as soon as it can be said where it is. -/
theorem carries_send {io : SendIo} (hio : io.io.history = none) (hplace : io.setting 0 = none)
    (other : Key) (path : String) : Moves (World.Carries peer) (send io other path) := by
  refine .bind (carries_mintHeader io path) fun header => moves_iff.mpr fun w => ?_
  rw [wp_bind]
  refine wp_mono (fun _ w₁ h₁ => ?_) (fun _ _ h => h) (wp_recordHeader_trails header w)
  rw [wp_bind]
  refine wp_mono (fun _ w₂ h₂ => ?_) (fun _ _ h => h.elim) (wp_placeFile_ok hplace h₁)
  rw [wp_bind]
  refine wp_mono (fun _ w₃ h₃ => ?_) (fun _ _ h => h.elim) (wp_refold_trails hio h₂)
  exact wp_mono (fun _ _ h hshown => h (h₃ hshown)) (fun _ _ h hshown => h (h₃ hshown))
    ((carries_transfer io header).wp w₃)

theorem carries_receive {io : ReceiveIo} (hio : io.io.history = none) (other : Key) :
    Moves (World.Carries peer) (receive env alphanumeric io other) := by
  have hrefold : Moves (World.Carries peer) (refold io.io other) :=
    carries_inApp (carries_sendLog _ _)
  have hread (w : World) : wp (readHeader io other)
      (fun _ w' => w.app.Trails peer (some other) w'.app)
      (fun _ w' => w.app.Carries peer w'.app) w := by
    simp only [readHeader, wp_bind, wp_lift, wp_pure]
    exact ⟨fun header _ => wp_recordHeader_trails header w, fun _ _ => id⟩
  have hrest (header : Header) : Moves (World.Carries peer) (do
      let got ← download env alphanumeric io header
      placeFile io.setting .received header.id (landing env alphanumeric header)
      announce env alphanumeric io other header got) :=
    .bind (carries_download io header) fun _ => .bind (carries_placeFile _ _ _ _ _) fun _ =>
      .bind hrefold fun _ => carries_inApp (carries_emit fun _ => rfl)
  refine moves_iff.mpr fun w => ?_
  rw [receive, wp_bind]
  refine wp_mono (fun header w₁ h₁ => ?_) (fun _ _ h => h) (hread w)
  rw [wp_bind]
  refine wp_mono (fun _ w₂ h₂ => ?_) (fun _ _ h => h.elim) (wp_refold_trails hio h₁)
  exact wp_mono (fun _ _ h hshown => h (h₂ hshown)) (fun _ _ h hshown => h (h₂ hshown))
    ((hrest header).wp w₂)

end World

/-- What has been changed of a conversation and is to be sent yet. -/
def DispatchPc.unsent : DispatchPc → Option Key
  | .refold _ peer _ | .cleared _ peer => some peer
  | _ => none

/-- How many sections of its command are left at most. -/
def DispatchPc.left : DispatchPc → Nat
  | .record _ _ _ => 3
  | .refold _ _ _ | .forgetRoom _ _ | .wipeRooms _ => 2
  | .announce _ _ | .deliver _ _ | .cleared _ _ | .forgetStore _ _ | .wipeStore _ => 1
  | .next | .returned => 0

/-- No log that is sent is one that cannot be read. -/
def DispatchPc.Reads : DispatchPc → Prop
  | .record x _ _ | .refold x _ _ | .cleared x _ => x.remove.io.history = none
  | _ => True

namespace Dispatch

variable {C : Crypto} {env : Env C} {peer other : Key} {x : CommandIo} {a : App} {w : World}

variable (peer) in
/-- Where a section leads that is one of so many, and what it leaves unsent. -/
def Leads (n : Nat) (a : App) (pc : DispatchPc) (w : World) : Prop :=
  pc.Reads ∧ pc.left ≤ n ∧ a.Trails peer pc.unsent w.app

theorem leads_next {n : Nat} (h : a.Carries peer w.app) : Leads peer n a .next w :=
  ⟨trivial, Nat.zero_le n, h.trails _⟩

/-- Whatever goes wrong is said, and the loop goes on. -/
theorem wp_orWarn_leads {n : Nat} {text : String → String} {m : FileAct DispatchPc}
    (hm : wp m (Leads peer n a) (fun _ w' => a.Carries peer w'.app) w) :
    wp (orWarn text m) (Leads peer n a) (fun _ w' => a.Carries peer w'.app) w := by
  rw [orWarn, wp_rescue]
  refine wp_mono (fun _ _ h => h) (fun err w' h => ?_) hm
  have hwarn : Moves (World.Carries peer) (inApp (warn (text err))) :=
    carries_inApp (carries_emit fun _ => rfl)
  rw [wp_bind]
  exact wp_mono (fun _ _ h' => leads_next fun hshown => h' (h hshown))
    (fun _ _ h' hshown => h' (h hshown)) (hwarn.wp w')

/-- What changes nothing that is shown may lead anywhere. -/
theorem wp_leads_of_carries {n : Nat} {m : FileAct α} {pc : DispatchPc}
    (hm : Moves (World.Carries peer) m) (hreads : pc.Reads) (hleft : pc.left ≤ n)
    (h : a.Carries peer w.app) :
    wp (m >>= fun _ => pure pc) (Leads peer n a) (fun _ w' => a.Carries peer w'.app) w := by
  rw [wp_bind]
  exact wp_mono
    (fun _ _ h' => ⟨hreads, hleft, App.Carries.trails (fun hshown => h' (h hshown)) _⟩)
    (fun _ _ h' hshown => h' (h hshown)) (hm.wp w)

theorem wp_preview_leads {n : Nat} (read : Store → Except String String)
    (h : a.Carries peer w.app) :
    wp (preview read) (Leads peer n a) (fun _ w' => a.Carries peer w'.app) w := by
  simp only [preview, inApp, status, emit, wp_zoom, wp_bind, wp_get, wp_lift, wp_modify, wp_pure]
  refine ⟨fun text _ => leads_next fun hshown => ?_, fun _ _ => h⟩
  have hemit : Moves (App.Carries peer) (emit (.status text false)) := carries_emit fun _ => rfl
  exact hemit w.app (h hshown)

/-- What is left of a conversation that was dropped is sent yet. -/
theorem trails_of_drops {s : Store} (h : a.store.Drops other s) :
    a.Trails peer (some other) { a with store := s } := by
  intro hne
  refine carries_of_sheet ?_
  rw [h.sheet peer, if_neg fun heq => hne (congrArg some heq)]

theorem carries_forgetStore (x : CommandIo) (other : Key) :
    Moves (World.Carries peer) (forgetStore x other) := by
  refine moves_iff.mpr fun w => ?_
  simp only [forgetStore, inApp, inStore, unlinkAll, status, emit, wp_bind, wp_zoom, wp_modify]
  refine wp_mono (fun _ s h hshown => ?_) (fun _ s h => ?_)
    (drops_forget x.remove.removal x.remove.io.orders other [nickKey other, aliasKey other]
      w.app.store)
  · have hsheet := h.sheet peer
    by_cases heq : other = peer
    · rw [if_pos heq] at hsheet
      refine shows_nil (congrArg Prod.snd hsheet) ?_
      simp only [App.seen, List.foldl_append, List.foldl_cons, List.foldl_nil, UiEvent.leaves,
        if_pos heq]
    · rw [if_neg heq, Store.sheet, Store.sheet, Prod.mk.injEq] at hsheet
      refine hshown.of_screen ?_
      simp only [App.screen, hsheet, App.seen, List.foldl_append, List.foldl_cons, List.foldl_nil,
        UiEvent.leaves, if_neg heq]
  · rw [h]
    exact id

theorem carries_wipeStore (x : CommandIo) : Moves (World.Carries peer) (wipeStore x) := by
  refine moves_iff.mpr fun w => ?_
  simp only [wipeStore, inApp, inStore, unlinkAll, status, emit, wp_bind, wp_zoom, wp_modify]
  refine wp_mono (fun _ s h _ => ?_) (fun _ s h => ?_)
    (sheet_wipe peer x.remove.removal x.remove.io.orders w.app.store)
  · refine shows_nil (congrArg Prod.snd h) ?_
    simp only [App.seen, List.foldl_append, List.foldl_cons, List.foldl_nil, UiEvent.leaves]
  · rw [h]
    exact id

variable (peer w) in
/-- What a command begins with. -/
theorem wp_begin_leads (hx : x.remove.io.history = none) (command : UiCommand) :
    wp (begin command x) (Leads peer 3 w.app) (fun _ w' => w.app.Carries peer w'.app) w := by
  have hmodify {g : App → App} (hstore : ∀ app, (g app).store = app.store)
      (hevents : ∀ app, (g app).events = app.events) :
      Moves (World.Carries peer) (inApp (modify g)) :=
    carries_inApp (carries_of_frames (screen_modify hstore hevents))
  have hissue (other : Key) (frame : MessageId → Frame) : wp (issue x other frame)
      (Leads peer 3 w.app) (fun _ w' => w.app.Carries peer w'.app) w := by
    have hmint : Moves (World.Carries peer) (inApp (inStore (Store.nextId x.now))) :=
      carries_inApp (carries_of_frames (screen_nextId _))
    rw [issue, wp_bind]
    exact wp_mono (fun _ _ h => ⟨hx, le_rfl, App.Carries.trails h _⟩) (fun _ _ h => h)
      (hmint.wp w)
  cases command with
  | quit => exact ⟨trivial, Nat.zero_le _, fun _ => id⟩
  | sendFile other path =>
    simp only [begin, inApp, wp_zoom, wp_bind, wp_get, wp_ite, wp_pure]
    refine ⟨fun _ => leads_next id, fun _ => ?_⟩
    have hstatus : Moves (App.Carries peer)
        (status "attachments need a live connection to that peer") := carries_emit fun _ => rfl
    exact leads_next (hstatus w.app)
  | name other aliased =>
    exact wp_orWarn_leads (wp_leads_of_carries
      (carries_inApp (carries_of_frames (screen_setSetting _ _ _))) trivial
      (by simp [DispatchPc.left]) id)
  | forget other confirm =>
    cases confirm with
    | true =>
      exact wp_leads_of_carries (hmodify (fun _ => rfl) fun _ => rfl) trivial
        (by simp [DispatchPc.left]) id
    | false => exact wp_orWarn_leads (wp_preview_leads _ id)
  | clear other confirm =>
    cases confirm with
    | true =>
      refine wp_orWarn_leads ?_
      simp only [inApp, inStore, unlinkAll, wp_bind, wp_zoom, wp_modify, wp_pure]
      refine wp_mono (fun _ s h => ⟨hx, by simp [DispatchPc.left], trails_of_drops h⟩)
        (fun _ s h => ?_) (drops_clear _ _ other w.app.store)
      rw [h]
      exact id
    | false => exact wp_orWarn_leads (wp_preview_leads _ id)
  | wipe confirm =>
    cases confirm with
    | true =>
      exact wp_leads_of_carries (hmodify (fun _ => rfl) fun _ => rfl) trivial
        (by simp [DispatchPc.left]) id
    | false => exact wp_orWarn_leads (wp_preview_leads _ id)
  | connect other => exact leads_next id
  | room command => exact leads_next id
  | nick nick =>
    have hnick : Moves (App.Carries peer) (do
        ignore (rescue (inStore (Store.setSetting x.setting "nickname" nick)) fun err =>
          warn s!"could not save nick: {err}")
        modify fun app => { app with outbound := app.outbound ++ [(none, .hello nick)] }) :=
      .bind (((carries_of_frames (screen_setSetting _ _ _)).rescue fun _ =>
        carries_emit fun _ => rfl).ignore) fun _ =>
          carries_of_frames (screen_modify (fun _ => rfl) fun _ => rfl)
    have hwp := hnick.wp w.app
    simp only [wp_bind] at hwp
    simp only [begin, inApp, wp_zoom, wp_bind, wp_pure]
    exact wp_mono (fun _ _ h => wp_mono (fun _ _ h => leads_next h) (fun _ _ h => h) h)
      (fun _ _ h => h) hwp
  | send other body replyTo => exact hissue _ _
  | edit other target body => exact hissue _ _
  | delete other target => exact hissue _ _
  | react other target emoji on => exact hissue _ _

variable (env) in
/-- How a command goes on. -/
theorem wp_go_leads {n : Nat} {pc : DispatchPc} (h : Leads peer (n + 1) a pc w) :
    wp (go env pc) (Leads peer n a) (fun _ w' => a.Carries peer w'.app) w := by
  obtain ⟨hreads, hleft, htrails⟩ := h
  cases pc with
  | next => exact ⟨trivial, Nat.zero_le n, htrails⟩
  | returned => exact ⟨trivial, Nat.zero_le n, htrails⟩
  | announce x other =>
    exact wp_leads_of_carries (carries_inApp (carries_announcePeer _ _ _)) trivial (Nat.zero_le n)
      htrails.carries
  | record x other frame =>
    refine wp_orWarn_leads ?_
    simp only [inApp, wp_bind, wp_zoom, wp_pure]
    refine wp_mono (fun fresh b h => ⟨hreads, Nat.le_of_succ_le_succ hleft, ?_⟩)
      (fun _ _ h hshown => h (htrails.carries hshown))
      (wp_record_trails peer other x.remove.io.record frame w.app)
    intro hne hshown
    refine h (fun heq => hne ?_) (htrails.carries hshown)
    cases fresh with
    | true => exact heq
    | false => cases heq
  | refold x other frame =>
    refine wp_orWarn_leads ?_
    simp only [inApp, wp_bind, wp_zoom, wp_pure]
    exact wp_mono (fun _ _ h => ⟨trivial, Nat.le_of_succ_le_succ hleft, h.trails _⟩)
      (fun _ _ h => h.elim) (wp_sendLog_trails hreads htrails)
  | deliver other frame =>
    exact wp_leads_of_carries (carries_inApp (carries_deliver _ _)) trivial (Nat.zero_le n)
      htrails.carries
  | cleared x other =>
    simp only [go, inApp, wp_bind, wp_zoom, wp_ignore, wp_pure]
    have hsent : a.Carries peer (after (sendLog x.remove.io other) w.app) :=
      wp_after.mp (wp_mono (fun _ _ h => h) (fun _ _ h => h.elim)
        (wp_sendLog_trails hreads htrails))
    have hstatus : Moves (App.Carries peer)
        (status s!"conversation emptied — {x.remove.gone} file(s) deleted") :=
      carries_emit fun _ => rfl
    exact wp_mono (fun _ _ h => leads_next fun hshown => h (hsent hshown))
      (fun _ _ h hshown => h (hsent hshown)) (hstatus.wp _)
  | forgetRoom x other =>
    exact wp_leads_of_carries (carries_inApp (carries_of_frames
      (screen_modify (fun _ => rfl) fun _ => rfl))) trivial (Nat.le_of_succ_le_succ hleft)
        htrails.carries
  | forgetStore x other =>
    exact wp_orWarn_leads (wp_leads_of_carries (carries_forgetStore x other) trivial
      (Nat.zero_le n) htrails.carries)
  | wipeRooms x =>
    exact wp_leads_of_carries (carries_inApp (carries_of_frames
      (screen_modify (fun _ => rfl) fun _ => rfl))) trivial (Nat.le_of_succ_le_succ hleft)
        htrails.carries
  | wipeStore x =>
    exact wp_orWarn_leads (wp_leads_of_carries (carries_wipeStore x) trivial
      (Nat.zero_le n) htrails.carries)

theorem alone_returned (n : Nat) (queue : List (UiCommand × CommandIo)) (w : World) :
    alone (advance env) n ⟨queue, .returned⟩ w = (⟨queue, .returned⟩, w) := by
  induction n with
  | zero => rfl
  | succ n ih => exact ih

theorem alone_carries (n : Nat) {pc : DispatchPc} (h : Leads peer n a pc w) :
    a.Carries peer (alone (advance env) n ⟨[], pc⟩ w).2.app := by
  induction n generalizing pc w with
  | zero =>
    obtain ⟨-, hleft, htrails⟩ := h
    cases pc with
    | next => exact htrails.carries
    | returned => exact htrails.carries
    | _ => cases hleft
  | succ n ih =>
    have hnext : next env ⟨[], pc⟩ = (do
        let pc ← go env pc
        pure ⟨[], pc⟩) := by
      cases pc <;> rfl
    obtain ⟨pc', w', hrun, hleads⟩ | ⟨err, w', hrun, hcarries⟩ := wp_cases (wp_go_leads env h)
    · have hadvance : advance env ⟨[], pc⟩ w = (⟨[], pc'⟩, w') := by
        simp only [advance, hnext, EStateM.run_bind, hrun, EStateM.run_pure]
      simp only [alone, hadvance]
      exact ih hleads
    · have hadvance : advance env ⟨[], pc⟩ w = (⟨[], .returned⟩, w') := by
        simp only [advance, hnext, EStateM.run_bind, hrun]
      rw [alone, hadvance, alone_returned]
      exact hcarries

/-- A command that is carried out to its end leaves everything shown. -/
theorem carries_command (hx : x.remove.io.history = none) (command : UiCommand) (w : World) :
    World.Carries peer w (alone (advance env) 4 ⟨[(command, x)], .next⟩ w).2 := by
  have hnext : next env ⟨[(command, x)], .next⟩ = (do
      let pc ← begin command x
      pure ⟨[], pc⟩) := rfl
  obtain ⟨pc, w', hrun, hleads⟩ | ⟨err, w', hrun, hcarries⟩ :=
    wp_cases (wp_begin_leads peer w hx command)
  · have hadvance : advance env ⟨[(command, x)], .next⟩ w = (⟨[], pc⟩, w') := by
      simp only [advance, hnext, EStateM.run_bind, hrun, EStateM.run_pure]
    rw [alone, hadvance]
    exact alone_carries 3 hleads
  · have hadvance : advance env ⟨[(command, x)], .next⟩ w = (⟨[(command, x)], .returned⟩, w') := by
      simp only [advance, hnext, EStateM.run_bind, hrun]
    rw [alone, hadvance, alone_returned]
    exact hcarries

end Dispatch

/-- The conversations that a drain has put something in and that are to be sent yet. -/
def MailboxPc.unsent : MailboxPc → List Key
  | .rows _ sofar => sofar.touched
  | .refold touched _ => touched
  | _ => []

namespace Mailbox

variable {C : Crypto} {env : Env C} {m : Mail} {peer : Key} {x : MailboxIo} {a b : App}

theorem carries_takeRow (row : Int) (envelope : Envelope) (mail : List (Int × Envelope))
    (round : Round) (h : peer ∉ round.touched → a.Carries peer b) :
    wp (takeRow env m x row envelope mail round)
      (fun pc c => peer ∉ pc.unsent → a.Carries peer c) (fun _ _ => False) b := by
  have habsorb : wp (absorb env m x.io x.reply envelope)
      (fun conversation c => b.Trails peer conversation c) (fun _ c => b.Carries peer c) b := by
    simp only [absorb, wp_bind, wp_lift]
    exact ⟨fun _ _ => ⟨fun frame _ => wp_accept_trails _ _ frame b, fun _ _ => id⟩,
      fun _ _ => id⟩
  obtain ⟨conversation, c, hrun, htrails⟩ | ⟨err, c, hrun, hcarries⟩ := wp_cases habsorb
  · simp only [wp, takeRow, EStateM.run] at hrun ⊢
    rw [hrun]
    intro hunsent hshown
    cases conversation with
    | none => exact htrails.carries (h hunsent hshown)
    | some other =>
      have hmem : peer ∉ round.touched.insert other := hunsent
      rw [List.mem_insert_iff, not_or] at hmem
      exact htrails (fun heq => hmem.1 (Option.some.inj heq).symm) (h hmem.2 hshown)
  · simp only [wp, takeRow, EStateM.run] at hrun ⊢
    rw [hrun]
    exact fun hunsent hshown => hcarries (h hunsent hshown)

variable (env m) in
/-- One step of a drain. -/
theorem carries_next (hio : x.io.history = none) {pc : MailboxPc}
    (h : peer ∉ pc.unsent → a.Carries peer b) :
    wp (next env m x pc) (fun pc' c => peer ∉ pc'.unsent → a.Carries peer c)
      (fun _ _ => False) b := by
  have htold {event : UiEvent} {pc' : MailboxPc} (hpc : pc'.unsent = [])
      (hevent : ∀ entries, event.leaves peer entries = entries) (hb : a.Carries peer b) :
      wp (emit event >>= fun _ => pure pc') (fun pc' c => peer ∉ pc'.unsent → a.Carries peer c)
        (fun _ _ => False) b := by
    have hemit : Moves (App.Carries peer) (emit event) := carries_emit hevent
    exact fun _ hshown => hemit b (hb hshown)
  cases pc with
  | publish =>
    have hb := h List.not_mem_nil
    simp only [next]
    split
    · exact fun _ => hb
    · exact htold rfl (fun _ => rfl) hb
  | fetch =>
    have hb := h List.not_mem_nil
    simp only [next]
    split
    · exact fun _ => hb
    · exact fun _ => hb
  | rows mail round =>
    cases mail with
    | nil =>
      intro hunsent
      exact h fun hmem => hunsent ((x.order_perm _).mem_iff.mpr hmem)
    | cons row mail => exact carries_takeRow row.1 row.2 mail round h
  | refold touched round =>
    cases touched with
    | nil => exact fun _ => h List.not_mem_nil
    | cons other touched =>
      simp only [next, wp_bind, wp_ignore, wp_pure]
      rw [MailboxPc.unsent, ← wp_after (P := fun c : App => peer ∉ touched → a.Carries peer c)]
      refine wp_mono (fun _ c hsent hunsent hshown => ?_) (fun _ _ hfails => absurd hio hfails)
        (wp_sendLog_shows peer x.io other b)
      by_cases heq : other = peer
      · exact hsent.2 heq
      · exact hsent.1 (h (by simp [MailboxPc.unsent, Ne.symm heq, hunsent]) hshown)
  | clear round =>
    have hb := h List.not_mem_nil
    simp only [next]
    split
    · exact fun _ => hb
    · exact htold rfl (fun _ => rfl) hb
  | announce round =>
    have hb := h List.not_mem_nil
    simp only [next]
    split
    · exact htold rfl (fun _ => rfl) hb
    · exact fun _ => hb
  | off => exact fun _ => h List.not_mem_nil

/-- When all that a drain has put somewhere has been sent, everything is shown. -/
theorem carries_run {xs : List MailboxIo}
    (hxs : ∀ x ∈ xs, x.meanwhile = id ∧ x.io.history = none) {mb : Mailbox}
    (h : peer ∉ mb.pc.unsent → a.Carries peer mb.app)
    (hdone : (run (step env m) mb xs).pc.unsent = []) :
    a.Carries peer (run (step env m) mb xs).app := by
  induction xs generalizing mb with
  | nil =>
    refine h ?_
    rw [run_nil] at hdone
    rw [hdone]
    exact List.not_mem_nil
  | cons x xs ih =>
    obtain ⟨hmeanwhile, hio⟩ := hxs x List.mem_cons_self
    refine ih (fun y hy => hxs y (.tail _ hy)) ?_ hdone
    obtain ⟨pc', c, hrun, hnext⟩ | ⟨_, _, -, hfalse⟩ :=
      wp_cases (carries_next env m hio h)
    · simp only [step, hmeanwhile, id_eq, hrun]
      exact hnext
    · exact hfalse.elim

end Mailbox

end Wicara.Client
