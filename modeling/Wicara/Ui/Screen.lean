import Wicara.Client.Mailbox
import Wicara.Client.Network
import Wicara.Ui.Unread

namespace Wicara.Client

open Wicara.Core Lib Lib.Fallible

/-- A message but for where its file has been saved. -/
def Message.unplaced (m : Message) : Message :=
  { m with attachment := m.attachment.map fun a => { a with path := none } }

/-- What an event leaves of what there is to see of a conversation. -/
def UiEvent.leaves (peer : Key) (entries : List Entry) : UiEvent → List Entry
  | .log other entries' => if other = peer then entries' else entries
  | .forgotten other => if other = peer then [] else entries
  | .wiped => []
  | _ => entries

/-- What there is to see of a conversation once all events have been taken. -/
def App.seen (app : App) (peer : Key) : List Entry := app.events.foldl (UiEvent.leaves peer) []

/-- These are the newest messages of a conversation, but for where its files have been saved. -/
def Store.Newest (s : Store) (peer : Key) (entries : List Entry) : Prop :=
  ∃ orders, entries.map Message.unplaced =
    (newest (s.messages orders peer)).map Message.unplaced

/-- The newest messages of the conversation are what there is to see of it. -/
def App.Shows (peer : Key) (app : App) : Prop := app.store.Newest peer (app.seen peer)

/-- What is shown before is shown after. -/
def App.Carries (peer : Key) (a b : App) : Prop := a.Shows peer → b.Shows peer

instance (peer : Key) : Std.Refl (App.Carries peer) := ⟨fun _ h => h⟩

instance (peer : Key) : Trans (App.Carries peer) (App.Carries peer) (App.Carries peer) :=
  ⟨fun hab hbc h => hbc (hab h)⟩

/-- All that a conversation is shown by. -/
def App.screen (peer : Key) (app : App) : Key × List OpRow × List Entry :=
  (app.store.me, app.store.ops.rows.filter (fun row => row.2.1 = peer), app.seen peer)

section Unplaced

variable {me : Key} {settings : Table String String}

def Fold.unplaced (fold : Fold) : Fold :=
  { fold with messages := fold.messages.map Message.unplaced }

namespace Fold

theorem unplaced_push (m : Message) (fold : Fold) :
    (fold.push m).unplaced = fold.unplaced.push m.unplaced := by
  simp only [push, unplaced, List.map_append, List.map_cons, List.map_nil, List.length_map]
  rfl

theorem unplaced_update {f : Message → Message} (h : ∀ m, (f m).unplaced = f m.unplaced)
    (target : MessageId) (fold : Fold) :
    (fold.update target f).unplaced = fold.unplaced.update target f := by
  have hmap (i : Nat) : (fold.messages.modify i f).map Message.unplaced =
      (fold.messages.map Message.unplaced).modify i f := by
    refine List.ext_getElem? fun j => ?_
    rw [List.getElem?_map, List.getElem?_modify, List.getElem?_modify, List.getElem?_map]
    cases fold.messages[j]? with
    | none => rfl
    | some m => by_cases hij : i = j <;> simp [hij, h]
  unfold update unplaced
  dsimp only
  split
  · rw [hmap]
  · rfl

/-- Where files are saved is the only thing that the fold takes from the settings. -/
theorem unplaced_op (fold : Fold) (row : OpRow) :
    (fold.op me settings row).unplaced = fold.unplaced.op me .empty row := by
  obtain ⟨id, peer, frame⟩ := row
  cases frame with
  | chat _ body replyTo => exact unplaced_push _ _
  | file _ name size hash => exact unplaced_push _ _
  | edit _ target body =>
    simp only [op]
    split
    · exact unplaced_update (by intros; rfl) _ _
    · rfl
  | delete _ target =>
    simp only [op]
    split
    · exact unplaced_update (by intros; rfl) _ _
    · rfl
  | _ => rfl

theorem unplaced_react (fold : Fold) (r : (MessageId × String × Key) × Bool) :
    (fold.react me r).unplaced = fold.unplaced.react me r := by
  obtain ⟨⟨target, emoji, reactor⟩, on⟩ := r
  cases on with
  | false => rfl
  | true => exact unplaced_update (by intros; rfl) _ _

theorem unplaced_foldl_op (rows : List OpRow) (fold : Fold) :
    (rows.foldl (op me settings) fold).unplaced = rows.foldl (op me .empty) fold.unplaced := by
  induction rows generalizing fold with
  | nil => rfl
  | cons row rows ih => rw [List.foldl_cons, List.foldl_cons, ih, unplaced_op]

theorem unplaced_foldl_react (rs : List ((MessageId × String × Key) × Bool)) (fold : Fold) :
    (rs.foldl (react me) fold).unplaced = rs.foldl (react me) fold.unplaced := by
  induction rs generalizing fold with
  | nil => rfl
  | cons r rs ih => rw [List.foldl_cons, List.foldl_cons, ih, unplaced_react]

end Fold

namespace Store

variable {s s' : Store} {orders : Orders} {peer : Key}

/-- Without the settings the same is read, but for where the files are. -/
theorem unplaced_messages (s : Store) (orders : Orders) (peer : Key) :
    (s.messages orders peer).map Message.unplaced =
      ({ s with settings := .empty } : Store).messages orders peer := by
  let fold := (s.conversation orders peer).foldl (Fold.op s.me s.settings) .empty
  have hfold : fold.unplaced = (s.conversation orders peer).foldl (Fold.op s.me .empty) .empty :=
    Fold.unplaced_foldl_op _ _
  have hmessages : (s.messages orders peer).map Message.unplaced =
      (((orders.reactions fold.reactions.rows).foldl (Fold.react s.me) fold).unplaced).messages.map
        Message.sortReactions := by
    simp only [messages, Fold.unplaced, List.map_map]
    rfl
  rw [hmessages, Fold.unplaced_foldl_react]
  change ((orders.reactions fold.unplaced.reactions.rows).foldl (Fold.react s.me)
    fold.unplaced).messages.map Message.sortReactions = _
  rw [hfold]
  rfl

/-- A conversation is made of its own rows. -/
theorem unplaced_messages_congr (hme : s'.me = s.me)
    (hrows : s'.ops.rows.filter (fun row => row.2.1 = peer) =
      s.ops.rows.filter fun row => row.2.1 = peer) :
    (s'.messages orders peer).map Message.unplaced =
      (s.messages orders peer).map Message.unplaced := by
  rw [unplaced_messages, unplaced_messages]
  simp only [messages, conversation, hme, hrows]

end Store

theorem newest_map (l : List Message) (f : Message → Message) :
    newest (l.map f) = (newest l).map f := by
  rw [newest, newest, List.length_map, List.map_drop]

end Unplaced

section Showing

variable {peer other : Key} {app app' : App} {io : Io}

theorem App.Shows.of_screen (h : app.Shows peer) (hscreen : app'.screen peer = app.screen peer) :
    app'.Shows peer := by
  obtain ⟨orders, hseen⟩ := h
  simp only [App.screen, Prod.mk.injEq] at hscreen
  obtain ⟨hme, hrows, heq⟩ := hscreen
  refine ⟨orders, ?_⟩
  rw [heq, hseen, ← newest_map, ← newest_map, Store.unplaced_messages_congr hme hrows]

theorem carries_of_frames {m : Act α} (h : Frames (App.screen peer) m) :
    Moves (App.Carries peer) m :=
  fun app happ => happ.of_screen (h app)

theorem seen_emit (event : UiEvent) (app : App) :
    ({ app with events := app.events ++ [event] } : App).seen peer =
      event.leaves peer (app.seen peer) := by
  simp only [App.seen, List.foldl_append, List.foldl_cons, List.foldl_nil]

theorem screen_emit {event : UiEvent} (h : ∀ entries, event.leaves peer entries = entries) :
    Frames (App.screen peer) (emit event) := fun app => by
  change App.screen peer { app with events := app.events ++ [event] } = _
  simp only [App.screen, seen_emit, h]

theorem screen_modify {g : App → App} (hstore : ∀ app, (g app).store = app.store)
    (hevents : ∀ app, (g app).events = app.events) :
    Frames (App.screen peer) (modify g : Act PUnit) := frames_modify fun app => by
  simp only [App.screen, App.seen, hstore, hevents]

theorem screen_inStore {m : EStateM String Store α} (h : Frames
      (fun s : Store => (s.me, s.ops.rows.filter fun row => row.2.1 = peer)) m) :
    Frames (App.screen peer) (inStore m) := frames_zoom fun app => by
  have hstore := h app.store
  simp only [Prod.mk.injEq] at hstore
  simp only [App.screen, hstore]
  rfl

theorem screen_sendLog (h : other ≠ peer) : Frames (App.screen peer) (sendLog io other) :=
  .bind frames_get fun _ => .bind (frames_lift _) fun _ => screen_emit fun _ => if_neg h

/-- A conversation that has been sent is shown. -/
theorem shows_sendLog (io : Io) (peer : Key) (app : App) :
    wp (sendLog io peer) (fun _ a => a.Shows peer) (fun _ a => io.history ≠ none ∧ a = app)
      app := by
  simp only [sendLog, wp_bind, wp_get, wp_lift]
  refine ⟨fun entries hread => ?_, fun err hread => ⟨?_, trivial⟩⟩
  · refine ⟨io.orders, ?_⟩
    rw [seen_emit, UiEvent.leaves, if_pos rfl]
    cases hio : io.history with
    | some err => simp [Store.history, hio] at hread
    | none =>
      simp only [Store.history, hio, Except.ok.injEq] at hread
      rw [← hread]
      rfl
  · rintro hio
    simp [Store.history, hio] at hread

theorem carries_sendLog (io : Io) (other : Key) : Moves (App.Carries peer) (sendLog io other) := by
  by_cases h : other = peer
  · subst h
    refine moves_iff.mpr fun app => ?_
    refine wp_mono (fun _ _ h _ => h) (fun _ a h hshown => ?_) (shows_sendLog io other app)
    obtain ⟨-, rfl⟩ := h
    exact hshown
  · exact carries_of_frames (screen_sendLog h)

theorem screen_saveRoom (sqlite : Sqlite) (id : RoomId) (log : List RoomEntry) :
    Frames (App.screen peer) (inStore (Store.saveRoom sqlite id log)) :=
  screen_inStore (.bind (frames_attempt _) fun _ => .bind (frames_modify fun _ => rfl) fun _ =>
    .bind (frames_attempt _) fun _ => frames_modify fun _ => rfl)

theorem screen_setSetting (sqlite : Sqlite) (key value : String) :
    Frames (App.screen peer) (inStore (Store.setSetting sqlite key value)) :=
  screen_inStore (.bind (frames_attempt _) fun _ => frames_modify fun _ => rfl)

theorem screen_nextId (now : UInt64) : Frames (App.screen peer) (inStore (Store.nextId now)) :=
  screen_inStore fun _ => rfl

section Ops

/-- The rows of a conversation, and for whom they are read. -/
def Store.sheet (peer : Key) (s : Store) : Key × List OpRow :=
  (s.me, s.ops.rows.filter fun row => row.2.1 = peer)

theorem sheet_insertOrIgnore {s : Store} {id : MessageId} {frame : Frame}
    (h : other = peer → id ∈ s.ops.keys) :
    ({ s with ops := s.ops.insertOrIgnore id (other, frame) } : Store).sheet peer =
      s.sheet peer := by
  by_cases hmem : id ∈ s.ops.keys
  · rw [Table.insertOrIgnore_of_mem hmem]
  · have hne : other ≠ peer := fun heq => hmem (h heq)
    simp only [Store.sheet, Table.rows_insertOrIgnore hmem, List.filter_append]
    simp [hne]

/-- What is recorded is new in its conversation, and touches no other. -/
theorem sheet_record (sqlite : Sqlite) (other : Key) (frame : Frame) (s : Store) :
    wp (Store.record sqlite other frame)
      (fun fresh s' => (other = peer → fresh = false) → s'.sheet peer = s.sheet peer)
      (fun _ s' => s'.sheet peer = s.sheet peer) s := by
  unfold Store.record
  split
  · exact fun _ => rfl
  · simp only [wp_bind, wp_attempt, wp_modify, wp_get, wp_pure]
    refine ⟨fun _ => ⟨fun _ hfresh => ?_, fun _ _ => rfl⟩, fun _ _ => trivial⟩
    exact sheet_insertOrIgnore (s := { s with contacts := _ }) fun heq => by
      simpa using hfresh heq

/-- One conversation is gone, and nothing else of the ops. -/
def Store.Drops (other : Key) (s s' : Store) : Prop :=
  s'.me = s.me ∧ s'.ops = s.ops.deleteWhere fun _ row => row.1 = other

theorem Store.Drops.sheet {s s' : Store} (h : s.Drops other s') (peer : Key) :
    s'.sheet peer = if other = peer then (s.me, []) else s.sheet peer := by
  rw [Store.sheet, h.1, h.2, Table.deleteWhere, List.filter_filter]
  split
  · rename_i heq
    subst heq
    simp
  · rename_i hne
    rw [Store.sheet, Prod.mk.injEq]
    refine ⟨rfl, List.filter_congr fun row _ => ?_⟩
    by_cases hrow : row.2.1 = peer <;> simp [hrow, Ne.symm hne]

theorem drops_clear (sqlite : Sqlite) (orders : Orders) (other : Key) (s : Store) :
    wp (Store.clear sqlite orders other) (fun _ s' => s.Drops other s') (fun _ s' => s' = s) s := by
  simp only [Store.clear, wp_bind, wp_get, wp_lift, wp_attempt, wp_modify, wp_pure]
  exact ⟨fun _ _ => ⟨fun _ => ⟨rfl, rfl⟩, fun _ _ => trivial⟩, fun _ _ => trivial⟩

theorem drops_forget (sqlite : Sqlite) (orders : Orders) (other : Key) (names : List String)
    (s : Store) : wp (Store.forget sqlite orders other names) (fun _ s' => s.Drops other s')
      (fun _ s' => s' = s) s := by
  simp only [Store.forget, wp_bind, wp_get, wp_lift, wp_attempt, wp_modify, wp_pure]
  exact ⟨fun _ _ => ⟨fun _ => ⟨rfl, rfl⟩, fun _ _ => trivial⟩, fun _ _ => trivial⟩

theorem sheet_wipe (peer : Key) (sqlite : Sqlite) (orders : Orders) (s : Store) :
    wp (Store.wipe sqlite orders) (fun _ s' => s'.sheet peer = (s.me, []))
      (fun _ s' => s' = s) s := by
  simp only [Store.wipe, wp_bind, wp_get, wp_lift, wp_attempt, wp_modify, wp_pure]
  exact ⟨fun _ _ => ⟨fun _ _ => ⟨fun _ => rfl, fun _ _ => trivial⟩, fun _ _ => trivial⟩,
    fun _ _ => trivial⟩

/-- Of a conversation without ops there is nothing to show. -/
theorem shows_nil (hsheet : (app.store.sheet peer).2 = []) (hseen : app.seen peer = []) :
    app.Shows peer := by
  have hrows : app.store.conversation .asStored peer = [] := by
    rw [Store.conversation]
    exact congrArg _ hsheet
  have hmessages : app.store.messages .asStored peer = [] := by
    rw [Store.messages, hrows]
    rfl
  exact ⟨.asStored, by rw [hseen, hmessages, newest, List.drop_nil]⟩

end Ops

end Showing

end Wicara.Client
