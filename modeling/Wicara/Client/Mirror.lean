import Wicara.Client.Rooms
import Wicara.Core.Book

namespace Wicara.Client

open Wicara.Core Lib Lib.Fallible

variable {C : Crypto}

/-- The store and the memory both hold what the book says. -/
structure Mirrors (app : App) (b : Book C) : Prop where
  stored : ∀ id, app.store.rooms.get id = (b.held id).map VerifiedLog.log
  shown : ∀ id, app.rooms.get id = (b.held id).map VerifiedLog.room

/-- Between `save_room` and `show_room`: the store is ahead of the memory by one log. -/
structure Saved (app : App) (b : Book C) (v : VerifiedLog C) : Prop where
  stored : ∀ id, app.store.rooms.get id = ((b.put v).held id).map VerifiedLog.log
  shown : ∀ id, app.rooms.get id = (b.held id).map VerifiedLog.room

def Io.Saves (io : Io) : Prop := io.saveRoom 0 = none ∧ io.saveRoom 1 = none

instance : DecidablePred Io.Saves := fun _ => inferInstanceAs (Decidable (_ ∧ _))

namespace Mirrors

variable {app app' : App} {b : Book C}

theorem congr (h : Mirrors app b) (hstore : app'.store.rooms = app.store.rooms)
    (hrooms : app'.rooms = app.rooms) : Mirrors app' b where
  stored id := by rw [hstore, h.stored]
  shown id := by rw [hrooms, h.shown]

theorem heldLength (h : Mirrors app b) (id : RoomId) : app.heldLength id = b.length id := by
  rw [App.heldLength, h.shown, Book.length]
  cases b.held id <;> rfl

theorem isSome (h : Mirrors app b) (id : RoomId) :
    (app.rooms.get id).isSome = (b.held id).isSome := by
  rw [h.shown, Option.isSome_map]

theorem isMember (h : Mirrors app b) (id : RoomId) (who : Key) :
    app.isMember id who = true ↔ who ∈ b.members id := by
  rw [App.isMember, h.shown, Book.members]
  cases b.held id <;> simp

end Mirrors

section

variable {env : Env C} {io : Io} {app : App} {b : Book C} {v : VerifiedLog C}

theorem wp_emit {ok : PUnit → App → Prop} {err : String → App → Prop} {event : UiEvent} :
    wp (emit event) ok err app ↔ ok .unit { app with events := app.events ++ [event] } := Iff.rfl

theorem mirrors_sendLog (h : Mirrors app b) (peer : Key) :
    wp (sendLog io peer) (fun _ a => Mirrors a b) (fun _ a => Mirrors a b) app := by
  simp only [sendLog, wp_bind, wp_get, wp_lift, wp_emit]
  exact ⟨fun _ _ => h.congr rfl rfl, fun _ _ => h⟩

/-- `save_room` as one step: the log is there or nothing changed about the rooms. -/
theorem saved_saveRoom (h : Mirrors app b) :
    wp (inStore (Store.saveRoom io.saveRoom v.room.id v.log))
      (fun _ a => io.Saves ∧ Saved a b v) (fun _ a => ¬io.Saves ∧ Mirrors a b) app := by
  simp only [inStore, Store.saveRoom, wp_zoom, wp_bind, wp_attempt, wp_modify]
  refine ⟨fun h0 => ⟨fun h1 => ⟨⟨h0, h1⟩, ?_, h.shown⟩, fun e he => ?_⟩, fun e he => ?_⟩
  · intro id
    rw [Table.get_upsert, Book.held_put, h.stored]
    by_cases hid : id = v.room.id <;> simp [hid]
  · exact ⟨fun hs => by simp [hs.2] at he, h.congr rfl rfl⟩
  · exact ⟨fun hs => by simp [hs.1] at he, h.congr rfl rfl⟩

theorem mirrors_showRoom (h : Saved app b v) :
    wp (showRoom env io v.room) (fun _ a => Mirrors a (b.put v)) (fun _ a => Mirrors a (b.put v))
      app := by
  simp only [showRoom, insertRoom, wp_bind, wp_modify, wp_emit]
  apply mirrors_sendLog
  constructor
  · exact h.stored
  · intro id
    rw [Table.get_upsert, Book.held_put, h.shown]
    by_cases hid : id = v.room.id <;> simp [hid]

/-- Saving and showing a verified log, and then code that leaves the rooms alone. -/
theorem mirrors_file {k : Act PUnit} (h : Mirrors app b)
    (hk : ∀ a, Mirrors a (b.put v) → Mirrors (after k a) (b.put v)) :
    wp (do
        inStore (Store.saveRoom io.saveRoom v.room.id v.log)
        showRoom env io v.room
        k)
      (fun _ a => Mirrors a (b.take (if io.Saves then some v else none)))
      (fun _ a => Mirrors a (b.take (if io.Saves then some v else none))) app := by
  rw [wp_bind]
  refine wp_mono ?_ ?_ (saved_saveRoom (v := v) h)
  · rintro - a ⟨hs, ha⟩
    rw [if_pos hs, wp_bind]
    exact wp_mono (fun _ a ha => wp_after.mpr (hk a ha)) (fun _ _ ha => ha) (mirrors_showRoom ha)
  · rintro - a ⟨hs, ha⟩
    rw [if_neg hs]
    exact ha

end

/-- What a verified reply of the hub puts in the book. -/
def fetched (env : Env C) (io : Io) (id : RoomId) (reply : Reply) : Option (VerifiedLog C) :=
  if env.hub = true then
    match Hub.room env id reply with
    | .ok (_, entries) => if io.Saves then VerifiedLog.ofLog C entries else none
    | .error _ => none
  else none

/-- What `absorb_room` puts in the book. -/
def absorbed (env : Env C) (io : Io) (b : Book C) (id : RoomId) (log : List RoomEntry)
    (reply : Reply) : Option (VerifiedLog C) :=
  if log = [] then fetched env io id reply
  else
    match judge C id log with
    | .ok room =>
      if ((b.held id).isSome = true ∨ env.me ∈ room.members) ∧ b.length id < room.length ∧ io.Saves
      then VerifiedLog.ofLog C log
      else none
    | .error _ => none

/-- What `accept` puts in the book. -/
def accepted (env : Env C) (io : Io) (b : Book C) (reply : Reply) (sender : Key) :
    Frame → Option (VerifiedLog C)
  | .roomUpdated id log => absorbed env io b id log reply
  | .inRoom id op =>
    match op.id with
    | some opId =>
      if opId.sender = sender ∧ sender ∉ b.members id then fetched env io id reply else none
    | none => none
  | _ => none

/-- The log `append` starts from. -/
def knownEntries (io : Io) (b : Book C) : Option RoomId → Option (List RoomEntry)
  | none => some []
  | some id => if io.rooms = none then (b.held id).map VerifiedLog.log else none

/-- What `append` puts in the book. -/
def appended (env : Env C) (io : Io) (b : Book C) (now : UInt64) (room : Option RoomId)
    (op : RoomOp) : Option (VerifiedLog C) :=
  match knownEntries io b room with
  | some entries =>
    if io.Saves then VerifiedLog.ofLog C (entries ++ [nextEntry env now op entries]) else none
  | none => none

theorem judge_eq_ok {id : RoomId} {log : List RoomEntry} {room : Room} :
    judge C id log = .ok room ↔ Replays C log room ∧ room.id = id := by
  simp only [judge, bind_eq_ok, ensure_eq_ok, verified_eq_ok, pure, Except.pure, Except.ok.injEq]
  constructor
  · rintro ⟨r, hr, -, hid, rfl⟩
    exact ⟨hr, hid⟩
  · rintro ⟨hr, hid⟩
    exact ⟨room, hr, (), hid, rfl⟩

theorem extend_eq_ok {env : Env C} {now : UInt64} {op : RoomOp} {entries : List RoomEntry}
    {ext : Extension} :
    extend env now op entries = .ok ext ↔
      Replays C (entries ++ [nextEntry env now op entries]) ext.verified ∧
        ext.entries = entries ++ [nextEntry env now op entries] ∧
        ext.notify = membersOf C entries ∪ ext.verified.members := by
  simp only [extend, bind_eq_ok, verified_eq_ok, pure, Except.pure, Except.ok.injEq]
  constructor
  · rintro ⟨r, hr, rfl⟩
    exact ⟨hr, rfl, rfl⟩
  · rintro ⟨hr, he, hn⟩
    refine ⟨ext.verified, hr, ?_⟩
    cases ext
    simp_all

section

variable {env : Env C} {b : Book C}

theorem fetched_eq_some {io : Io} {id : RoomId} {reply : Reply} {v : VerifiedLog C}
    (hv : fetched env io id reply = some v) :
    Hub.room env id reply = .ok (v.room, v.log) ∧ io.Saves ∧ v.room.id = id := by
  simp only [fetched] at hv
  split at hv
  · cases hroom : Hub.room env id reply with
    | error err => simp [hroom] at hv
    | ok p =>
      obtain ⟨room, entries⟩ := p
      obtain ⟨hr, rfl⟩ := Hub.room_eq_ok env hroom
      simp only [hroom] at hv
      split at hv
      · rename_i hs
        rw [show VerifiedLog.ofLog C entries = some ⟨entries, room, hr⟩ from
          VerifiedLog.ofLog_log ⟨entries, room, hr⟩, Option.some.injEq] at hv
        subst hv
        exact ⟨rfl, hs, rfl⟩
      · cases hv
  · cases hv

/-- Only a longer log gets past `absorb_room`. -/
theorem absorbed_eq_some {io : Io} {id : RoomId} {log : List RoomEntry} {reply : Reply}
    {v : VerifiedLog C} (hlog : log ≠ []) (hv : absorbed env io b id log reply = some v) :
    v.log = log ∧ v.room.id = id ∧ b.length id < v.room.length ∧ io.Saves := by
  rw [absorbed, if_neg hlog] at hv
  cases hjudge : judge C id log with
  | error err => simp [hjudge] at hv
  | ok room =>
    obtain ⟨hr, rfl⟩ := judge_eq_ok.mp hjudge
    simp only [hjudge] at hv
    split at hv
    · rename_i hc
      rw [show VerifiedLog.ofLog C log = some ⟨log, room, hr⟩ from
        VerifiedLog.ofLog_log ⟨log, room, hr⟩, Option.some.injEq] at hv
      subst hv
      exact ⟨rfl, rfl, hc.2.1, hc.2.2⟩
    · cases hv

/-- Of a room that is known, `absorb_room` takes a verified log by the longer-only rule. -/
theorem take_absorbed {io : Io} {reply : Reply} {v w : VerifiedLog C}
    (hv : b.held w.room.id = some v) :
    b.take (absorbed env io b w.room.id w.log reply) = if io.Saves then b.offer w else b := by
  have hjudge : judge C w.room.id w.log = .ok w.room := judge_eq_ok.mpr ⟨w.replays, rfl⟩
  rw [absorbed, if_neg w.replays.ne_nil, Book.offer]
  simp only [hjudge, hv, Option.isSome_some, true_or, true_and, w.ofLog_log]
  by_cases hs : io.Saves <;> by_cases hlt : b.length w.room.id < w.room.length <;> simp [hs, hlt]

theorem appended_eq_some {io : Io} {now : UInt64} {room : Option RoomId} {op : RoomOp}
    {v : VerifiedLog C} (hv : appended env io b now room op = some v) :
    ∃ entries, knownEntries io b room = some entries ∧ io.Saves ∧
      v.log = entries ++ [nextEntry env now op entries] := by
  simp only [appended] at hv
  cases hknown : knownEntries io b room with
  | none => simp [hknown] at hv
  | some entries =>
    simp only [hknown] at hv
    split at hv
    · rename_i hs
      exact ⟨entries, rfl, hs, VerifiedLog.log_of_ofLog hv⟩
    · cases hv

theorem knownEntries_some {io : Io} {id : RoomId} {entries : List RoomEntry}
    (h : knownEntries io b (some id) = some entries) :
    ∃ v, b.held id = some v ∧ v.log = entries := by
  simp only [knownEntries] at h
  split at h
  · exact Option.map_eq_some_iff.mp h
  · cases h

end

section

variable {env : Env C} {io : Io} {app : App} {b : Book C}

theorem mirrors_status (h : Mirrors app b) (text : String) :
    Mirrors (after (status text) app) b :=
  h.congr rfl rfl

theorem mirrors_fetchRoom (h : Mirrors app b) (id : RoomId) (reply : Reply) :
    wp (fetchRoom env io id reply) (fun _ a => Mirrors a (b.take (fetched env io id reply)))
      (fun _ a => Mirrors a (b.take (fetched env io id reply))) app := by
  simp only [fetchRoom]
  rw [wp_bind, wp_lift]
  constructor
  · intro u hu
    have henv := ensure_eq_ok.mp hu
    rw [wp_bind, wp_lift]
    constructor
    · rintro ⟨room, entries⟩ hroom
      obtain ⟨hr, rfl⟩ := Hub.room_eq_ok env hroom
      let v : VerifiedLog C := ⟨entries, room, hr⟩
      have hf : fetched env io room.id reply = if io.Saves then some v else none := by
        rw [fetched, if_pos henv, hroom]
        exact congrArg (fun o => if io.Saves then o else none) v.ofLog_log
      rw [hf]
      exact mirrors_file (v := v) h fun a ha => mirrors_status ha _
    · intro err herr
      rw [fetched, if_pos henv, herr]
      exact h
  · intro err herr
    have henv : ¬env.hub = true := fun he => by simp [ensure, he] at herr
    rw [fetched, if_neg henv]
    exact h

theorem mirrors_absorbRoom (h : Mirrors app b) (id : RoomId) (log : List RoomEntry)
    (reply : Reply) :
    wp (absorbRoom env io id log reply)
      (fun _ a => Mirrors a (b.take (absorbed env io b id log reply)))
      (fun _ a => Mirrors a (b.take (absorbed env io b id log reply))) app := by
  simp only [absorbRoom]
  by_cases hlog : log = []
  · rw [if_pos hlog, absorbed, if_pos hlog]
    exact mirrors_fetchRoom h id reply
  · rw [if_neg hlog, absorbed, if_neg hlog, wp_bind, wp_lift]
    constructor
    · rintro room hroom
      obtain ⟨hr, rfl⟩ := judge_eq_ok.mp hroom
      let v : VerifiedLog C := ⟨log, room, hr⟩
      rw [hroom]
      rw [wp_bind, wp_get, wp_bind, wp_lift, wp_ite, h.isSome, h.heldLength]
      constructor
      · intro u hu
        have hguard := ensure_eq_ok.mp hu
        constructor
        · intro hle
          simp only
          rw [if_neg (by omega)]
          exact h
        · intro hlt
          rw [show VerifiedLog.ofLog C log = some v from v.ofLog_log]
          have hiff : (((b.held room.id).isSome = true ∨ env.me ∈ room.members) ∧
              b.length room.id < room.length ∧ io.Saves) ↔ io.Saves := by
            simp only [hguard, true_and, and_iff_right_iff_imp]
            omega
          simp only [hiff]
          exact mirrors_file (v := v) h fun a ha => ha.congr rfl rfl
      · intro err herr
        have hguard : ¬((b.held room.id).isSome = true ∨ env.me ∈ room.members) :=
          fun hg => by simp [ensure, hg] at herr
        simp only
        rw [if_neg fun hc => hguard hc.1]
        exact h
    · intro err herr
      rw [herr]
      exact h

theorem mirrors_after {m : Act α} {b' : Book C}
    (h : wp m (fun _ a => Mirrors a b') (fun _ a => Mirrors a b') app) : Mirrors (after m app) b' :=
  wp_after.mp h

/-- Recording an op is no business of the rooms. -/
theorem mirrors_record (h : Mirrors app b) (peer : Key) (frame : Frame) {k : Bool → Option Key} :
    wp (do
        let fresh ← inStore (Store.record io.record peer frame)
        pure (k fresh)) (fun _ a => Mirrors a b) (fun _ a => Mirrors a b) app := by
  simp only [inStore, Store.record, wp_bind, wp_zoom, wp_pure]
  cases frame.id with
  | none => exact h.congr rfl rfl
  | some id =>
    simp only [wp_bind, wp_attempt, wp_modify, wp_get, wp_pure]
    exact ⟨fun _ => ⟨fun _ => h.congr rfl rfl, fun _ _ => h.congr rfl rfl⟩,
      fun _ _ => h.congr rfl rfl⟩

theorem mirrors_enterRoom (h : Mirrors app b) (reply : Reply) (sender : Key) (id : RoomId) :
    wp (enterRoom env io reply sender id)
      (fun _ a => Mirrors a
        (b.take (if sender ∉ b.members id then fetched env io id reply else none)))
      (fun _ a => Mirrors a
        (b.take (if sender ∉ b.members id then fetched env io id reply else none))) app := by
  simp only [enterRoom, wp_bind, wp_get, wp_ite, wp_lift]
  rw [h.isMember]
  constructor
  · intro hin
    rw [if_neg (not_not.mpr hin)]
    exact ⟨fun _ _ => h, fun _ _ => h⟩
  · intro hout
    rw [if_pos hout]
    refine wp_mono (fun _ a ha => ?_) (fun _ _ ha => ha) (mirrors_fetchRoom h id reply)
    exact ⟨fun _ _ => ⟨fun _ _ => ha, fun _ _ => ha⟩, fun _ _ => ha⟩

theorem mirrors_accept (h : Mirrors app b) (reply : Reply) (sender : Key) (frame : Frame) :
    wp (accept env io reply sender frame)
      (fun _ a => Mirrors a (b.take (accepted env io b reply sender frame)))
      (fun _ a => Mirrors a (b.take (accepted env io b reply sender frame))) app := by
  -- the ops that are filed as they are, under the peer that carried them
  have hplain : ∀ (f : Frame) (id : MessageId), wp (do
        lift (ensure (id.sender = sender) "op is minted under a key other than the sender's")
        let fresh ← inStore (Store.record io.record (f.conversation sender) f.unwrapRoom)
        pure (if fresh = true then some (f.conversation sender) else none))
      (fun _ a => Mirrors a b) (fun _ a => Mirrors a b) app := by
    intro f id
    rw [wp_bind, wp_lift]
    exact ⟨fun _ _ => mirrors_record h _ _, fun _ _ => h⟩
  cases frame with
  | roomUpdated id log =>
    simp only [accept, wp_bind, wp_ignore, wp_pure]
    exact wp_after.mp (mirrors_absorbRoom h id log reply)
  | inRoom id op =>
    simp only [accept, accepted, Frame.id]
    cases op.id with
    | none => exact h
    | some opId =>
      rw [wp_bind, wp_lift]
      constructor
      · intro u hu
        have hsender := ensure_eq_ok.mp hu
        simp only [hsender, true_and]
        rw [wp_bind]
        exact wp_mono (fun _ _ ha => mirrors_record ha _ _) (fun _ _ ha => ha)
          (mirrors_enterRoom h reply sender id)
      · intro err herr
        have hsender : ¬opId.sender = sender := fun hs => by simp [ensure, hs] at herr
        simp only [hsender, false_and, if_false]
        exact h
  | hello nickname => exact h
  | chat id body replyTo => exact hplain (.chat id body replyTo) id
  | edit id target body => exact hplain (.edit id target body) id
  | delete id target => exact hplain (.delete id target) id
  | react id target emoji on => exact hplain (.react id target emoji on) id
  | file id name size hash => exact hplain (.file id name size hash) id

/-- While `load_rooms` runs: of some rooms the memory may have nothing yet. -/
structure Loading (app : App) (b : Book C) (missing : Set RoomId) : Prop where
  stored : ∀ id, app.store.rooms.get id = (b.held id).map VerifiedLog.log
  shown : ∀ id, app.rooms.get id = (b.held id).map VerifiedLog.room ∨
    id ∈ missing ∧ app.rooms.get id = none

theorem loading_empty_iff : Loading app b ∅ ↔ Mirrors app b := by
  constructor
  · exact fun h => ⟨h.stored, fun id => (h.shown id).resolve_right fun hm => hm.1.elim⟩
  · exact fun h => ⟨h.stored, fun id => .inl (h.shown id)⟩

theorem Loading.congr {missing : Set RoomId} {app' : App} (h : Loading app b missing)
    (hstore : app'.store.rooms = app.store.rooms) (hrooms : app'.rooms = app.rooms) :
    Loading app' b missing where
  stored id := by rw [hstore, h.stored]
  shown id := by rw [hrooms]; exact h.shown id

theorem Loading.mono {missing missing' : Set RoomId} (h : Loading app b missing)
    (hsub : missing ⊆ missing') : Loading app b missing' :=
  ⟨h.stored, fun id => (h.shown id).imp_right fun hm => ⟨hsub hm.1, hm.2⟩⟩

theorem loading_showRoom {missing : Set RoomId} (h : Loading app b missing) {v : VerifiedLog C}
    (hv : b.held v.room.id = some v) :
    wp (showRoom env io v.room) (fun _ a => Loading a b (missing \ {v.room.id}))
      (fun _ a => Loading a b missing) app := by
  have hnew : Loading { app with rooms := app.rooms.upsert v.room.id v.room } b
      (missing \ {v.room.id}) := by
    refine ⟨h.stored, fun id => ?_⟩
    rw [Table.get_upsert]
    by_cases hid : id = v.room.id
    · simp [hid, hv]
    · rw [if_neg hid]
      exact (h.shown id).imp_right fun hm => ⟨⟨hm.1, hid⟩, hm.2⟩
  simp only [showRoom, insertRoom, sendLog, wp_bind, wp_modify, wp_emit, wp_get, wp_lift]
  exact ⟨fun _ _ => hnew.congr rfl rfl,
    fun _ _ => (hnew.mono Set.sdiff_subset).congr rfl rfl⟩

theorem loading_loadEach {refold : RoomId → Option String} {stored : List (RoomId × List RoomEntry)}
    {missing : Set RoomId} (h : Loading app b missing)
    (hrows : ∀ r ∈ stored, (b.held r.1).map VerifiedLog.log = some r.2) :
    wp (loadEach env io refold stored)
      (fun _ a => Loading a b (missing \ {id | id ∈ stored.map Prod.fst}))
      (fun _ a => Loading a b missing) app := by
  induction stored generalizing app missing with
  | nil => simpa [loadEach] using h
  | cons r stored ih =>
    obtain ⟨id, entries⟩ := r
    obtain ⟨v, hv, rfl⟩ := Option.map_eq_some_iff.mp (hrows _ List.mem_cons_self)
    obtain rfl := b.filed _ v hv
    have hrest : ∀ a, Loading a b (missing \ {v.room.id}) → wp (loadEach env io refold stored)
        (fun _ a => Loading a b (missing \ {id | id ∈ (v.room.id :: stored.map Prod.fst)}))
        (fun _ a => Loading a b missing) a := by
      intro a ha
      refine wp_mono (fun _ a ha => ha.mono ?_) (fun _ a ha => ha.mono Set.sdiff_subset)
        (ih ha fun r hr => hrows r (List.mem_cons_of_mem _ hr))
      rintro id ⟨⟨hid, hne⟩, hnot⟩
      exact ⟨hid, fun hm => (List.mem_cons.mp hm).elim hne hnot⟩
    simp only [loadEach, v.replays.verifyLog_eq, if_true, List.map_cons]
    rw [wp_bind]
    refine wp_mono (fun _ a ha => ?_) (fun _ _ ha => ha) (loading_showRoom h hv)
    simp only [wp_bind, wp_ite, wp_modify]
    exact ⟨fun _ => hrest _ (ha.congr rfl rfl), fun _ => hrest a ha⟩

theorem mirrors_loadRooms (h : Mirrors app b) (refold : RoomId → Option String) :
    wp (loadRooms env io refold) (fun _ a => Mirrors a b) (fun _ a => Mirrors a b) app := by
  simp only [loadRooms, wp_bind, wp_attempt, wp_get]
  refine ⟨fun _ => ?_, fun _ _ => h⟩
  refine wp_mono (fun _ a ha => ?_) (fun _ a ha => loading_empty_iff.mp ha)
    (loading_loadEach (loading_empty_iff.mpr h) fun r hr => ?_)
  · rw [Set.empty_sdiff] at ha
    exact loading_empty_iff.mp ha
  · rw [← h.stored]
    exact Table.get_eq_some.mpr hr

/-- A client that has come up holds in memory what its store holds. -/
theorem mirrors_boot {store : Store} {refold : RoomId → Option String}
    (hstore : ∀ id, store.rooms.get id = (b.held id).map VerifiedLog.log)
    (hload : (loadRooms env io refold).run (App.start store) = .ok .unit app) : Mirrors app b := by
  have hstart : Loading (App.start store) b {id | id ∈ store.rooms.keys} := by
    refine ⟨hstore, fun id => ?_⟩
    by_cases hid : id ∈ store.rooms.keys
    · exact .inr ⟨hid, rfl⟩
    · left
      have hnone := Option.map_eq_none_iff.mp ((hstore id).symm.trans (Table.get_eq_none.mpr hid))
      rw [hnone]
      rfl
  have hwp : wp (loadRooms env io refold) (fun _ a => Mirrors a b) (fun _ _ => True)
      (App.start store) := by
    simp only [loadRooms, wp_bind, wp_attempt, wp_get]
    refine ⟨fun _ => ?_, fun _ _ => trivial⟩
    refine wp_mono (fun _ a ha => ?_) (fun _ _ _ => trivial)
      (loading_loadEach hstart fun r hr => ?_)
    · change Loading a b ({id | id ∈ store.rooms.keys} \ {id | id ∈ store.rooms.keys}) at ha
      rw [Set.sdiff_self] at ha
      exact loading_empty_iff.mp ha
    · rw [← hstore]
      exact Table.get_eq_some.mpr hr
  exact (wp_iff.mp hwp).1 _ _ hload

/-- What handing an op to one member does. -/
theorem wp_deliverTo (peer : Key) (frame : Frame) :
    wp (deliverTo env peer frame)
      (fun _ a => a.store = app.store ∧ a.rooms = app.rooms ∧
        a.handed = app.handed ++ [(peer, frame)]) (fun _ _ => False) app := by
  simp only [deliverTo, status, wp_bind, wp_modify, wp_get, wp_ite]
  cases frame.id <;> simp [wp_emit]

/-- The members a change is handed to, in order. -/
def told (me : Key) (id : RoomId) (entries : List RoomEntry) (members : List Key) :
    List (Key × Frame) :=
  (members.filter (· ≠ me)).map fun member => (member, .roomUpdated id entries)

theorem wp_notifyEach (id : RoomId) (entries : List RoomEntry) (members : List Key) :
    wp (notifyEach env id entries members)
      (fun _ a => a.store = app.store ∧ a.rooms = app.rooms ∧
        a.handed = app.handed ++ told env.me id entries members) (fun _ _ => False) app := by
  induction members generalizing app with
  | nil => simp [notifyEach, told]
  | cons member members ih =>
    simp only [notifyEach, wp_bind, wp_ite]
    constructor
    · intro hne
      refine wp_mono (fun _ a ha => ?_) (fun _ _ ha => ha) (wp_deliverTo member _)
      refine wp_mono (fun _ a' ha' => ?_) (fun _ _ ha' => ha') ih
      refine ⟨ha'.1.trans ha.1, ha'.2.1.trans ha.2.1, ?_⟩
      rw [ha'.2.2, ha.2.2]
      simp [told, hne]
    · intro heq
      have htold : told env.me id entries (member :: members) = told env.me id entries members := by
        simp [told, not_not.mp heq]
      rw [htold]
      exact ih

theorem mirrors_notifyEach (h : Mirrors app b) (id : RoomId) (entries : List RoomEntry)
    (members : List Key) :
    wp (notifyEach env id entries members) (fun _ a => Mirrors a b) (fun _ a => Mirrors a b) app :=
  wp_mono (fun _ _ ha => h.congr (congrArg _ ha.1) ha.2.1) (fun _ _ hf => hf.elim)
    (wp_notifyEach id entries members)

theorem mirrors_knownLog (io : Io) (h : Mirrors app b) (room : Option RoomId) :
    wp (knownLog io room) (fun entries a => a = app ∧ knownEntries io b room = some entries)
      (fun _ a => a = app ∧ knownEntries io b room = none) app := by
  cases room with
  | none => exact ⟨rfl, rfl⟩
  | some id =>
    simp only [knownLog, knownEntries, wp_bind, wp_attempt, wp_get]
    constructor
    · intro hio
      rw [if_pos hio, h.stored]
      cases (b.held id).map VerifiedLog.log with
      | none => simp
      | some log => simp
    · intro err herr
      exact ⟨trivial, if_neg (by simp [herr])⟩

theorem mirrors_append (h : Mirrors app b) (reply : Reply) (now : UInt64) (room : Option RoomId)
    (op : RoomOp) :
    wp (append env io reply now room op)
      (fun _ a => Mirrors a (b.take (appended env io b now room op)))
      (fun _ a => Mirrors a (b.take (appended env io b now room op))) app := by
  simp only [append]
  rw [wp_bind]
  refine wp_mono ?_ ?_ (mirrors_knownLog io h room)
  · rintro entries a ⟨rfl, hknown⟩
    simp only [appended, hknown]
    rw [wp_bind, wp_lift]
    constructor
    · rintro ⟨verified, entries', notify⟩ hext
      obtain ⟨hr, rfl, -⟩ := extend_eq_ok.mp hext
      let v : VerifiedLog C := ⟨_, verified, hr⟩
      rw [show VerifiedLog.ofLog C (entries ++ [nextEntry env now op entries]) = some v from
        v.ofLog_log]
      simp only [publishRoom, bind_assoc]
      refine mirrors_file (v := v) h fun a ha =>
        (wp_after (P := fun a => Mirrors a (b.put v))).mp ?_
      simp only [wp_bind, wp_ite, wp_lift, wp_pure]
      exact ⟨fun _ => ⟨fun _ _ => mirrors_notifyEach ha _ _ _, fun _ _ => ha⟩,
        fun _ => mirrors_notifyEach ha _ _ _⟩
    · intro err herr
      cases hlog : VerifiedLog.ofLog C (entries ++ [nextEntry env now op entries]) with
      | none => simpa using h
      | some v =>
        have hv := VerifiedLog.log_of_ofLog hlog
        have hok : extend env now op entries =
            .ok ⟨v.room, _, membersOf C entries ∪ v.room.members⟩ :=
          extend_eq_ok.mpr ⟨hv ▸ v.replays, rfl, rfl⟩
        rw [hok] at herr
        cases herr
  · rintro err a ⟨rfl, hknown⟩
    simp only [appended, hknown]
    exact h

end

end Wicara.Client
