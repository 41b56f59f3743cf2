import Wicara.Client.Mirror
import Wicara.Core.Sample
import Wicara.Lib.Run

namespace Wicara.Client

open Wicara.Core Lib Lib.Fallible Lib.Run

/-- The functions of the client that write rooms, one call each. -/
inductive RoomStep
  | accept (io : Io) (reply : Reply) (sender : Key) (frame : Frame)
  | absorb (io : Io) (id : RoomId) (log : List RoomEntry) (reply : Reply)
  | fetch (io : Io) (id : RoomId) (reply : Reply)
  | load (io : Io) (refold : RoomId → Option String)
  | append (io : Io) (reply : Reply) (now : UInt64) (room : Option RoomId) (op : RoomOp)

variable {C : Crypto} (env : Env C)

def App.step (app : App) : RoomStep → App
  | .accept io reply sender frame => after (accept env io reply sender frame) app
  | .absorb io id log reply => after (absorbRoom env io id log reply) app
  | .fetch io id reply => after (fetchRoom env io id reply) app
  | .load io refold => after (loadRooms env io refold) app
  | .append io reply now room op => after (append env io reply now room op) app

def RoomStep.io : RoomStep → Io
  | .accept io _ _ _ | .absorb io _ _ _ | .fetch io _ _ | .load io _ | .append io _ _ _ _ => io

/-- What a step puts in the book. -/
def RoomStep.takes (b : Book C) : RoomStep → Option (VerifiedLog C)
  | .accept io reply sender frame => accepted env io b reply sender frame
  | .absorb io id log reply => absorbed env io b id log reply
  | .fetch io id reply => fetched env io id reply
  | .load _ _ => none
  | .append io _ now room op => appended env io b now room op

variable {env} {app : App} {b : Book C}

/-- Each step of the client is a step of the book. -/
theorem Mirrors.step (h : Mirrors app b) (s : RoomStep) :
    Mirrors (app.step env s) (b.take (s.takes env b)) := by
  cases s with
  | accept io reply sender frame => exact mirrors_after (mirrors_accept h reply sender frame)
  | absorb io id log reply => exact mirrors_after (mirrors_absorbRoom h id log reply)
  | fetch io id reply => exact mirrors_after (mirrors_fetchRoom h id reply)
  | load io refold => exact mirrors_after (mirrors_loadRooms h refold)
  | append io reply now room op => exact mirrors_after (mirrors_append h reply now room op)

/-- The length of the verified log the store holds a room by, or 0. -/
def storedLength (C : Crypto) (app : App) (id : RoomId) : Nat :=
  match app.store.rooms.get id with
  | some log =>
    match verifyLog C log with
    | .ok room => if room.id = id then room.length else 0
    | .error _ => 0
  | none => 0

theorem Mirrors.storedLength (h : Mirrors app b) (id : RoomId) :
    storedLength C app id = b.length id := by
  rw [Client.storedLength, h.stored, Book.length]
  cases hv : b.held id with
  | none => rfl
  | some v => simp [v.replays.verifyLog_eq, b.filed id v hv]

/-- The room a step asks the hub for, and what it is answered. -/
def RoomStep.fetches (app : App) : RoomStep → Option (RoomId × Reply)
  | .accept _ reply _ (.roomUpdated id []) => some (id, reply)
  | .accept _ reply sender (.inRoom id op) =>
    match op.id with
    | some opId =>
      if opId.sender = sender ∧ ¬app.isMember id sender = true then some (id, reply) else none
    | none => none
  | .absorb _ id [] reply => some (id, reply)
  | .fetch _ id reply => some (id, reply)
  | _ => none

/-- If the step saves anything, the hub does not answer it with less than is held, and it
does not create a room a second time by an entry that is the same byte for byte. -/
structure RoomStep.Fresh (env : Env C) (app : App) (s : RoomStep) : Prop where
  reply : s.io.Saves → ∀ id reply room entries, s.fetches app = some (id, reply) →
    Hub.room env id reply = .ok (room, entries) → app.heldLength id ≤ room.length
  create : s.io.Saves → ∀ io reply now op, s = .append io reply now none op →
    app.heldLength ((nextEntry env now op []).hash C) ≤ 1

theorem length_le_of_fetched {io : Io} {id : RoomId} {reply : Reply} {v : VerifiedLog C}
    (hv : fetched env io id reply = some v)
    (hfresh : io.Saves → ∀ room entries, Hub.room env id reply = .ok (room, entries) →
      b.length id ≤ room.length) : b.length v.room.id ≤ v.room.length := by
  obtain ⟨hroom, hs, rfl⟩ := fetched_eq_some hv
  exact hfresh hs _ _ hroom

theorem length_le_of_appended {io : Io} {now : UInt64} {room : Option RoomId} {op : RoomOp}
    {v : VerifiedLog C} (hv : appended env io b now room op = some v)
    (hfresh : io.Saves → room = none → b.length ((nextEntry env now op []).hash C) ≤ 1) :
    b.length v.room.id ≤ v.room.length := by
  obtain ⟨entries, hknown, hs, hlog⟩ := appended_eq_some hv
  rw [v.length_eq, hlog]
  cases room with
  | none =>
    obtain rfl : [] = entries := Option.some.inj hknown
    obtain ⟨create, rest, hcons, -, -, hid, -⟩ := v.replays.opening
    rw [hlog] at hcons
    obtain rfl : nextEntry env now op [] = create := (List.cons.inj hcons).1
    rw [hid]
    exact hfresh hs rfl
  | some id =>
    obtain ⟨w, hw, rfl⟩ := knownEntries_some hknown
    have hid : w.room.id = v.room.id :=
      VerifiedLog.id_eq_of_prefix (hlog ▸ List.prefix_append _ _)
    rw [← hid, b.filed id w hw, Book.length_of_held hw]
    simp

/-- No step of the client takes less than it holds, unless the hub or its clock make it. -/
theorem RoomStep.Fresh.length_le {s : RoomStep} (hfresh : s.Fresh env app) (h : Mirrors app b)
    {v : VerifiedLog C} (hv : s.takes env b = some v) : b.length v.room.id ≤ v.room.length := by
  have hreply : ∀ id reply, s.fetches app = some (id, reply) → s.io.Saves →
      ∀ room entries, Hub.room env id reply = .ok (room, entries) → b.length id ≤ room.length := by
    intro id reply hf hs room entries hroom
    rw [← h.heldLength]
    exact hfresh.reply hs id reply room entries hf hroom
  have habsorb : ∀ id log reply,
      (log = [] → s.fetches app = some (id, reply)) → absorbed env s.io b id log reply = some v →
      b.length v.room.id ≤ v.room.length := by
    intro id log reply hf ha
    rcases eq_or_ne log [] with rfl | hlog
    · exact length_le_of_fetched (by simpa [absorbed] using ha) (hreply id reply (hf rfl))
    · obtain ⟨-, rfl, hlt, -⟩ := absorbed_eq_some hlog ha
      exact hlt.le
  cases s with
  | accept io reply sender frame =>
    cases frame with
    | roomUpdated id log => exact habsorb id log reply (by rintro rfl; rfl) hv
    | inRoom id op =>
      simp only [RoomStep.takes, accepted] at hv
      cases hop : op.id with
      | none => simp [hop] at hv
      | some opId =>
        simp only [hop] at hv
        split at hv
        · rename_i hc
          refine length_le_of_fetched hv (hreply id reply ?_)
          rw [← h.isMember] at hc
          simp [RoomStep.fetches, hop, hc]
        · cases hv
    | _ => cases hv
  | absorb io id log reply => exact habsorb id log reply (by rintro rfl; rfl) hv
  | fetch io id reply => exact length_le_of_fetched hv (hreply id reply rfl)
  | load io refold => cases hv
  | append io reply now room op =>
    refine length_le_of_appended hv ?_
    rintro hs rfl
    rw [← h.heldLength]
    exact hfresh.create hs io reply now op rfl

/-- The step lemma: what is held of a room does not get shorter. -/
theorem length_le_step {s : RoomStep} (hfresh : s.Fresh env app) (h : Mirrors app b)
    (id : RoomId) : b.length id ≤ (b.take (s.takes env b)).length id := by
  cases hv : s.takes env b with
  | none => exact Nat.le_refl _
  | some v => exact Book.length_le_put (hfresh.length_le h hv) id

/-- The run lemma. -/
theorem length_le_run {steps : List RoomStep} (h : Mirrors app b)
    (hfresh : Along (App.step env) (fun app s => s.Fresh env app) app steps) :
    ∃ b' : Book C, Mirrors (run (App.step env) app steps) b' ∧
      ∀ id, b.length id ≤ b'.length id := by
  induction steps generalizing app b with
  | nil => exact ⟨b, h, fun _ => Nat.le_refl _⟩
  | cons s steps ih =>
    obtain ⟨b', hb', hle⟩ := ih (h.step s) hfresh.2
    exact ⟨b', hb', fun id => (length_le_step hfresh.1 h id).trans (hle id)⟩

theorem mirrors_run (h : Mirrors app b) (steps : List RoomStep) :
    ∃ b' : Book C, Mirrors (run (App.step env) app steps) b' := by
  induction steps generalizing app b with
  | nil => exact ⟨b, h⟩
  | cons s steps ih => exact ih (h.step s)

/-- The book of a store whose rows all verify under their ids. -/
def bookOf (C : Crypto) (store : Store) : Book C where
  held id := ((store.rooms.get id).bind (VerifiedLog.ofLog C)).filter fun v => v.room.id = id
  filed id v h := by
    simpa using (Option.filter_eq_some_iff.mp h).2

theorem bookOf_held {store : Store}
    (hstore : ∀ id log, store.rooms.get id = some log →
      ∃ room, verifyLog C log = .ok room ∧ room.id = id) (id : RoomId) :
    store.rooms.get id = ((bookOf C store).held id).map VerifiedLog.log := by
  cases hlog : store.rooms.get id with
  | none => simp [bookOf, hlog]
  | some log =>
    obtain ⟨room, hroom, hid⟩ := hstore id log hlog
    have hv := VerifiedLog.ofLog_log ⟨log, room, replays_of_verifyLog hroom⟩
    simp [bookOf, hlog, hv, hid]

/-- A client that came up on verified logs, a hub that does not answer with less than is
held, a clock that does not make the same create twice: then the verified log of no room
gets shorter, in the store or in memory, and none is replaced by its own beginning. -/
theorem room_never_rolls_back (env : Env C) {io : Io} {refold : RoomId → Option String}
    {store : Store} {app : App}
    (hstore : ∀ id log, store.rooms.get id = some log →
      ∃ room, verifyLog C log = .ok room ∧ room.id = id)
    (hboot : (loadRooms env io refold).run (App.start store) = .ok .unit app)
    (earlier later : List RoomStep)
    (hfresh : Along (App.step env) (fun app s => s.Fresh env app) app (earlier ++ later))
    (id : RoomId) :
    let now := run (App.step env) app earlier
    let then' := run (App.step env) app (earlier ++ later)
    storedLength C now id ≤ storedLength C then' id ∧
    now.heldLength id ≤ then'.heldLength id ∧
    ∀ old new, now.store.rooms.get id = some old → then'.store.rooms.get id = some new →
      new <+: old → new = old := by
  obtain ⟨b, hb⟩ := mirrors_run (mirrors_boot (bookOf_held hstore) hboot) earlier
  obtain ⟨b', hb', hle⟩ := length_le_run hb (Along.append.mp hfresh).2
  rw [← run_append] at hb'
  refine ⟨?_, ?_, ?_⟩
  · rw [hb.storedLength, hb'.storedLength]
    exact hle id
  · rw [hb.heldLength, hb'.heldLength]
    exact hle id
  · intro old new hold hnew hpre
    rw [hb.stored] at hold
    rw [hb'.stored] at hnew
    obtain ⟨v, hv, rfl⟩ := Option.map_eq_some_iff.mp hold
    obtain ⟨w, hw, rfl⟩ := Option.map_eq_some_iff.mp hnew
    have := hle id
    rw [Book.length_of_held hv, Book.length_of_held hw] at this
    exact hpre.eq_of_length (Nat.le_antisymm hpre.length_le this)

namespace Sample

open Core.Sample

/-- The client of the identity with this seed. -/
def client (seed : UInt8) (hub : Bool) : Env crypto where
  identity := seed
  hub := hub
  home := "/home/user/.local/share/wicara"
  decodeLog := decodeAmong [kitchen, kicked, studyKicked, studyLeft]

/-- The hub's answer when this is the log it has. -/
def served (log : List RoomEntry) : Reply :=
  some ⟨200, "200 OK", "", none, [.ok (logToStdvec log)]⟩

/-- A store that knows one room by this log. -/
def storeWith (me : Key) (id : RoomId) (log : List RoomEntry) : Store :=
  { Store.fresh me with rooms := Table.empty.upsert id log }

/-- A client that has come up on this log of one room. -/
def cameUp (seed : UInt8) (hub : Bool) (id : RoomId) (log : List RoomEntry) : App :=
  after (loadRooms (client seed hub) .ok fun _ => none) (App.start (storeWith (key seed) id log))

/-- An op for the kitchen from 3, whom the founder has kicked. -/
def knock : Frame := .inRoom kitchenRoom.id (.chat ⟨key 3, 1, 5⟩ "let me in" none)

end Sample

open Core.Sample Sample in
/-- The kicked member sends an op, the hub answers with the log from before the kick, and
the kick is gone from the store and from memory. -/
theorem stale_reply_undoes_kick :
    let s : RoomStep := .accept .ok (served kitchen) (key 3) knock
    let upToDate := cameUp 2 true kitchenRoom.id kicked
    let app := upToDate.step (client 2 true) s
    upToDate.store.rooms.get kitchenRoom.id = some kicked ∧
    app.store.rooms.get kitchenRoom.id = some kitchen ∧
    storedLength crypto app kitchenRoom.id < storedLength crypto upToDate kitchenRoom.id ∧
    app.heldLength kitchenRoom.id < upToDate.heldLength kitchenRoom.id ∧
    upToDate.isMember kitchenRoom.id (key 3) = false ∧
    app.isMember kitchenRoom.id (key 3) = true := by
  decide +kernel

namespace Sample

open Core.Sample

theorem storeWith_verifies (me : Key) {id : RoomId} {log : List RoomEntry} {room : Room}
    (h : verifyLog crypto log = .ok room) (hid : room.id = id) :
    ∀ id' log', (storeWith me id log).rooms.get id' = some log' →
      ∃ room, verifyLog crypto log' = .ok room ∧ room.id = id' := by
  intro id' log' hget
  simp only [storeWith, Table.get_upsert, Table.get_empty] at hget
  split at hget
  · rename_i hid'
    cases hget
    exact ⟨room, h, hid.trans hid'.symm⟩
  · cases hget

theorem cameUp_run {seed : UInt8} {hub : Bool} {id : RoomId} {log : List RoomEntry}
    (h : succeeds (loadRooms (client seed hub) .ok fun _ => none)
      (App.start (storeWith (key seed) id log)) = true) :
    (loadRooms (client seed hub) .ok fun _ => none).run (App.start (storeWith (key seed) id log)) =
      .ok .unit (cameUp seed hub id log) :=
  run_of_succeeds h

end Sample

open Core.Sample Sample in
/-- A client that is behind fetches the kick. -/
theorem room_never_rolls_back_kitchen :
    let behind := cameUp 2 true kitchenRoom.id kitchen
    let app := run (App.step (client 2 true)) behind [.fetch .ok kitchenRoom.id (served kicked)]
    storedLength crypto behind kitchenRoom.id ≤ storedLength crypto app kitchenRoom.id ∧
    behind.heldLength kitchenRoom.id ≤ app.heldLength kitchenRoom.id := by
  have hreply : Hub.room (client 2 true) kitchenRoom.id (served kicked) =
      .ok (kitchenRoom.after crypto (signed 1 kitchenRoom.head 4 (.kick (key 3))), kicked) := by
    decide +kernel
  have hfresh : RoomStep.Fresh (client 2 true) (cameUp 2 true kitchenRoom.id kitchen)
      (.fetch .ok kitchenRoom.id (served kicked)) := by
    refine ⟨?_, fun _ _ _ _ _ hs => by cases hs⟩
    rintro - id reply room entries hf hroom
    cases hf
    rw [hreply] at hroom
    cases hroom
    decide +kernel
  have h := room_never_rolls_back (client 2 true) (storeWith_verifies _ verifyLog_kitchen rfl)
    (cameUp_run (by decide +kernel)) [] [.fetch .ok kitchenRoom.id (served kicked)]
    ⟨hfresh, trivial⟩ kitchenRoom.id
  simp only [run_nil, List.nil_append] at h
  exact ⟨h.1, h.2.1⟩

end Wicara.Client
