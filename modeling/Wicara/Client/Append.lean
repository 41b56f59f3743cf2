import Wicara.Client.RoomRuns

namespace Wicara.Client

open Wicara.Core Lib Lib.Fallible

variable {C : Crypto}

/-- The log the store has for `append` to go on from; none to begin with for a create. -/
def App.logOf (app : App) : Option RoomId → Option (List RoomEntry)
  | none => some []
  | some id => app.store.rooms.get id

/-- `append` gets as far as having saved `old` with a new entry, the log of `room`. -/
structure Reaches (env : Env C) (io : Io) (app : App) (now : UInt64) (room : Option RoomId)
    (op : RoomOp) (old : List RoomEntry) (R : Room) : Prop where
  reads : room.isSome = true → io.rooms = none
  known : app.logOf room = some old
  verifies : verifyLog C (old ++ [nextEntry env now op old]) = .ok R
  saves : io.Saves

/-- There is no hub, or it takes the log. -/
def Published (env : Env C) (reply : Reply) : Prop :=
  env.hub = true → Hub.putRoom reply = .ok ()

instance (env : Env C) (reply : Reply) : Decidable (Published env reply) :=
  inferInstanceAs (Decidable (_ → _))

/-- The rooms are as they were and nothing was sent. -/
structure Quiet (app app' : App) : Prop where
  stored : app'.store.rooms = app.store.rooms
  shown : app'.rooms = app.rooms
  handed : app'.handed = app.handed
  outbound : app'.outbound = app.outbound
  mailing : app'.mailing = app.mailing

theorem Quiet.refl (app : App) : Quiet app app := ⟨rfl, rfl, rfl, rfl, rfl⟩

/-- The log of `room` is the old one and one new entry, and it has been handed to everyone
but this endpoint who was in the room or is in it now. -/
structure Told (env : Env C) (now : UInt64) (op : RoomOp) (old : List RoomEntry) (R : Room)
    (app app' : App) : Prop where
  stored : app'.store.rooms.get R.id = some (old ++ [nextEntry env now op old])
  handed : ∃ sent, app'.handed = app.handed ++ sent ∧
    ∀ k ∈ membersOf C old ∪ R.members, k ≠ env.me →
      (k, .roomUpdated R.id (old ++ [nextEntry env now op old])) ∈ sent

def AllOrNothing (env : Env C) (now : UInt64) (room : Option RoomId) (op : RoomOp)
    (app app' : App) : Prop :=
  Quiet app app' ∨ ∃ old R, app.logOf room = some old ∧
    verifyLog C (old ++ [nextEntry env now op old]) = .ok R ∧ Told env now op old R app app'

section

variable {env : Env C} {io : Io} {app : App}

theorem Reaches.unique {now : UInt64} {room : Option RoomId} {op : RoomOp}
    {old old' : List RoomEntry} {R R' : Room} (h : Reaches env io app now room op old R)
    (h' : Reaches env io app now room op old' R') : old = old' ∧ R = R' := by
  obtain rfl : old = old' := Option.some.inj (h.known.symm.trans h'.known)
  have := h.verifies.symm.trans h'.verifies
  exact ⟨rfl, Except.ok.inj this⟩

theorem wp_knownLog (io : Io) (app : App) (room : Option RoomId) :
    wp (knownLog io room)
      (fun old a => a = app ∧ (room.isSome = true → io.rooms = none) ∧ app.logOf room = some old)
      (fun _ a => a = app ∧ ∀ old, (room.isSome = true → io.rooms = none) →
        app.logOf room ≠ some old) app := by
  cases room with
  | none => exact ⟨rfl, nofun, rfl⟩
  | some id =>
    simp only [knownLog, App.logOf, wp_bind, wp_attempt, wp_get, Option.isSome_some]
    constructor
    · intro hio
      cases app.store.rooms.get id with
      | none => simp
      | some log => simp [hio]
    · intro err herr
      refine ⟨trivial, fun _ hio => ?_⟩
      rw [hio trivial] at herr
      cases herr

theorem wp_saveRoom (id : RoomId) (log : List RoomEntry) :
    wp (inStore (Store.saveRoom io.saveRoom id log))
      (fun _ a => io.Saves ∧ a.store.rooms = app.store.rooms.upsert id log ∧
        a.rooms = app.rooms ∧ a.handed = app.handed)
      (fun _ a => ¬io.Saves ∧ Quiet app a) app := by
  simp only [inStore, Store.saveRoom, wp_zoom, wp_bind, wp_attempt, wp_modify]
  refine ⟨fun h0 => ⟨fun h1 => ⟨⟨h0, h1⟩, trivial, trivial, trivial⟩, fun e he => ?_⟩,
    fun e he => ?_⟩
  · exact ⟨fun hs => by simp [hs.2] at he, ⟨rfl, rfl, rfl, rfl, rfl⟩⟩
  · exact ⟨fun hs => by simp [hs.1] at he, ⟨rfl, rfl, rfl, rfl, rfl⟩⟩

theorem wp_publishRoom (reply : Reply) (room : Room) :
    wp (publishRoom env io reply room)
      (fun _ a => (io.history = none ∧ Published env reply) ∧ a.store = app.store ∧
        a.handed = app.handed)
      (fun _ a => ¬(io.history = none ∧ Published env reply) ∧ a.store = app.store ∧
        a.handed = app.handed) app := by
  simp only [publishRoom, showRoom, insertRoom, sendLog, wp_bind, wp_modify, wp_emit, wp_get,
    wp_lift, wp_ite, wp_pure]
  constructor
  · intro entries hentries
    have hio : io.history = none := by
      cases hio : io.history with
      | none => rfl
      | some err => simp [Store.history, hio] at hentries
    refine ⟨fun hhub => ⟨fun u hput => ?_, fun err hput => ?_⟩, fun hhub => ?_⟩
    · exact ⟨⟨hio, fun _ => hput⟩, trivial, trivial⟩
    · refine ⟨fun h => ?_, trivial, trivial⟩
      rw [h.2 hhub] at hput
      cases hput
    · exact ⟨⟨hio, fun h => absurd h hhub⟩, trivial, trivial⟩
  · intro err herr
    refine ⟨fun h => ?_, trivial, trivial⟩
    simp [Store.history, h.1] at herr

/-- Everything `append` can do: stop before anything is saved, or save, and then hand the
log round only if the conversation refolds and the hub takes the log. -/
theorem append_spec (env : Env C) (io : Io) (app : App) (reply : Reply) (now : UInt64)
    (room : Option RoomId) (op : RoomOp) :
    let P := fun a : App =>
      (Quiet app a ∧ ∀ old R, ¬Reaches env io app now room op old R) ∨
      ∃ old R, Reaches env io app now room op old R ∧
        a.store.rooms = app.store.rooms.upsert R.id (old ++ [nextEntry env now op old]) ∧
        a.handed = app.handed ++
          if io.history = none ∧ Published env reply then
            told env.me R.id (old ++ [nextEntry env now op old])
              (inOrder (membersOf C old ∪ R.members))
          else []
    wp (append env io reply now room op) (fun _ => P) (fun _ => P) app := by
  intro P
  simp only [append]
  rw [wp_bind]
  refine wp_mono ?_ ?_ (wp_knownLog io app room)
  · rintro old a ⟨rfl, hreads, hknown⟩
    rw [wp_bind, wp_lift]
    constructor
    · rintro ⟨R, entries, notify⟩ hext
      obtain ⟨hr, rfl, hnotify⟩ := extend_eq_ok.mp hext
      obtain rfl : notify = membersOf C old ∪ R.members := hnotify
      rw [wp_bind]
      refine wp_mono ?_ ?_ (wp_saveRoom R.id _)
      · rintro - a' ⟨hs, hstore, hrooms, hhanded⟩
        have hreach : Reaches env io a now room op old R :=
          ⟨hreads, hknown, hr.verifyLog_eq, hs⟩
        rw [wp_bind]
        refine wp_mono ?_ ?_ (wp_publishRoom reply R)
        · rintro - a'' ⟨hok, hstore', hhanded'⟩
          refine wp_mono (fun _ a₃ h₃ => .inr ⟨old, R, hreach, ?_, ?_⟩) (fun _ _ hf => hf.elim)
            (wp_notifyEach R.id _ _)
          · rw [h₃.1, hstore', hstore]
          · rw [h₃.2.2, hhanded', hhanded, if_pos hok]
        · rintro - a'' ⟨hno, hstore', hhanded'⟩
          refine .inr ⟨old, R, hreach, ?_, ?_⟩
          · rw [hstore', hstore]
          · rw [hhanded', hhanded, if_neg hno, List.append_nil]
      · rintro - a' ⟨hs, hquiet⟩
        exact .inl ⟨hquiet, fun _ _ h => hs h.saves⟩
    · rintro err herr
      refine .inl ⟨.refl _, fun old' R h => ?_⟩
      obtain rfl : old = old' := Option.some.inj (hknown.symm.trans h.known)
      have hok : extend env now op old = .ok ⟨R, _, membersOf C old ∪ R.members⟩ :=
        extend_eq_ok.mpr ⟨replays_of_verifyLog h.verifies, rfl, rfl⟩
      rw [hok] at herr
      cases herr
  · rintro - a ⟨rfl, hno⟩
    exact .inl ⟨.refl _, fun old R h => hno old h.reads h.known⟩

theorem mem_told {me k : Key} {id : RoomId} {entries : List RoomEntry} {members : Finset Key}
    (hk : k ∈ members) (hne : k ≠ me) :
    (k, Frame.roomUpdated id entries) ∈ told me id entries (inOrder members) := by
  simp [told, hk, hne]

/-- Only the founder is in a room that was just created. -/
theorem members_of_create {now : UInt64} {op : RoomOp} {R : Room}
    (h : verifyLog C ([] ++ [nextEntry env now op []]) = .ok R) : R.members = {env.me} := by
  obtain ⟨-, -, name, -, rfl⟩ := verifyLog_singleton.mp h
  rfl

theorem Mirrors.id_of_extension {b : Book C} (h : Mirrors app b) {id : RoomId}
    {old : List RoomEntry} {e : RoomEntry} {R : Room} (hold : app.logOf (some id) = some old)
    (hR : verifyLog C (old ++ [e]) = .ok R) : R.id = id := by
  rw [App.logOf, h.stored] at hold
  obtain ⟨v, hv, rfl⟩ := Option.map_eq_some_iff.mp hold
  let w : VerifiedLog C := ⟨_, R, replays_of_verifyLog hR⟩
  have hid : v.room.id = w.room.id := VerifiedLog.id_eq_of_prefix (List.prefix_append _ _)
  exact hid.symm.trans (b.filed id v hv)

/-- A log that nothing was sent of has been told to everyone only if there is nobody else. -/
theorem Told.alone {app' : App} {now : UInt64} {op : RoomOp} {old : List RoomEntry} {R : Room}
    (h : Told env now op old R app app') (hhanded : app'.handed = app.handed) :
    membersOf C old ∪ R.members ⊆ {env.me} := by
  obtain ⟨sent, hsent, htold⟩ := h.handed
  obtain rfl : sent = [] := by
    rw [hhanded] at hsent
    exact List.self_eq_append_right.mp hsent
  intro k hk
  by_contra hne
  exact absurd (htold k hk (by simpa using hne)) List.not_mem_nil

/-- A log that changed while nothing was sent, with somebody else in the room. -/
theorem not_allOrNothing_of_untold {app' : App} {now : UInt64} {id : RoomId} {op : RoomOp}
    {old new : List RoomEntry} {k : Key} (hold : app.store.rooms.get id = some old)
    (hnew : app'.store.rooms.get id = some new) (hne : old ≠ new)
    (hhanded : app'.handed = app.handed) (hk : k ∈ membersOf C old) (hme : k ≠ env.me) :
    ¬AllOrNothing env now (some id) op app app' := by
  rintro (hquiet | ⟨old', R, hlog, -, told⟩)
  · rw [hquiet.stored, hold] at hnew
    exact hne (Option.some.inj hnew)
  · obtain rfl : old = old' := Option.some.inj (hold.symm.trans hlog)
    have honly := told.alone hhanded (Finset.mem_union_left _ hk)
    exact hme (Finset.mem_singleton.mp honly)

open Core.Sample Sample in
/-- The founder kicks 3 while the hub is unreachable: the kick is stored and shown, and
nobody has been told. -/
theorem kick_without_hub_is_not_told :
    let app := cameUp 1 true kitchenRoom.id kitchen
    let app' := after (append (client 1 true) .ok none 4 (some kitchenRoom.id) (.kick (key 3))) app
    app.store.rooms.get kitchenRoom.id = some kitchen ∧
    app'.store.rooms.get kitchenRoom.id = some kicked ∧
    app'.isMember kitchenRoom.id (key 3) = false ∧ app'.handed = [] ∧
    ¬AllOrNothing (client 1 true) 4 (some kitchenRoom.id) (.kick (key 3)) app app' := by
  intro app app'
  have hold : app.store.rooms.get kitchenRoom.id = some kitchen := by decide +kernel
  have hnew : app'.store.rooms.get kitchenRoom.id = some kicked := by decide +kernel
  have hshown : app'.isMember kitchenRoom.id (key 3) = false := by decide +kernel
  have hhanded : app.handed = [] ∧ app'.handed = [] := by decide +kernel
  have hne : kitchen ≠ kicked := by decide +kernel
  clear_value app app'
  exact ⟨hold, hnew, hshown, hhanded.2,
    not_allOrNothing_of_untold (k := key 2) hold hnew hne (hhanded.2.trans hhanded.1.symm)
      (by decide +kernel) (by decide +kernel)⟩

/-- Whatever the hub does, `append` is all or nothing exactly when nothing gets saved, when
the conversation refolds and the hub is absent or takes the log, or when nobody else is or
was in the room. -/
theorem append_all_or_nothing_iff (env : Env C) (io : Io) {app : App} {b : Book C}
    (h : Mirrors app b) (reply : Reply) (now : UInt64) (room : Option RoomId) (op : RoomOp) :
    AllOrNothing env now room op app (after (append env io reply now room op) app) ↔
      ∀ old R, Reaches env io app now room op old R →
        (io.history = none ∧ Published env reply) ∨ membersOf C old ∪ R.members ⊆ {env.me} := by
  rcases wp_after.mp (append_spec env io app reply now room op) with
    ⟨hquiet, hno⟩ | ⟨old, R, hreach, hstore, hhanded⟩
  · exact iff_of_true (.inl hquiet) fun old R hr => absurd hr (hno old R)
  have hstored : (after (append env io reply now room op) app).store.rooms.get R.id =
      some (old ++ [nextEntry env now op old]) := by
    rw [hstore, Table.get_upsert, if_pos rfl]
  constructor
  · intro hall old' R' hreach'
    obtain ⟨rfl, rfl⟩ := hreach.unique hreach'
    by_cases hok : io.history = none ∧ Published env reply
    · exact .inl hok
    right
    rw [if_neg hok, List.append_nil] at hhanded
    rcases hall with hquiet | ⟨old', R', hlog, hroom, htold⟩
    · -- something was stored all the same, unless the very same room had been created before
      rw [hquiet.stored] at hstored
      cases room with
      | none =>
        obtain rfl : [] = old := Option.some.inj hreach.known
        rw [members_of_create hreach.verifies]
        simp [membersOf, verifyLog]
      | some id =>
        have hid : R.id = id := h.id_of_extension hreach.known hreach.verifies
        have hold : app.store.rooms.get id = some old := hreach.known
        rw [hid, hold] at hstored
        simp at hstored
    · -- nobody was told
      obtain rfl : old = old' := Option.some.inj (hreach.known.symm.trans hlog)
      obtain rfl : R = R' := Except.ok.inj (hreach.verifies.symm.trans hroom)
      exact htold.alone hhanded
  · intro hcond
    refine .inr ⟨old, R, hreach.known, hreach.verifies, hstored, ?_⟩
    refine ⟨_, hhanded, fun k hk hne => ?_⟩
    rcases hcond old R hreach with hok | honly
    · rw [if_pos hok]
      exact mem_told hk hne
    · exact absurd (Finset.mem_singleton.mp (honly hk)) hne

end

open Core.Sample Sample in
/-- The same kick when the hub takes the log. -/
theorem append_all_or_nothing_kitchen :
    AllOrNothing (client 1 true) 4 (some kitchenRoom.id) (.kick (key 3))
      (cameUp 1 true kitchenRoom.id kitchen)
      (after (append (client 1 true) .ok (some ⟨204, "204 No Content", "", none, []⟩) 4
        (some kitchenRoom.id) (.kick (key 3))) (cameUp 1 true kitchenRoom.id kitchen)) := by
  have hmirrors : Mirrors (cameUp 1 true kitchenRoom.id kitchen) (bookOf crypto _) :=
    mirrors_boot (bookOf_held (storeWith_verifies (key 1) verifyLog_kitchen rfl))
      (cameUp_run (by decide +kernel))
  exact (append_all_or_nothing_iff (client 1 true) .ok hmirrors _ 4 _ _).mpr
    fun _ _ _ => .inl ⟨rfl, fun _ => rfl⟩

end Wicara.Client
