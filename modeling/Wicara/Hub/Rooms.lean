import Wicara.Core.Book
import Wicara.Lib.Fallible
import Wicara.Lib.Table

namespace Wicara.Hub

open Wicara.Core Lib Lib.Fallible

/-- A row of `rooms`: the log as it was sent, and how many entries it decoded to. -/
structure RoomRow where
  length : Nat
  blob : List UInt8
  deriving DecidableEq

structure HubStore where
  rooms : Table RoomId RoomRow

def HubStore.empty : HubStore := ⟨.empty⟩

/-- A status code and the text that goes with it. -/
structure Error where
  status : Nat
  message : String
  deriving DecidableEq

def Error.badRequest (message : String) : Error := ⟨400, message⟩

/-- `From<anyhow::Error>`: what went wrong is logged and not told. -/
def Error.internal : Error := ⟨500, "internal error"⟩

/-- The upsert and its `WHERE excluded.length > rooms.length`; true if it wrote a row. -/
def HubStore.putRoom (io : Option String) (id : RoomId) (length : Nat) (blob : List UInt8) :
    EStateM Error HubStore Bool := do
  attempt (io.map fun _ => Error.internal)
  let store ← get
  match store.rooms.get id with
  | some row =>
    if row.length < length then do
      modify fun s => { s with rooms := s.rooms.upsert id ⟨length, blob⟩ }
      pure true
    else pure false
  | none => do
    modify fun s => { s with rooms := s.rooms.upsert id ⟨length, blob⟩ }
    pure true

/-- What the hub is given: `postcard`'s reader of room logs. -/
structure Env where
  decodeLog : List UInt8 → Except String (List RoomEntry)

variable (C : Crypto) (env : Env)

def decode (body : List UInt8) : Except Error (List RoomEntry) :=
  (env.decodeLog body).mapError fun e => .badRequest s!"malformed body: {e}"

def verified (entries : List RoomEntry) : Except Error Room :=
  (verifyLog C entries).mapError fun e => .badRequest e.message

/-- `PUT /room/{id}`; `path` is what `parse_endpoint` makes of the id. -/
def putRoom (io : Option String) (path : Except Error RoomId) (body : List UInt8) :
    EStateM Error HubStore Nat := do
  let id ← lift path
  let entries ← lift (decode env body)
  let room ← lift (verified C entries)
  lift (ensure (room.id = id) (Error.badRequest "log does not belong to that room id"))
  let written ← HubStore.putRoom io id entries.length body
  lift (ensure (written = true) (⟨409, "the stored log is at least this long already"⟩ : Error))
  pure 204

/-- What a request offers for the registry, if it gets as far as the store. -/
def offered (path : Except Error RoomId) (body : List UInt8) : Option (VerifiedLog C) :=
  match path with
  | .ok id =>
    match env.decodeLog body with
    | .ok entries => (VerifiedLog.ofLog C entries).filter fun v => v.room.id = id
    | .error _ => none
  | .error _ => none

variable {C} {env}

/-- The registry holds what the book says: blobs that decode to verified logs, with their
lengths beside them. -/
def Keeps (env : Env) (s : HubStore) (b : Book C) : Prop :=
  ∀ id, (s.rooms.get id).map (fun row => (row.length, env.decodeLog row.blob)) =
    (b.held id).map fun v => (v.log.length, .ok v.log)

theorem keeps_empty : Keeps env .empty (Book.empty : Book C) := fun _ => rfl

theorem decode_eq_ok {body : List UInt8} {entries : List RoomEntry} :
    decode env body = .ok entries ↔ env.decodeLog body = .ok entries := by
  rw [decode]
  cases env.decodeLog body <;> simp [Except.mapError]

theorem verified_eq_ok {entries : List RoomEntry} {room : Room} :
    verified C entries = .ok room ↔ Replays C entries room := by
  rw [← verifyLog_eq_ok, verified]
  cases verifyLog C entries <;> simp [Except.mapError]

theorem offered_eq_some {path : Except Error RoomId} {body : List UInt8} {v : VerifiedLog C} :
    offered C env path body = some v ↔ path = .ok v.room.id ∧ env.decodeLog body = .ok v.log := by
  cases path with
  | error err => simp [offered]
  | ok id =>
    simp only [offered]
    cases hbody : env.decodeLog body with
    | error err => simp
    | ok entries =>
      simp only [Option.filter_eq_some_iff, decide_eq_true_eq, Except.ok.injEq]
      constructor
      · rintro ⟨hv, rfl⟩
        exact ⟨rfl, (VerifiedLog.log_of_ofLog hv).symm⟩
      · rintro ⟨rfl, rfl⟩
        exact ⟨v.ofLog_log, rfl⟩

theorem Keeps.get_none {s : HubStore} {b : Book C} (h : Keeps env s b) {id : RoomId}
    (hid : s.rooms.get id = none) : b.held id = none := by
  have := h id
  rw [hid] at this
  exact Option.map_eq_none_iff.mp this.symm

theorem Keeps.get_some {s : HubStore} {b : Book C} (h : Keeps env s b) {id : RoomId}
    {row : RoomRow} (hid : s.rooms.get id = some row) :
    ∃ v, b.held id = some v ∧ row.length = v.log.length ∧ env.decodeLog row.blob = .ok v.log := by
  have := h id
  rw [hid] at this
  obtain ⟨v, hv, heq⟩ := Option.map_eq_some_iff.mp this.symm
  simp only [Prod.mk.injEq] at heq
  exact ⟨v, hv, heq.1.symm, heq.2.symm⟩

theorem Keeps.upsert {s : HubStore} {b : Book C} (h : Keeps env s b) {v : VerifiedLog C}
    {body : List UInt8} (hbody : env.decodeLog body = .ok v.log) :
    Keeps env { s with rooms := s.rooms.upsert v.room.id ⟨v.log.length, body⟩ } (b.put v) := by
  intro id
  rw [Table.get_upsert, Book.held_put]
  by_cases hid : id = v.room.id
  · simp [hid, hbody]
  · rw [if_neg hid, if_neg hid]
    exact h id

/-- The registry applies the longer-only rule, and nothing else replaces a log. -/
theorem keeps_store_putRoom (io : Option String) {s : HubStore} {b : Book C} (h : Keeps env s b)
    {v : VerifiedLog C} {body : List UInt8} (hbody : env.decodeLog body = .ok v.log) :
    wp (HubStore.putRoom io v.room.id v.log.length body)
      (fun _ s => io = none ∧ Keeps env s (b.offer v))
      (fun _ s => io ≠ none ∧ Keeps env s b) s := by
  simp only [HubStore.putRoom, wp_bind, wp_attempt, wp_get, Option.map_eq_none_iff]
  constructor
  · intro hio
    rw [Book.offer]
    cases hrow : s.rooms.get v.room.id with
    | none =>
      rw [Book.length_of_none (h.get_none hrow), if_pos (v.length_eq ▸ v.length_pos)]
      exact ⟨hio, h.upsert hbody⟩
    | some row =>
      obtain ⟨w, hw, hlen, -⟩ := h.get_some hrow
      rw [Book.length_of_held hw, ← hlen, v.length_eq]
      simp only [wp_ite, wp_bind, wp_modify, wp_pure]
      constructor
      · intro hlt
        rw [if_pos hlt]
        exact ⟨hio, h.upsert hbody⟩
      · intro hge
        rw [if_neg hge]
        exact ⟨hio, h⟩
  · intro err herr
    refine ⟨?_, h⟩
    rintro rfl
    cases herr

/-- What the book makes of a request. -/
def taken (C : Crypto) (env : Env) (io : Option String) (path : Except Error RoomId)
    (body : List UInt8) (b : Book C) : Book C :=
  match offered C env path body with
  | some v => if io = none then b.offer v else b
  | none => b

theorem keeps_putRoom {s : HubStore} {b : Book C} (h : Keeps env s b) (io : Option String)
    (path : Except Error RoomId) (body : List UInt8) :
    Keeps env (after (putRoom C env io path body) s) (taken C env io path body b) := by
  refine (wp_after (P := fun s => Keeps env s (taken C env io path body b))).mp ?_
  cases hoff : offered C env path body with
  | none =>
    simp only [putRoom, taken, hoff, wp_bind, wp_lift]
    refine ⟨fun id hid => ⟨fun entries hdec => ⟨fun room hroom =>
      ⟨fun u hu => ?_, ?_⟩, ?_⟩, ?_⟩, ?_⟩
    · -- nothing gets past the checks that was not offered
      have hv : offered C env path body = some ⟨entries, room, verified_eq_ok.mp hroom⟩ :=
        offered_eq_some.mpr ⟨by rw [hid, ensure_eq_ok.mp hu], decode_eq_ok.mp hdec⟩
      rw [hoff] at hv
      cases hv
    all_goals exact fun _ _ => h
  | some v =>
    obtain ⟨rfl, hbody⟩ := offered_eq_some.mp hoff
    have hdec : decode env body = .ok v.log := decode_eq_ok.mpr hbody
    have hver : verified C v.log = .ok v.room := verified_eq_ok.mpr v.replays
    simp only [putRoom, taken, hoff, wp_bind, wp_lift, hdec, hver, ensure, if_true, wp_pure,
      Except.ok.injEq, forall_eq', reduceCtorEq, false_imp_iff, implies_true, and_true]
    refine fun _ _ => wp_mono ?_ ?_ (keeps_store_putRoom io h hbody)
    · rintro written s' ⟨hio, hs'⟩
      rw [if_pos hio]
      exact ⟨fun _ _ => hs', fun _ _ => hs'⟩
    · rintro err s' ⟨hio, hs'⟩
      rw [if_neg hio]
      exact hs'

/-- One `PUT /room/{id}` and whether sqlite fails it. -/
structure Put where
  io : Option String
  path : Except Error RoomId
  body : List UInt8

def HubStore.put (C : Crypto) (env : Env) (s : HubStore) (r : Put) : HubStore :=
  after (Hub.putRoom C env r.io r.path r.body) s

/-- The request is refused or fails, brings a log that is no longer, or one that goes on
where the stored one ends. -/
def Put.Continues (C : Crypto) (env : Env) (s : HubStore) (r : Put) : Prop :=
  ∀ id row H N room, r.path = .ok id → r.io = none → s.rooms.get id = some row →
    env.decodeLog row.blob = .ok H → env.decodeLog r.body = .ok N → verifyLog C N = .ok room →
    room.id = id → H.length < N.length → Links C H N

def Put.Within (env : Env) (E : Set RoomEntry) (r : Put) : Prop :=
  ∀ N, env.decodeLog r.body = .ok N → ∀ e ∈ N, e ∈ E

theorem taken_of_offered {r : Put} {b : Book C} {w : VerifiedLog C}
    (h : offered C env r.path r.body = some w) :
    taken C env r.io r.path r.body b = if r.io = none then b.offer w else b := by
  rw [taken, h]

/-- The log the registry has of a room. -/
def HubStore.log (env : Env) (s : HubStore) (id : RoomId) : Option (List RoomEntry) :=
  (s.rooms.get id).bind fun row => (env.decodeLog row.blob).toOption

theorem Keeps.log {s : HubStore} {b : Book C} (h : Keeps env s b) (id : RoomId) :
    s.log env id = (b.held id).map VerifiedLog.log := by
  have := congrArg (Option.map fun p => Except.toOption p.2) (h id)
  rw [Option.map_map, Option.map_map] at this
  rw [HubStore.log]
  cases hrow : s.rooms.get id <;> cases hv : b.held id <;> simp_all [Except.toOption]

/-- Exactly when a log that replaces the stored one extends it. -/
theorem put_extends_iff {s : HubStore} {b : Book C} (h : Keeps env s b) (r : Put) {id : RoomId}
    {H N : List RoomEntry} (hH : s.log env id = some H) (hN : env.decodeLog r.body = .ok N)
    (hfree : CollisionFree C (entriesOf H N)) :
    ((s.put C env r).log env id = some N → H <+: N) ↔
      (r.path = .ok id → r.io = none → ∀ room, verifyLog C N = .ok room → room.id = id →
        H.length < N.length → Links C H N) := by
  have h' : Keeps env (s.put C env r) (taken C env r.io r.path r.body b) :=
    keeps_putRoom h r.io r.path r.body
  rw [h.log] at hH
  obtain ⟨v, hv, rfl⟩ := Option.map_eq_some_iff.mp hH
  rw [h'.log]
  -- a request that takes nothing here leaves the stored log
  have hkept : ((taken C env r.io r.path r.body b).held id = some v) →
      (((taken C env r.io r.path r.body b).held id).map VerifiedLog.log = some N →
        v.log <+: N) := by
    intro hsame heq
    rw [hsame, Option.map_some, Option.some.injEq] at heq
    rw [heq]
  cases hoff : offered C env r.path r.body with
  | none =>
    refine iff_of_true (hkept (by rw [taken, hoff]; exact hv)) ?_
    intro hpath _ room hroom hid
    have hw : offered C env r.path r.body = some ⟨N, room, replays_of_verifyLog hroom⟩ :=
      offered_eq_some.mpr ⟨by rw [hpath, ← hid], hN⟩
    rw [hoff] at hw
    cases hw
  | some w =>
    obtain ⟨hpath, hbody⟩ := offered_eq_some.mp hoff
    obtain rfl : w.log = N := by simpa [hbody] using hN
    by_cases hid : w.room.id = id
    · subst hid
      by_cases hio : r.io = none
      · rw [taken_of_offered hoff, if_pos hio, Book.extends_offer_iff hv hfree]
        simp only [hpath, hio, true_imp_iff, verifyLog_eq_ok]
        exact ⟨fun hl room _ _ => hl, fun hl => hl w.room w.replays rfl⟩
      · refine iff_of_true (hkept ?_) fun _ hio' => absurd hio' hio
        rw [taken_of_offered hoff, if_neg hio]
        exact hv
    · refine iff_of_true (hkept ?_) ?_
      · rw [taken_of_offered hoff]
        split
        · rw [Book.offer]
          split
          · rw [Book.held_put_of_ne b (Ne.symm hid)]
            exact hv
          · exact hv
        · exact hv
      · intro hpath' _
        rw [hpath, Except.ok.injEq] at hpath'
        exact absurd hpath' hid

/-- The step lemma of the registry. -/
theorem Put.Continues.grows {s : HubStore} {b : Book C} {E : Set RoomEntry} {r : Put}
    (hc : r.Continues C env s) (h : Keeps env s b) (hfree : CollisionFree C E) (hb : b.Within E)
    (hr : r.Within env E) :
    ∃ b' : Book C, Keeps env (s.put C env r) b' ∧ b'.Within E ∧ b.Grows b' := by
  refine ⟨_, keeps_putRoom h r.io r.path r.body, ?_⟩
  cases hoff : offered C env r.path r.body with
  | none =>
    rw [taken, hoff]
    exact ⟨hb, .refl b⟩
  | some w =>
    obtain ⟨hpath, hbody⟩ := offered_eq_some.mp hoff
    rw [taken_of_offered hoff]
    by_cases hio : r.io = none
    · rw [if_pos hio, Book.offer]
      split
      · rename_i hlt
        refine ⟨hb.put (hr _ hbody), Book.grows_put fun v hv => ?_⟩
        rw [Book.length_of_held hv, w.length_eq] at hlt
        refine (VerifiedLog.prefix_iff_links (hfree.logs (hb _ _ hv) (hr _ hbody)) hlt).mpr ?_
        cases hrow : s.rooms.get w.room.id with
        | none =>
          rw [h.get_none hrow] at hv
          cases hv
        | some row =>
          obtain ⟨v', hv', -, hdec⟩ := h.get_some hrow
          obtain rfl : v' = v := by simpa [hv'] using hv
          exact hc _ row _ _ w.room hpath hio hrow hdec hbody w.replays.verifyLog_eq rfl hlt
      · exact ⟨hb, .refl b⟩
    · rw [if_neg hio]
      exact ⟨hb, .refl b⟩

end Wicara.Hub
