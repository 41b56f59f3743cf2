import Wicara.Core.Sample
import Wicara.Hub.Rooms
import Wicara.Lib.Interleaving

namespace Wicara.Hub

open Wicara.Core Lib Lib.Fallible Lib.Interleaving Lib.Run

/-- `HubStore::room` -/
def HubStore.room (io : Option String) (id : RoomId) :
    EStateM Error HubStore (Option (List UInt8)) := do
  attempt (io.map fun _ => Error.internal)
  let store ← get
  pure ((store.rooms.get id).map RoomRow.blob)

/-- `GET /room/{id}` -/
def getRoom (io : Option String) (path : Except Error RoomId) :
    EStateM Error HubStore (List UInt8) := do
  let id ← lift path
  match ← HubStore.room io id with
  | some blob => pure blob
  | none => throw ⟨404, "no such room"⟩

inductive RoomAnswer
  | status (code : Nat)
  | log (blob : List UInt8)

inductive RoomCall
  | put (body : List UInt8)
  | get

/-- Where a request stands: a body is looked at before the lock of the store is taken. -/
inductive RoomPc
  | start
  | checked (id : RoomId) (length : Nat) (body : List UInt8)
  | done (answer : Except Error RoomAnswer)

structure RoomTask where
  call : RoomCall
  io : Option String
  path : Except Error RoomId
  pc : RoomPc

variable (C : Crypto) (env : Env)

/-- The store's part of `put_room`: the count of affected rows decides the answer. -/
def storeRoom (io : Option String) (id : RoomId) (length : Nat) (body : List UInt8) :
    EStateM Error HubStore Nat := do
  let written ← HubStore.putRoom io id length body
  lift (ensure (written = true) (⟨409, "the stored log is at least this long already"⟩ : Error))
  pure 204

/-- The request, handled from start to end with nothing in between. -/
def RoomTask.sequential (t : RoomTask) : EStateM Error HubStore RoomAnswer :=
  match t.call with
  | .put body => do
    let code ← putRoom C env t.io t.path body
    pure (.status code)
  | .get => do
    let blob ← getRoom t.io t.path
    pure (.log blob)

/-- What `put_room` makes of the id and the body. -/
def checkRoom (path : Except Error RoomId) (body : List UInt8) : Except Error (RoomId × Nat) := do
  let id ← path
  let entries ← decode env body
  let room ← verified C entries
  ensure (room.id = id) (Error.badRequest "log does not belong to that room id")
  pure (id, entries.length)

/-- The next section of a request. -/
def RoomTask.next (t : RoomTask) : EStateM Error HubStore RoomPc :=
  match t.pc with
  | .start =>
    match t.call with
    | .put body => do
      let checked ← lift (checkRoom C env t.path body)
      pure (.checked checked.1 checked.2 body)
    | .get => do
      let answer ← t.sequential C env
      pure (.done (.ok answer))
  | .checked id length body => do
    let code ← storeRoom t.io id length body
    pure (.done (.ok (.status code)))
  | .done answer => pure (.done answer)

def RoomTask.advance (t : RoomTask) (s : HubStore) : RoomTask × HubStore :=
  match (t.next C env).run s with
  | .ok pc s => ({ t with pc := pc }, s)
  | .error err s => ({ t with pc := .done (.error err) }, s)

/-- The part of the request that a task has before it. -/
def RoomTask.remaining (t : RoomTask) : EStateM Error HubStore RoomAnswer :=
  match t.pc with
  | .start => t.sequential C env
  | .checked id length body => do
    let code ← storeRoom t.io id length body
    pure (.status code)
  | .done answer => lift answer

def RoomPc.left : RoomPc → Nat
  | .start => 2
  | .checked _ _ _ => 1
  | .done _ => 0

variable {C env}

theorem lift_bind (x : Except Error α) (f : α → Except Error β) :
    (lift (x >>= f) : EStateM Error HubStore β) = lift x >>= fun a => lift (f a) := by
  cases x <;> rfl

/-- The two sections of `put_room`. -/
theorem putRoom_eq (io : Option String) (path : Except Error RoomId) (body : List UInt8) :
    putRoom C env io path body = (do
      let checked ← lift (checkRoom C env path body)
      storeRoom io checked.1 checked.2 body) := by
  simp only [putRoom, checkRoom, storeRoom, lift_bind, bind_assoc]
  rfl

/-- One section taken off the front of what a task has before it. -/
theorem RoomTask.remaining_eq (t : RoomTask) :
    t.remaining C env =
      t.next C env >>= fun pc => RoomTask.remaining C env { t with pc := pc } := by
  obtain ⟨call, io, path, pc⟩ := t
  cases pc with
  | start =>
    cases call with
    | put body => simp only [remaining, next, sequential, putRoom_eq, bind_assoc, pure_bind]
    | get => simp [remaining, next, lift]
  | checked id length body => simp [remaining, next, lift]
  | done answer => simp [remaining, next]

/-- A section changes what is left of the request by what it does and by nothing else. -/
theorem RoomTask.run_remaining (t : RoomTask) (s : HubStore) :
    (t.remaining C env).run s =
      ((t.advance C env s).1.remaining C env).run (t.advance C env s).2 := by
  rw [remaining_eq, EStateM.run_bind, advance]
  cases (t.next C env).run s <;> rfl

/-- What was checked is a log of that room, and so many entries long. -/
def RoomPc.Judged (C : Crypto) (env : Env) : RoomPc → Prop
  | .checked id length body =>
    ∃ v : VerifiedLog C, env.decodeLog body = .ok v.log ∧ v.room.id = id ∧ v.log.length = length
  | _ => True

theorem checkRoom_eq_ok {path : Except Error RoomId} {body : List UInt8} {id : RoomId}
    {length : Nat} :
    checkRoom C env path body = .ok (id, length) ↔ path = .ok id ∧
      ∃ v : VerifiedLog C, env.decodeLog body = .ok v.log ∧ v.room.id = id ∧
        v.log.length = length := by
  simp only [checkRoom, bind_eq_ok, ensure_eq_ok, decode_eq_ok, verified_eq_ok, pure, Except.pure,
    Except.ok.injEq, Prod.mk.injEq]
  constructor
  · rintro ⟨id, hpath, entries, hdec, room, hr, -, hid, rfl, rfl⟩
    exact ⟨hpath, ⟨entries, room, hr⟩, hdec, hid, rfl⟩
  · rintro ⟨hpath, v, hdec, hid, rfl⟩
    exact ⟨id, hpath, v.log, hdec, v.room, v.replays, (), hid, rfl, rfl⟩

/-- All that a section can do: it leaves the rooms alone, or it puts a longer log in place. -/
inductive RoomTask.Section (C : Crypto) (env : Env) (t : RoomTask) (s : HubStore) :
    RoomPc → HubStore → Prop
  | answered (answer : Except Error RoomAnswer) : t.Section C env s (.done answer) s
  | judged {id : RoomId} {length : Nat} {body : List UInt8} (hpc : t.pc = .start)
      (judged : RoomPc.Judged C env (.checked id length body)) :
      t.Section C env s (.checked id length body) s
  | stored {id : RoomId} {length : Nat} {body : List UInt8} (hpc : t.pc = .checked id length body)
      (longer : ∀ row, s.rooms.get id = some row → row.length < length) :
      t.Section C env s (.done (.ok (.status 204)))
        { s with rooms := s.rooms.upsert id ⟨length, body⟩ }

/-- The conditional upsert, and what is said of it. -/
theorem wp_storeRoom {ok : Nat → HubStore → Prop} {err : Error → HubStore → Prop}
    (io : Option String) {id : RoomId} {length : Nat} {body : List UInt8} {s : HubStore}
    (hok : (∀ row, s.rooms.get id = some row → row.length < length) →
      ok 204 { s with rooms := s.rooms.upsert id ⟨length, body⟩ })
    (herr : ∀ e, err e s) : wp (storeRoom io id length body) ok err s := by
  simp only [storeRoom, HubStore.putRoom, wp_bind, wp_attempt, wp_get, wp_lift, wp_pure]
  refine ⟨fun _ => ?_, fun e _ => herr e⟩
  cases hrow : s.rooms.get id with
  | none =>
    simp only [wp_bind, wp_modify, wp_pure]
    refine ⟨fun _ _ => hok fun row h => ?_, fun err herr => ?_⟩
    · cases hrow.symm.trans h
    · cases herr
  | some old =>
    simp only [wp_ite, wp_bind, wp_modify, wp_pure]
    refine ⟨fun hlt => ⟨fun _ _ => hok fun row h => ?_, fun err herr => ?_⟩,
      fun _ => ⟨fun u hu => ?_, fun e _ => herr e⟩⟩
    · cases hrow.symm.trans h
      exact hlt
    · cases herr
    · cases hu

theorem RoomTask.wp_next (t : RoomTask) (s : HubStore) :
    wp (t.next C env) (t.Section C env s)
      (fun err => t.Section C env s (.done (.error err))) s := by
  obtain ⟨call, io, path, pc⟩ := t
  have hanswered (answer : Except Error RoomAnswer) {s' : HubStore} (h : s' = s) :
      Section C env ⟨call, io, path, pc⟩ s (.done answer) s' := h ▸ .answered answer
  cases pc with
  | start =>
    cases call with
    | put body =>
      simp only [next, wp_bind, wp_lift, wp_pure]
      refine ⟨fun checked hchecked => ?_, fun err _ => hanswered _ rfl⟩
      exact .judged rfl (checkRoom_eq_ok.mp hchecked).2
    | get =>
      simp only [next, sequential, getRoom, HubStore.room, wp_bind, wp_lift, wp_attempt, wp_get,
        wp_pure]
      refine ⟨fun id _ => ⟨fun _ => ?_, fun err _ => hanswered _ rfl⟩, fun err _ => hanswered _ rfl⟩
      cases s.rooms.get id <;> exact hanswered _ rfl
  | checked id length body =>
    rw [next, wp_bind]
    exact wp_storeRoom io (fun hlonger => .stored rfl hlonger) fun _ => hanswered _ rfl
  | done answer => exact hanswered _ rfl

variable (C env) in
theorem RoomTask.section_advance (t : RoomTask) (s : HubStore) :
    t.Section C env s (t.advance C env s).1.pc (t.advance C env s).2 := by
  have h : wp (t.next C env) _ _ s := t.wp_next s
  unfold wp at h
  unfold advance
  cases hrun : (t.next C env).run s <;> simpa [hrun] using h

theorem RoomTask.Section.left_le {t : RoomTask} {s s' : HubStore} {pc : RoomPc}
    (h : t.Section C env s pc s') : pc.left ≤ t.pc.left - 1 := by
  cases h with
  | judged hpc judged =>
    rw [hpc]
    exact Nat.le_refl _
  | _ => exact Nat.zero_le _

/-- Run on its own, a request is through after two sections, and has done what its function does
in one go. -/
theorem RoomTask.alone_eq_sequential (t : RoomTask) (hpc : t.pc = .start) (s : HubStore) :
    (t.sequential C env).run s =
      ((alone (advance C env) 2 t s).1.remaining C env).run (alone (advance C env) 2 t s).2 ∧
    (alone (advance C env) 2 t s).1.pc.left = 0 := by
  refine ⟨?_, alone_finishes (fun t : RoomTask => t.pc.left)
    (fun t s => (t.section_advance C env s).left_le) (by rw [hpc, RoomPc.left]) s⟩
  rw [← alone_meaning (fun t s => (RoomTask.remaining C env t).run s) run_remaining, remaining, hpc]

/-- Every row is a log of the room it is filed under, with its length beside it. -/
def HubStore.Sound (C : Crypto) (env : Env) (s : HubStore) : Prop :=
  ∀ id row, s.rooms.get id = some row →
    ∃ log room, env.decodeLog row.blob = .ok log ∧ verifyLog C log = .ok room ∧ room.id = id ∧
      log.length = row.length

/-- No row is lost or gets shorter, and one that is not the same is longer. -/
def HubStore.Ages (s s' : HubStore) : Prop :=
  ∀ id row, s.rooms.get id = some row → ∃ row', s'.rooms.get id = some row' ∧
    row.length ≤ row'.length ∧ (row'.blob ≠ row.blob → row.length < row'.length)

theorem Keeps.sound {s : HubStore} {b : Book C} (h : Keeps env s b) : s.Sound C env := by
  intro id row hrow
  obtain ⟨v, hv, hlength, hdec⟩ := h.get_some hrow
  exact ⟨v.log, v.room, hdec, v.replays.verifyLog_eq, b.filed id v hv, hlength.symm⟩

namespace HubStore.Ages

theorem refl (s : HubStore) : s.Ages s := fun _ row hrow =>
  ⟨row, hrow, Nat.le_refl _, fun h => absurd rfl h⟩

theorem trans (s t u : HubStore) (h : s.Ages t) (h' : t.Ages u) : s.Ages u := by
  intro id row hrow
  obtain ⟨row', hrow', hle, hne⟩ := h id row hrow
  obtain ⟨row'', hrow'', hle', hne'⟩ := h' id row' hrow'
  refine ⟨row'', hrow'', hle.trans hle', fun hblob => ?_⟩
  by_cases hsame : row'.blob = row.blob
  · exact hle.trans_lt (hne' (hsame ▸ hblob))
  · exact (hne hsame).trans_le hle'

end HubStore.Ages

/-- The step lemma: the rooms stay what they say they are, and only grow. -/
theorem RoomTask.Section.keeps {t : RoomTask} {s s' : HubStore} {pc : RoomPc}
    (h : t.Section C env s pc s') (ht : t.pc.Judged C env) (hs : ∃ b : Book C, Keeps env s b) :
    pc.Judged C env ∧ (∃ b : Book C, Keeps env s' b) ∧ s.Ages s' := by
  obtain ⟨b, hb⟩ := hs
  cases h with
  | answered answer => exact ⟨trivial, ⟨b, hb⟩, .refl s⟩
  | judged hpc judged => exact ⟨judged, ⟨b, hb⟩, .refl s⟩
  | stored hpc longer =>
    rw [hpc] at ht
    obtain ⟨v, hbody, rfl, rfl⟩ := ht
    refine ⟨trivial, ⟨b.put v, hb.upsert hbody⟩, fun id row hrow => ?_⟩
    by_cases hid : id = v.room.id
    · subst hid
      have hlt := longer row hrow
      exact ⟨_, by rw [Table.get_upsert, if_pos rfl], hlt.le, fun _ => hlt⟩
    · exact ⟨row, by rwa [Table.get_upsert, if_neg hid], Nat.le_refl _, fun h => absurd rfl h⟩

abbrev RoomTasks := Pool HubStore RoomTask

/-- Requests that have just come in, at a hub without rooms. -/
def RoomTasks.start (requests : List (RoomCall × Option String × Except Error RoomId)) :
    RoomTasks :=
  ⟨.empty, requests.map fun r => ⟨r.1, r.2.1, r.2.2, .start⟩⟩

theorem RoomTasks.holds_step {p : RoomTasks}
    (h : p.Holds (fun s => ∃ b : Book C, Keeps env s b) fun t _ => t.pc.Judged C env) (i : Nat) :
    (p.step (RoomTask.advance C env) i).Holds (fun s => ∃ b : Book C, Keeps env s b)
        (fun t _ => t.pc.Judged C env) ∧
      p.shared.Ages (p.step (RoomTask.advance C env) i).shared := by
  constructor
  · refine Pool.Holds.step (P := fun _ _ _ => True) (fun t s _ hs ht => ?_)
      (fun _ _ _ _ hu => hu) h fun _ _ _ _ _ => trivial
    have hkeeps := (t.section_advance C env s).keeps ht hs
    exact ⟨hkeeps.2.1, hkeeps.1⟩
  · cases ht : p.tasks[i]? with
    | none =>
      rw [Pool.step_of_none ht]
      exact .refl _
    | some t =>
      rw [Pool.step_of_some ht]
      exact ((t.section_advance C env p.shared).keeps (h.tasks i t ht) h.shared).2.2

/-- The run lemma. -/
theorem RoomTasks.holds_run {p : RoomTasks}
    (h : p.Holds (fun s => ∃ b : Book C, Keeps env s b) fun t _ => t.pc.Judged C env)
    (schedule : List Nat) :
    (run (Pool.step (RoomTask.advance C env)) p schedule).Holds
        (fun s => ∃ b : Book C, Keeps env s b) (fun t _ => t.pc.Judged C env) ∧
      p.shared.Ages (run (Pool.step (RoomTask.advance C env)) p schedule).shared := by
  induction schedule generalizing p with
  | nil => exact ⟨h, .refl _⟩
  | cons i schedule ih =>
    obtain ⟨hstep, hages⟩ := RoomTasks.holds_step h i
    obtain ⟨hrun, hages'⟩ := ih hstep
    exact ⟨hrun, hages.trans _ _ _ hages'⟩

/-- However the requests are interleaved: every row is a verified log of its room with its length
beside it, and between any two states of the run a row stays or gives way to a longer one. -/
theorem registry_holds_what_it_says (C : Crypto) (env : Env)
    (requests : List (RoomCall × Option String × Except Error RoomId))
    (earlier later : List Nat) :
    let now := run (Pool.step (RoomTask.advance C env)) (RoomTasks.start requests) earlier
    let then' := run (Pool.step (RoomTask.advance C env)) (RoomTasks.start requests)
      (earlier ++ later)
    now.shared.Sound C env ∧ now.shared.Ages then'.shared := by
  intro now then'
  have hstart : (RoomTasks.start requests).Holds (fun s => ∃ b : Book C, Keeps env s b)
      fun t _ => t.pc.Judged C env := by
    refine ⟨⟨_, keeps_empty⟩, fun i t ht => ?_⟩
    obtain ⟨r, -, rfl⟩ := List.mem_map.mp (List.mem_of_getElem? ht)
    trivial
  obtain ⟨hnow, -⟩ := RoomTasks.holds_run hstart earlier
  obtain ⟨-, hages⟩ := RoomTasks.holds_run hnow later
  rw [← run_append] at hages
  obtain ⟨b, hb⟩ := hnow.shared
  exact ⟨hb.sound, hages⟩

end Wicara.Hub
