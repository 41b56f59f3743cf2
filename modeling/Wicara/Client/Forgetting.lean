import Wicara.Client.StoreTasks

namespace Wicara.Client

open Wicara.Core Lib Lib.Fallible Lib.Run Lib.Interleaving

/-- What a section can put into a conversation. -/
inductive StoreWrite
  | op (io : Sqlite) (peer : Key) (frame : Frame)
  | room (io : Sqlite) (id : RoomId) (log : List RoomEntry)

def StoreWrite.act : StoreWrite → EStateM String Store PUnit
  | .op io peer frame => ignore (Store.record io peer frame)
  | .room io id log => Store.saveRoom io id log

/-- The write gets as far as the contact of this conversation. -/
def StoreWrite.Brings (peer : Key) : StoreWrite → Prop
  | .op io conversation frame => conversation = peer ∧ frame.id ≠ none ∧ io 0 = none
  | .room io id _ => id = peer ∧ io 0 = none

instance (peer : Key) : DecidablePred (StoreWrite.Brings peer)
  | .op _ _ _ => inferInstanceAs (Decidable (_ ∧ _ ∧ _))
  | .room _ _ _ => inferInstanceAs (Decidable (_ ∧ _))

def Task.writes (t : Task) : Option StoreWrite :=
  t.pc.saving.map fun w => .room t.io.saveRoom w.id w.entries

def Arrival.writes (a : Arrival) : Option StoreWrite :=
  match a.pc with
  | .record => some (.op a.io.record (a.frame.conversation a.sender) a.frame.unwrapRoom)
  | .absorbing task | .entering _ task => task.writes
  | _ => none

def Dispatch.writes (d : Dispatch) : Option StoreWrite :=
  match d.pc with
  | .record x peer frame => some (.op x.remove.io.record peer frame)
  | _ => none

def FileTask.writes : FileTask → Option StoreWrite
  | .send io peer _ (.record header) => some (.op io.io.record peer header.frame)
  | .receive io peer .start =>
    match admissible io peer with
    | .ok header => some (.op io.io.record peer header.frame)
    | .error _ => none
  | _ => none

/-- What the next section of a task writes. -/
def StoreTask.writes : StoreTask → Option StoreWrite
  | .dispatch d => d.writes
  | .file t => t.writes
  | .live a | .mail _ _ _ (.taken a) => a.writes
  | .mail _ _ _ _ => none
  | .room t => t.writes

/-- The store has nothing of this conversation. -/
def Store.Gone (peer : Key) (s : Store) : Prop :=
  (∀ row ∈ s.ops.rows, row.2.1 ≠ peer) ∧ peer ∉ s.contacts.keys

/-- The section that a task takes next does not bring the conversation back. -/
def StoreTasks.Leaves (peer : Key) (p : Pool World StoreTask) (i : Nat) : Prop :=
  ∀ t ∈ p.tasks[i]?, ∀ write ∈ t.writes, ¬write.Brings peer

instance (peer : Key) (p : Pool World StoreTask) (i : Nat) :
    Decidable (StoreTasks.Leaves peer p i) :=
  inferInstanceAs (Decidable (∀ t ∈ p.tasks[i]?, ∀ write ∈ t.writes, ¬write.Brings peer))

variable {C : Crypto} {env : Env C} {m : Mail} {alphanumeric : Char → Bool} {peer : Key}

namespace Store

theorem Gone.sheds {s s' : Store} (h : s.Gone peer) (hsheds : s.Sheds s') : s'.Gone peer :=
  ⟨fun row hrow => h.1 row (hsheds.rows row hrow), fun hkey => h.2 (hsheds.contacts peer hkey)⟩

/-- Once its transaction is through, `forget` has taken everything. -/
theorem gone_forgotten (msgs : List Message) (peer : Key) (names : List String) (s : Store) :
    (forgotten msgs peer names s).Gone peer := by
  refine ⟨fun row hrow hpeer => ?_, fun hkey => ?_⟩
  · have := (List.mem_filter.mp hrow).2
    simp [hpeer] at this
  · exact (Table.mem_keys_erase.mp hkey).1 rfl

theorem gone_addContact {s : Store} (h : s.Gone peer) {key : Key} (hkey : key ≠ peer) :
    ({ s with contacts := s.contacts.insertOrIgnore key () } : Store).Gone peer := by
  refine ⟨h.1, fun hmem => ?_⟩
  rcases Table.mem_keys_insertOrIgnore.mp hmem with rfl | hold
  · exact hkey rfl
  · exact h.2 hold

theorem gone_addOp {s : Store} (h : s.Gone peer) {key : Key} (hkey : key ≠ peer) (id : MessageId)
    (frame : Frame) :
    ({ s with ops := s.ops.insertOrIgnore id (key, frame) } : Store).Gone peer := by
  refine ⟨fun row hrow => ?_, h.2⟩
  rcases Table.mem_insertOrIgnore hrow with hold | ⟨-, rfl⟩
  · exact h.1 row hold
  · exact hkey

end Store

namespace StoreWrite

variable {s : Store} {write : StoreWrite}

/-- A write that gets as far as the contact leaves it there. -/
theorem Brings.contact (h : write.Brings peer) : peer ∈ (after write.act s).contacts.keys := by
  cases write with
  | op io key frame =>
    obtain ⟨rfl, hid, hio⟩ := h
    obtain ⟨id, hid⟩ := Option.ne_none_iff_exists'.mp hid
    rw [act, after_ignore]
    refine (wp_after (P := fun s : Store => key ∈ s.contacts.keys)).mp ?_
    simp only [Store.record, hid, wp_bind, wp_attempt, wp_modify, wp_get, wp_pure]
    simp [hio]
  | room io id log =>
    obtain ⟨rfl, hio⟩ := h
    refine (wp_after (P := fun s : Store => id ∈ s.contacts.keys)).mp ?_
    simp [act, Store.saveRoom, hio]

theorem gone_act (h : s.Gone peer) (hwrite : ¬write.Brings peer) :
    (after write.act s).Gone peer := by
  cases write with
  | op io key frame =>
    rw [act, after_ignore]
    refine wp_after.mp ?_
    unfold Store.record
    split
    · exact h
    · rename_i id hid
      simp only [wp_bind, wp_attempt, wp_modify, wp_get, wp_pure]
      refine ⟨fun hio => ?_, fun _ _ => h⟩
      have hkey : key ≠ peer := fun hkey => hwrite ⟨hkey, by simp [hid], hio⟩
      have hcontact := Store.gone_addContact h hkey
      exact ⟨fun _ => Store.gone_addOp hcontact hkey id frame, fun _ _ => hcontact⟩
  | room io id log =>
    refine wp_after.mp ?_
    simp only [act, Store.saveRoom, wp_bind, wp_attempt, wp_modify]
    refine ⟨fun hio => ?_, fun _ _ => h⟩
    have hcontact := Store.gone_addContact h fun hid => hwrite ⟨hid, hio⟩
    exact ⟨fun _ => hcontact, fun _ _ => hcontact⟩

/-- A write brings back what is gone exactly when it is about that conversation. -/
theorem gone_act_iff (h : s.Gone peer) (write : StoreWrite) :
    (after write.act s).Gone peer ↔ ¬write.Brings peer :=
  ⟨fun hgone hbrings => hgone.2 hbrings.contact, gone_act h⟩

end StoreWrite

/-- What a section makes of the store: what it writes, and otherwise nothing comes in. -/
inductive Wrote (s : Store) : Option StoreWrite → Store → Prop
  | wrote (write : StoreWrite) : Wrote s (some write) (after write.act s)
  | sheds {s' : Store} (h : s.Sheds s') : Wrote s none s'

theorem Wrote.of_eq {s s' : Store} (h : s' = s) : Wrote s none s' :=
  .sheds (h ▸ Std.Refl.refl (r := Store.Sheds) s)

theorem Wrote.recorded {s : Store} {io : Sqlite} {key : Key} {frame : Frame} :
    Wrote s (some (.op io key frame)) (after (Store.record io key frame) s) := by
  have h := Wrote.wrote (s := s) (.op io key frame)
  rwa [StoreWrite.act, after_ignore] at h

theorem Wrote.gone_iff {s s' : Store} {write : Option StoreWrite} (h : Wrote s write s')
    (hgone : s.Gone peer) : s'.Gone peer ↔ ∀ x ∈ write, ¬x.Brings peer := by
  cases h with
  | wrote write => simp [write.gone_act_iff hgone]
  | sheds hsheds => simp [hgone.sheds hsheds]

theorem after_inStore (m : EStateM String Store α) (app : App) :
    (after (inStore m) app).store = after m app.store := by
  rw [inStore, after_zoom]

theorem after_inApp (m : Act α) (w : World) : (after (inApp m) w).app = after m w.app := by
  rw [inApp, after_zoom]

theorem Task.wrote_advance (t : Task) (app : App) :
    Wrote app.store t.writes (t.advance env app).2.store := by
  rw [advance_snd]
  cases hsaving : t.pc.saving with
  | none =>
    rw [writes, hsaving]
    exact .of_eq (frames_next_of_saving (f := id) hsaving app)
  | some w =>
    obtain ⟨call, io, reply, pc⟩ := t
    cases pc with
    | save w' =>
      cases hsaving
      rw [next, after_bind_pure, after_inStore]
      exact .wrote (.room io.saveRoom w.id w.entries)
    | _ => cases hsaving

namespace Arrival

theorem advance_snd (a : Arrival) (app : App) : (a.advance env app).2 = after (a.next env) app := by
  unfold advance after
  cases (a.next env).run app <;> rfl

theorem frames_start (a : Arrival) : Frames App.store a.start := by
  unfold start
  split
  · exact frames_pure _
  · split
    · exact frames_pure _
    · refine .bind (frames_lift _) fun _ => ?_
      split
      · exact .bind frames_get fun _ => frames_pure _
      · exact frames_pure _

theorem frames_entered (room : RoomId) (task : Task) : Frames App.store (entered room task) := by
  unfold entered
  split
  · exact frames_pure _
  · exact fun _ => rfl
  · exact frames_pure _

theorem wrote_advance (a : Arrival) (app : App) :
    Wrote app.store a.writes (a.advance env app).2.store := by
  rw [advance_snd]
  obtain ⟨io, reply, sender, frame, pc⟩ := a
  cases pc with
  | start => exact .of_eq (frames_start _ app)
  | absorbing task => exact task.wrote_advance app
  | entering room task =>
    refine (wp_after (P := fun app' : App => Wrote app.store task.writes app'.store)).mp ?_
    have htask : Wrote app.store task.writes (task.advance env app).2.store :=
      task.wrote_advance app
    simp only [next, wp_bind, wp_within]
    refine wp_mono (fun _ _ h => ?_) (fun _ _ h => ?_)
      ((frames_entered room (task.advance env app).1).wp (task.advance env app).2)
    · rwa [h]
    · rwa [h]
  | recheck room =>
    refine .of_eq (Frames.bind ?_ (fun _ => frames_pure _) app)
    exact .bind frames_get fun _ => frames_lift _
  | checkMe room =>
    refine .of_eq (Frames.bind ?_ (fun _ => frames_pure _) app)
    exact .bind frames_get fun _ => frames_lift _
  | record =>
    rw [next, after_bind_pure, record, after_bind_pure, after_inStore]
    exact .recorded
  | done result => exact .of_eq rfl

end Arrival

theorem Wrote.of_sheds {w w' : World} (h : w.Sheds w') : Wrote w.app.store none w'.app.store :=
  .sheds h.store

namespace Dispatch

theorem wrote_advance (d : Dispatch) (w : World) :
    Wrote w.app.store d.writes (d.advance env w).2.app.store := by
  obtain ⟨queue, pc⟩ := d
  cases pc with
  | record x peer frame =>
    rw [advance_snd, next, after_bind_pure]
    refine (wp_after (P := fun w' : World => Wrote w.app.store _ w'.app.store)).mp ?_
    simp only [go, orWarn, wp_rescue, wp_bind, wp_inApp_inStore, wp_pure]
    refine wp_mono (fun _ _ h => h) (fun _ _ h => h) (wp_after.mpr .recorded)
  | _ => exact .of_sheds (moves_advance (sheds_next (by simp)) w)

end Dispatch

namespace FileTask

theorem store_advance (t : FileTask) (w : World) :
    (t.advance env alphanumeric w).2.app.store =
      (after (t.next env alphanumeric) w).app.store := by
  unfold advance after
  cases (t.next env alphanumeric).run w with
  | ok t' w' => rfl
  | error err w' => cases t <;> rfl

theorem after_recordHeader (io : Io) (key : Key) (header : Header) (w : World) :
    (after (recordHeader io key header) w).app.store =
      after (Store.record io.record key header.frame) w.app.store := by
  rw [recordHeader, after_bind_pure, after_inApp, after_inStore]

/-- Whether the task is one of the calls that are made in one go. -/
def Single : FileTask → Prop
  | .once _ _ => True
  | _ => False

theorem wrote_advance {t : FileTask} (ht : ¬t.Single) (w : World) :
    Wrote w.app.store t.writes (t.advance env alphanumeric w).2.app.store := by
  cases t with
  | send io key path pc =>
    cases pc with
    | record header =>
      rw [store_advance, next, after_bind_pure, after_recordHeader]
      exact .recorded
    | _ => exact .of_sheds (moves_advance (sheds_send (by simp)) (sheds_report _) w)
  | receive io key pc =>
    cases pc with
    | start =>
      rw [store_advance, next, after_bind_pure, readHeader, writes]
      cases admissible io key with
      | error err => exact .of_eq rfl
      | ok header =>
        change Wrote _ _
          (after (recordHeader io.io key header >>= fun _ => pure header) w).app.store
        rw [after_bind_pure, after_recordHeader]
        exact .recorded
    | _ => exact .of_sheds (moves_advance (sheds_receive (by simp)) (sheds_report _) w)
  | once call isDone => exact (ht trivial).elim

theorem not_single_advance {t : FileTask} (ht : ¬t.Single) (w : World) :
    ¬(t.advance env alphanumeric w).1.Single := by
  cases t with
  | send io key path pc =>
    have hsend : ∃ pc', (advance env alphanumeric (.send io key path pc) w).1 =
        .send io key path pc' ∧ Backed (fun _ => True) (.send io key path pc') :=
      advance_send env alphanumeric fun _ _ _ _ _ => trivial
    obtain ⟨pc', hpc', -⟩ := hsend
    rw [hpc']
    exact ht
  | receive io key pc =>
    obtain ⟨pc', hpc'⟩ := advance_receive env alphanumeric io key pc w
    rw [hpc']
    exact ht
  | once call isDone => exact (ht trivial).elim

end FileTask

namespace StoreTask

/-- Whether the task goes section by section. -/
def Steps : StoreTask → Prop
  | .file t => ¬t.Single
  | _ => True

theorem Fresh.steps {t : StoreTask} (h : t.Fresh) : t.Steps := by
  cases t with
  | file t =>
    cases t with
    | once call isDone => exact h.elim
    | _ => exact id
  | _ => trivial

theorem Steps.advance {t : StoreTask} (h : t.Steps) (w : World) :
    (t.advance env m alphanumeric w).1.Steps := by
  cases t with
  | file t => exact FileTask.not_single_advance h w
  | mail io reply envelope pc => cases pc <;> trivial
  | _ => trivial

/-- One section of a task, as the store sees it. -/
theorem wrote_advance {t : StoreTask} (h : t.Steps) (w : World) :
    Wrote w.app.store t.writes (t.advance env m alphanumeric w).2.app.store := by
  cases t with
  | dispatch d => exact d.wrote_advance w
  | file t => exact FileTask.wrote_advance h w
  | live a => exact a.wrote_advance w.app
  | mail io reply envelope pc =>
    cases pc with
    | taken a => exact a.wrote_advance w.app
    | _ => exact .of_eq rfl
  | room t => exact t.wrote_advance w.app

end StoreTask

theorem StoreTasks.steps_step (p : Pool World StoreTask) (i : Nat) (h : ∀ t ∈ p.tasks, t.Steps) :
    ∀ t ∈ (p.step (StoreTask.advance env m alphanumeric) i).tasks, t.Steps := by
  cases hi : p.tasks[i]? with
  | none => rwa [Pool.step_of_none hi]
  | some t =>
    rw [Pool.step_of_some hi]
    intro u hu
    rcases List.mem_or_eq_of_mem_set hu with hu | rfl
    · exact h u hu
    · exact (h t (List.mem_of_getElem? hi)).advance p.shared

theorem StoreTasks.gone_step_iff {p : Pool World StoreTask} (h : ∀ t ∈ p.tasks, t.Steps)
    (hgone : p.shared.app.store.Gone peer) (i : Nat) :
    (p.step (StoreTask.advance env m alphanumeric) i).shared.app.store.Gone peer ↔
      Leaves peer p i := by
  unfold Leaves
  cases hi : p.tasks[i]? with
  | none => simp [Pool.step_of_none hi, hgone]
  | some t =>
    rw [Pool.step_of_some hi]
    have hwrote : Wrote p.shared.app.store t.writes
        (t.advance env m alphanumeric p.shared).2.app.store :=
      StoreTask.wrote_advance (h t (List.mem_of_getElem? hi)) p.shared
    simpa using hwrote.gone_iff hgone

/-- The section in which `forget` deletes: nothing is left when it is through. -/
theorem Dispatch.gone_advance {queue : List (UiCommand × CommandIo)} {x : CommandIo} {w : World}
    (hread : x.remove.removal 0 = none) (hcommit : x.remove.removal 1 = none) :
    (Dispatch.advance env ⟨queue, .forgetStore x peer⟩ w).2.app.store.Gone peer := by
  rw [advance_snd, next, after_bind_pure]
  refine (wp_after (P := fun w : World => w.app.store.Gone peer)).mp ?_
  simp only [go, orWarn, forgetStore, unlinkAll, emit, status, Store.forget, Store.history,
    inApp, inStore, wp_rescue, wp_zoom, wp_bind, wp_get, wp_lift, wp_attempt, wp_modify, wp_pure,
    hread, hcommit]
  refine ⟨fun msgs _ => ⟨fun _ => Store.gone_forgotten _ _ _ _, ?_⟩, ?_⟩
  · simp
  · simp

/-- Once `forget` has deleted a conversation, it stays so at every moment exactly as long as none
of the sections that are still taken has something to write to it. -/
theorem forgotten_stays_forgotten_iff (env : Env C) (m : Mail) (alphanumeric : Char → Bool)
    {app : App} {tasks : List StoreTask} (hfresh : ∀ t ∈ tasks, t.Fresh) {earlier : List Nat}
    {i : Nat} {queue : List (UiCommand × CommandIo)} {x : CommandIo} {peer : Key}
    (hforget : (run (Pool.step (StoreTask.advance env m alphanumeric)) ⟨World.start app, tasks⟩
      earlier).tasks[i]? = some (.dispatch ⟨queue, .forgetStore x peer⟩))
    (hread : x.remove.removal 0 = none) (hcommit : x.remove.removal 1 = none)
    (later : List Nat) :
    let step := Pool.step (StoreTask.advance env m alphanumeric)
    let forgotten := run step ⟨World.start app, tasks⟩ (earlier ++ [i])
    (∀ n, (run step forgotten (later.take n)).shared.app.store.Gone peer) ↔
      Along step (StoreTasks.Leaves peer) forgotten later := by
  intro step forgotten
  have hsteps (schedule : List Nat) :
      ∀ t ∈ (run step ⟨World.start app, tasks⟩ schedule).tasks, t.Steps :=
    run_invariant StoreTasks.steps_step (fun t ht => (hfresh t ht).steps) schedule
  have hgone : forgotten.shared.app.store.Gone peer := by
    simp only [forgotten, step, run_append, run_cons, run_nil, Pool.step_of_some hforget]
    exact Dispatch.gone_advance hread hcommit
  exact Along.iff_throughout (I := fun p : Pool World StoreTask => ∀ t ∈ p.tasks, t.Steps)
    (G := fun p => p.shared.app.store.Gone peer) StoreTasks.steps_step
    (fun p i h hgone => StoreTasks.gone_step_iff h hgone i) (hsteps _) hgone

namespace Sample

open Core.Sample

/-- Nothing fails, and no name is known. -/
def smooth : CommandIo := ⟨⟨.ok, .ok, 0⟩, .ok, (none, none), 7⟩

/-- 1 forgets 3 while a word of 3, and one of 2, are on their way. -/
def parting : List StoreTask :=
  [.dispatch ⟨[(.forget (key 3) true, smooth)], .next⟩,
    .live ⟨.ok, none, key 3, .chat ⟨key 3, 1, 6⟩ "wait" none, .start⟩,
    .live ⟨.ok, none, key 2, .chat ⟨key 2, 1, 6⟩ "hi" none, .start⟩]

def connected : App := { App.start (.fresh (key 1)) with live := {key 2, key 3} }

end Sample

open Core.Sample Sample in
/-- Here the word of 3 is through before it is too late, and the one of 2 is for another
conversation. -/
theorem forgotten_stays_forgotten_iff_parting :
    let step := Pool.step (StoreTask.advance (client 1 false) mail Char.isAlphanum)
    let forgotten := run step ⟨World.start connected, parting⟩ ([1, 1, 0, 0] ++ [0])
    ∀ n, (run step forgotten ([2, 1, 2].take n)).shared.app.store.Gone (key 3) := by
  have hforget : (run (Pool.step (StoreTask.advance (client 1 false) mail Char.isAlphanum))
      ⟨World.start connected, parting⟩ [1, 1, 0, 0]).tasks[0]? =
        some (.dispatch ⟨[], .forgetStore smooth (key 3)⟩) := rfl
  exact (forgotten_stays_forgotten_iff (client 1 false) mail Char.isAlphanum
    (by simp [parting, StoreTask.Fresh]) hforget rfl rfl [2, 1, 2]).mpr (by decide +kernel)

/-- A task that has nothing left to do. -/
def StoreTask.idle : StoreTask → Bool
  | .dispatch d => d.queue.isEmpty && match d.pc with | .next | .returned => true | _ => false
  | .file t => t.left = 0
  | .live a | .mail _ _ _ (.taken a) => a.pc.left = 0
  | .mail _ _ _ .sealed => false
  | .mail _ _ _ (.refused _) => true
  | .room t => t.pc.left = 0

open Core.Sample Sample in
/-- A word that was read before the connection was closed is recorded after `forget` is through,
and the conversation is back. -/
theorem word_in_flight_comes_back :
    let p := run (Pool.step (StoreTask.advance (client 1 false) mail Char.isAlphanum))
      ⟨World.start connected, parting⟩ [1, 2, 2, 0, 0, 0, 1]
    p.tasks.all StoreTask.idle = true ∧ key 3 ∉ p.shared.app.live ∧
      .forgotten (key 3) ∈ p.shared.app.events ∧
      p.shared.app.store.contacts.keys = [key 2, key 3] ∧
      p.shared.app.store.ops.rows.filter (fun row => row.2.1 = key 3) =
        [(⟨key 3, 1, 6⟩, key 3, .chat ⟨key 3, 1, 6⟩ "wait" none)] := by
  decide +kernel

end Wicara.Client
