import Wicara.Client.Attachments
import Wicara.Client.Provenance

namespace Wicara.Client

open Wicara.Core Lib Lib.Fallible Lib.Run Lib.Interleaving

variable {C : Crypto} {env : Env C} {alphanumeric : Char → Bool}

theorem frames_inWorld {m : FileAct α} (h : Frames (fun w => w.app.store) m) :
    Frames Volume.shelf (inWorld m) :=
  frames_zoom fun v => by
    have := h v.world
    simp only [Volume.shelf, this]

theorem frames_store_inApp {m : Act α} (h : Frames App.store m) :
    Frames (fun w => w.app.store) (inApp m) :=
  frames_zoom fun w => h w.app

theorem frames_store_refold (io : Io) (peer : Key) :
    Frames (fun w => w.app.store) (refold io peer) :=
  frames_store_inApp (frames_sendLog (f := id) peer)

/-- What a call of `record` does to the shelf, if it does not fail. -/
def Shelf.Records (s : Shelf) (io : Sqlite) (peer : Key) (frame : Frame) (s' : Shelf) : Prop :=
  (frame.id = none ∧ s' = s) ∨ ∃ id, frame.id = some id ∧ io 0 = none ∧ io 1 = none ∧
    s' = { s with ops := s.ops.insertOrIgnore id (peer, frame) }

theorem wp_record_shelf (io : Sqlite) (peer : Key) (frame : Frame) (v : Volume) :
    wp (inApp (inStore (Store.record io peer frame)))
      (fun _ w => v.shelf.Records io peer frame { v with world := w }.shelf)
      (fun _ w => ¬(io 0 = none ∧ io 1 = none) ∧ { v with world := w }.shelf = v.shelf)
      v.world := by
  rw [wp_inApp_inStore]
  unfold Store.record
  cases hid : frame.id with
  | none => exact .inl ⟨hid, rfl⟩
  | some id =>
    simp only [wp_bind, wp_attempt, wp_modify, wp_get, wp_pure]
    refine ⟨fun h0 => ⟨fun h1 => .inr ⟨id, hid, h0, h1, rfl⟩, fun err herr => ⟨?_, rfl⟩⟩,
      fun err herr => ⟨?_, trivial⟩⟩
    · simp [herr]
    · simp [herr]

theorem wp_placeFile_shelf (setting : Sqlite) (origin : Origin) (id : MessageId) (path : String)
    (v : Volume) :
    wp (placeFile setting origin id path)
      (fun _ w => setting 0 = none ∧ { v with world := w }.shelf =
        { v.shelf with settings := v.shelf.settings.upsert (fileKey id) path })
      (fun _ w => setting 0 ≠ none ∧ { v with world := w }.shelf = v.shelf) v.world := by
  rw [placeFile, wp_bind, wp_inApp_inStore]
  simp only [Store.setFilePath, Store.setSetting, wp_bind, wp_attempt, wp_modify]
  exact ⟨fun h => ⟨h, rfl⟩, fun err herr => ⟨by simp [herr], trivial⟩⟩

namespace DiskTask

theorem path_finished (t : DiskTask) : t.finished.path env alphanumeric = none := by
  cases t <;> rfl

theorem undisturbed_finished (t : DiskTask) (d : Disk String UInt8) :
    t.finished.Undisturbed env alphanumeric d := by
  cases t <;> trivial

theorem Section.finished {t : DiskTask} {s s' : Shelf} (hfits : t.Fits env alphanumeric s)
    (h : s' = s) : Section env alphanumeric t s t.finished s' := by
  rw [h]
  exact .quiet hfits (by simp [path_finished]) fun _ => t.undisturbed_finished s.disk

/-- A section that leaves the shelf alone. -/
theorem wp_quiet {t : DiskTask} {m : VolumeAct α} {k : α → DiskTask} {v : Volume}
    (hm : Frames Volume.shelf m) (hfits : t.Fits env alphanumeric v.shelf)
    (hpath : ∀ a, (k a).path env alphanumeric = none)
    (hkeeps : ∀ a, (k a).Undisturbed env alphanumeric v.disk) :
    wp (m >>= fun a => pure (k a))
      (fun t' v' => Section env alphanumeric t v.shelf t' v'.shelf)
      (fun _ v' => Section env alphanumeric t v.shelf t.finished v'.shelf) v := by
  rw [wp_bind]
  refine wp_mono (fun a v' h => ?_) (fun _ v' h => .finished hfits h) (hm.wp v)
  rw [wp_pure, h]
  exact .quiet hfits (by simp [hpath]) fun _ => hkeeps a

theorem section_of_records {s s' : Shelf} {io : Sqlite} {peer : Key} {frame : Frame}
    (h : s.Records io peer frame s') {t t' : DiskTask}
    (hfits : t.Fits env alphanumeric s ↔ (io 0 = none → io 1 = none → s.Welcomes C peer frame))
    (hpath : t'.path env alphanumeric = none)
    (hkeeps : ∀ d, t'.Undisturbed env alphanumeric d) : Section env alphanumeric t s t' s' := by
  obtain ⟨hid, rfl⟩ | ⟨id, hid, h0, h1, rfl⟩ := h
  · have hwelcomes : s'.Welcomes C peer frame := by simp [Shelf.Welcomes, hid]
    exact .quiet (hfits.mpr fun _ _ => hwelcomes) (by simp [hpath]) fun _ => hkeeps _
  · exact .recorded id peer frame hid (hfits.trans (by simp [h0, h1])) hpath (hkeeps _)

theorem wp_next_receive (io : TransferIo) (peer : Key) (pc : TransferPc) (v : Volume) :
    let t := DiskTask.receive io peer pc
    wp (t.next env alphanumeric)
      (fun t' v' => Section env alphanumeric t v.shelf t' v'.shelf)
      (fun _ v' => Section env alphanumeric t v.shelf t.finished v'.shelf) v := by
  cases pc with
  | start =>
    have hfits : (DiskTask.receive io peer .start).Fits env alphanumeric v.shelf ↔
        ∀ header, admissible io.toReceiveIo peer = .ok header →
          io.io.record 0 = none → io.io.record 1 = none →
            v.shelf.Welcomes C peer header.frame := by
      simp only [Fits]
      cases admissible io.toReceiveIo peer <;> simp [Except.toOption]
    simp only [next, wp_bind, wp_inWorld, readHeader, recordHeader, wp_lift, wp_pure]
    refine ⟨fun header hheader => ?_, fun err herr => .finished (hfits.mpr ?_) rfl⟩
    · have hone := hfits.trans ⟨fun h => h header hheader, fun h header' hheader' =>
        Except.ok.inj (hheader.symm.trans hheader') ▸ h⟩
      refine wp_mono (fun _ w h => section_of_records h hone rfl fun _ => trivial)
        (fun _ w h => .finished (hone.mpr fun h0 h1 => absurd ⟨h0, h1⟩ h.1) h.2)
        (wp_record_shelf io.io.record peer header.frame v)
    · simp [herr]
  | refold header =>
    exact wp_quiet (frames_inWorld (frames_store_refold _ _)) trivial (fun _ => rfl)
      fun _ => trivial
  | create header =>
    simp only [next, createFile, onDisk, wp_bind, wp_attempt, wp_get, wp_modify, wp_inWorld,
      wp_pure]
    exact ⟨fun hcreate => .created io peer header hcreate,
      fun err herr => .finished (fun hcreate => by simp [herr] at hcreate) rfl⟩
  | read header file got chunks =>
    simp only [next, wp_bind, wp_lift, wp_pure]
    refine ⟨fun pc hpc => ?_, fun _ _ => .finished trivial rfl⟩
    cases readChunk_turn hpc with
    | flush => exact .quiet trivial (fun _ h => h) fun h => h
    | write => exact .quiet trivial (fun _ h => h) fun h => h
    | discard => exact .quiet trivial (fun _ h => h) fun _ => trivial
  | write header file got bytes outcome chunks =>
    simp only [next, onDisk, inApp, emit, wp_bind, wp_modify, wp_attempt, wp_inWorld, wp_zoom,
      wp_pure]
    constructor
    · rintro rfl
      exact .written io peer header file got bytes none chunks (by simp [path]) fun _ h => h
    · rintro err rfl
      exact .written io peer header file got bytes (some err) chunks (by simp [path_finished])
        fun d _ => undisturbed_finished _ d
  | discard header err =>
    simp only [next, removeFile, wp_bind, wp_throw]
    cases hunlink : io.unlink with
    | some _ => exact .finished (fun h => by simp [hunlink] at h) rfl
    | none => exact .removed io peer header err hunlink
  | flush header file got =>
    simp only [next, wp_bind, wp_attempt, wp_ite, wp_pure]
    refine ⟨fun _ => ⟨fun hgot => ?_, fun _ => ?_⟩, fun _ _ => .finished trivial rfl⟩
    · exact .quiet trivial (by simp [path]) fun h => ⟨got, h.read, hgot⟩
    · exact .quiet trivial (by simp [path]) fun _ => trivial
  | place header got =>
    simp only [next, wp_bind, wp_inWorld]
    refine wp_mono (fun _ w h => ?_) (fun _ w h => .finished (fun hset => absurd hset h.1) h.2)
      (wp_placeFile_shelf io.setting .received header.id (landing env alphanumeric header) v)
    rw [wp_pure, h.2]
    refine .placed _ _ (fun hstored => ⟨fun hfits row hrow a ha hkey => ?_,
      fun hstoredAt _ row hrow a ha hkey => ?_⟩) rfl trivial
    · rw [hfits h.1 row hrow a ha hkey]
      exact hstored
    · exact (hstoredAt row hrow a ha hkey).unique hstored
  | announce header got =>
    refine wp_quiet (frames_inWorld ?_) trivial (fun _ => rfl) fun _ => trivial
    exact .bind (frames_store_refold _ _) fun _ => frames_store_inApp (frames_emit (f := id) _)
  | done => exact .quiet trivial (fun _ h => h) id

theorem wp_next (t : DiskTask) (v : Volume) :
    wp (t.next env alphanumeric)
      (fun t' v' => Section env alphanumeric t v.shelf t' v'.shelf)
      (fun _ v' => Section env alphanumeric t v.shelf t.finished v'.shelf) v := by
  cases t with
  | record io peer frame isDone =>
    cases isDone with
    | true => exact .quiet trivial (fun _ h => h) id
    | false =>
      simp only [next, wp_bind, wp_inWorld]
      exact wp_mono (fun _ w h => section_of_records h Iff.rfl rfl fun _ => trivial)
        (fun _ w h => .finished (fun h0 h1 => absurd ⟨h0, h1⟩ h.1) h.2)
        (wp_record_shelf io peer frame v)
  | setFilePath io id path isDone =>
    cases isDone with
    | true => exact .quiet trivial (fun _ h => h) fun h => h
    | false =>
      simp only [next, wp_bind, wp_inWorld]
      refine wp_mono (fun _ w h => ?_) (fun _ w h => .finished (fun hset => absurd hset h.1) h.2)
        (wp_placeFile_shelf io .sent id path v)
      rw [wp_pure, h.2]
      exact .placed id path (fun _ => ⟨fun hfits => hfits h.1, fun hfits _ => hfits⟩) rfl trivial
  | receive io peer pc => exact wp_next_receive io peer pc v

variable (env alphanumeric) in
theorem section_advance (t : DiskTask) (v : Volume) :
    Section env alphanumeric t v.shelf (t.advance env alphanumeric v).1
      (t.advance env alphanumeric v).2.shelf := by
  have h : wp (t.next env alphanumeric) _ _ v := t.wp_next v
  unfold advance
  rcases wp_cases h with ⟨t', v', hrun, h⟩ | ⟨err, v', hrun, h⟩
  · rw [hrun]
    exact h
  · rw [hrun]
    have hreport : (after (inWorld (t.report err)) v').shelf = v'.shelf := by
      cases t with
      | receive io peer pc =>
        exact frames_inWorld (frames_store_inApp (frames_emit (f := id) _)) v'
      | _ => rfl
    simp only [hreport]
    exact h

/-- Two tasks are not at work on one file. -/
def Apart (env : Env C) (alphanumeric : Char → Bool) (t u : DiskTask) : Prop :=
  ∀ p ∈ t.path env alphanumeric, p ∉ u.path env alphanumeric

/-- A task that has not begun. -/
def Fresh : DiskTask → Prop
  | .receive _ _ .start | .record _ _ _ false | .setFilePath _ _ _ false => True
  | _ => False

theorem Fresh.path {t : DiskTask} (h : t.Fresh) : t.path env alphanumeric = none := by
  cases t with
  | receive io peer pc =>
    cases pc with
    | start => rfl
    | _ => exact h.elim
  | _ => rfl

theorem undisturbed_of_path {t : DiskTask} (h : t.path env alphanumeric = none)
    (d : Disk String UInt8) : t.Undisturbed env alphanumeric d := by
  cases t with
  | receive io peer pc =>
    cases pc with
    | start | refold | create | announce | done => trivial
    | _ => cases h
  | _ => trivial

end DiskTask

abbrev DiskTasks := Pool Volume DiskTask

namespace DiskTasks

variable (env alphanumeric) in
/-- Task `i` creates no file that another task is at work on. -/
def Alone (p : DiskTasks) (i : Nat) : Prop :=
  ∀ t ∈ p.tasks[i]?, ∀ path ∈ t.creates env alphanumeric,
    ∀ j < p.tasks.length, i ≠ j → ∀ u ∈ p.tasks[j]?, path ∉ u.path env alphanumeric

variable (env alphanumeric) in
/-- Task `i` fits what it finds. -/
def Fits (p : DiskTasks) (i : Nat) : Prop :=
  ∀ t ∈ p.tasks[i]?, t.Fits env alphanumeric p.shared.shelf

instance (p : DiskTasks) (i : Nat) : Decidable (p.Alone env alphanumeric i) := by
  unfold Alone
  infer_instance

instance (p : DiskTasks) (i : Nat) : Decidable (p.Fits env alphanumeric i) := by
  unfold Fits
  infer_instance

/-- The invariant of the runs in which no two tasks are at work on one file. -/
abbrev Undisturbed (env : Env C) (alphanumeric : Char → Bool) (p : DiskTasks) : Prop :=
  p.HoldsApart (fun _ => True) (fun t v => t.Undisturbed env alphanumeric v.disk)
    (DiskTask.Apart env alphanumeric)

theorem Undisturbed.start (v : Volume) {tasks : List DiskTask} (htasks : ∀ t ∈ tasks, t.Fresh) :
    DiskTasks.Undisturbed env alphanumeric ⟨v, tasks⟩ where
  shared := trivial
  tasks i t ht := DiskTask.undisturbed_of_path (htasks t (List.mem_of_getElem? ht)).path _
  apart i j t u _ ht _ p hp := by
    rw [(htasks t (List.mem_of_getElem? ht)).path] at hp
    cases hp

theorem Undisturbed.step {p : DiskTasks} (h : p.Undisturbed env alphanumeric) {i : Nat}
    (hi : p.Alone env alphanumeric i) :
    DiskTasks.Undisturbed env alphanumeric (p.step (DiskTask.advance env alphanumeric) i) := by
  refine Pool.HoldsApart.step (P := fun _ _ => True)
    (Q := fun t u => ∀ path ∈ t.creates env alphanumeric, path ∉ u.path env alphanumeric)
    ?_ ?_ ?_ h (fun _ _ => trivial) ?_
  · exact fun t u happ path hu ht => happ path ht hu
  · exact fun t v _ _ ht => ⟨trivial, (t.section_advance env alphanumeric v).undisturbed ht⟩
  · intro t u v hcreates happ ht hu
    have hs := t.section_advance env alphanumeric v
    refine ⟨hu.mono fun path hpath file bytes hd => ?_, fun path hpath hpath' => ?_⟩
    · exact hs.holds ht (fun h => happ path h hpath) (fun h => hcreates path h hpath) hd
    · rcases hs.path_subset path hpath with h | h
      · exact happ path h hpath'
      · exact hcreates path h hpath'
  · intro j t u hij ht hu path hpath
    exact hi t ht path hpath j (List.getElem?_eq_some_iff.mp hu).choose hij u hu

/-- In a state in which the attachments are saved, they stay saved exactly when the next task
fits what it finds. -/
theorem Undisturbed.saved_iff {p : DiskTasks} (h : p.Undisturbed env alphanumeric)
    (hsaved : p.shared.AttachmentsSaved C) (i : Nat) :
    (p.step (DiskTask.advance env alphanumeric) i).shared.AttachmentsSaved C ↔
      p.Fits env alphanumeric i := by
  cases hi : p.tasks[i]? with
  | none =>
    rw [Pool.step_of_none hi]
    exact iff_of_true hsaved (by simp [Fits, hi])
  | some t =>
    rw [Volume.attachmentsSaved_iff] at hsaved ⊢
    rw [Pool.step_of_some hi,
      (t.section_advance env alphanumeric p.shared).kept_iff (h.tasks i t hi) hsaved]
    simp [Fits, hi]

end DiskTasks

namespace Sample

open Core.Sample

/-- A header of 2's, and the bytes that come after it. -/
def incoming (seq tsMs : UInt64) (announced : List UInt8) (chunks : List (List UInt8)) :
    DiskTask :=
  let header : Header := ⟨⟨key 2, seq, tsMs⟩, "cat.png", .ofNat announced.length,
    crypto.blake3 announced⟩
  let io : TransferIo :=
    { io := .ok
      setting := .ok
      header := .ok (some header.frame)
      create := none
      chunks := chunks.map fun bytes => .data bytes none
      flush := none
      spilt := 0
      unlink := none }
  .receive io (key 2) .start

def firstVolume : Volume := ⟨.start firstRun, .empty⟩

theorem firstVolume_saved : firstVolume.AttachmentsSaved crypto :=
  Volume.attachmentsSaved_iff.mpr nofun

/-- 2 sends a file, and then another file under the id of the first. -/
def sentTwice : DiskTasks :=
  ⟨firstVolume, [incoming 1 9 [137, 80] [[137, 80]], incoming 1 9 [71, 73, 70] [[71, 73, 70]]]⟩

end Sample

open Core.Sample Sample in
/-- The second header is not recorded, and its file takes the place of the first. -/
theorem second_file_takes_the_place_of_the_first :
    ¬(run (Pool.step (DiskTask.advance (client 1 false) Char.isAlphanum)) sentTwice
      (List.replicate 9 0 ++ List.replicate 9 1)).shared.AttachmentsSaved crypto := by
  rw [Volume.attachmentsSaved_iff]
  decide +kernel

/-- As long as no call of `receive` creates a file that another is at work on: an attachment of
another that has a path is, at that path, the file its message announces, and so throughout the
run, exactly when every section fits what it finds in the store and on the disk. -/
theorem attachments_are_saved_iff (env : Env C) (alphanumeric : Char → Bool) {v : Volume}
    (hv : v.AttachmentsSaved C) {tasks : List DiskTask} (htasks : ∀ t ∈ tasks, t.Fresh)
    {schedule : List Nat}
    (halone : Along (Pool.step (DiskTask.advance env alphanumeric))
      (DiskTasks.Alone env alphanumeric) ⟨v, tasks⟩ schedule) :
    (∀ n, (run (Pool.step (DiskTask.advance env alphanumeric)) ⟨v, tasks⟩
      (schedule.take n)).shared.AttachmentsSaved C) ↔
    Along (Pool.step (DiskTask.advance env alphanumeric)) (DiskTasks.Fits env alphanumeric)
      ⟨v, tasks⟩ schedule :=
  Along.iff_throughout_of (I := DiskTasks.Undisturbed env alphanumeric)
    (G := fun p : DiskTasks => p.shared.AttachmentsSaved C) (fun _ _ h hi => h.step hi)
    (fun _ i h _ hsaved => h.saved_iff hsaved i) (.start v htasks) hv halone

open Core.Sample Sample in
/-- Two files at once, in turns. -/
theorem attachments_are_saved_two_files :
    let p : DiskTasks :=
      ⟨firstVolume, [incoming 1 9 [137, 80] [[137], [80]], incoming 2 9 [71, 73] [[71], [73]]]⟩
    (run (Pool.step (DiskTask.advance (client 1 false) Char.isAlphanum)) p
      ((List.replicate 11 [0, 1]).flatten.take 22)).shared.AttachmentsSaved crypto := by
  have htasks : ∀ t ∈ [incoming 1 9 [137, 80] [[137], [80]], incoming 2 9 [71, 73] [[71], [73]]],
      t.Fresh := by simp [incoming, DiskTask.Fresh]
  exact (attachments_are_saved_iff (client 1 false) Char.isAlphanum firstVolume_saved htasks
    (by decide +kernel)).mpr (by decide +kernel) 22

end Wicara.Client
