import Wicara.Client.FileTasks
import Wicara.Client.History

namespace Wicara.Client

open Wicara.Core Lib Lib.Fallible

variable {C : Crypto} {env : Env C} {alphanumeric : Char → Bool}

/-- The settings of the store, which only some sections write. -/
def App.settings (app : App) : Table String String := app.store.settings

section

variable {f : App → γ}

theorem frames_receiveChunks (hf : ∀ event, Frames f (emit event)) (header : Header)
    (got : List UInt8) (chunks : List Chunk) : Frames f (receiveChunks header got chunks) := by
  induction chunks generalizing got with
  | nil => exact frames_pure _
  | cons chunk chunks ih =>
    cases chunk with
    | failed err => exact fun _ => rfl
    | data bytes write =>
      refine .ite (frames_pure _) (.bind (frames_lift _) fun _ => ?_)
      refine .bind (frames_attempt _) fun _ => ?_
      exact .bind (hf _) fun _ => ih _

end

/-- What a run has on record about paths. -/
structure Ledger where
  settings : Table String String
  origin : Table String Origin
  created : List String
  sent : List String
  unlinked : List String

def World.ledger (w : World) : Ledger := ⟨w.app.settings, w.origin, w.created, w.sent, w.unlinked⟩

/-- The paths that a flow may have written into the settings. -/
def Ledger.known (l : Ledger) : Origin → List String
  | .sent => l.sent
  | .received => l.created

/-- The path that a task is at liberty to write into the settings. -/
def FileTask.holds (env : Env C) (alphanumeric : Char → Bool) : FileTask → Option (Origin × String)
  | .send _ _ _ .start => none
  | .send _ _ path _ => some (.sent, path)
  | .receive _ _ (.place header _) => some (.received, landing env alphanumeric header)
  | _ => none

/-- The ops that a task is about to remove. -/
def FileTask.Removes (t : FileTask) (s : Store) (row : OpRow) : Prop :=
  match t with
  | .once (.clear _ peer) false | .once (.forget _ peer) false => row.2.1 = peer
  | .once (.wipe _) false => row.2.1 ∈ s.contacts.keys
  | _ => False

instance (t : FileTask) (s : Store) (row : OpRow) : Decidable (t.Removes s row) := by
  unfold FileTask.Removes
  split <;> infer_instance

/-- All that a section can do to the ledger. -/
inductive FileTask.Section (env : Env C) (alphanumeric : Char → Bool) (t : FileTask) (s : Store)
    (l : Ledger) : FileTask → Ledger → Prop
  | quiet {t' : FileTask} (holds : ∀ p ∈ t'.holds env alphanumeric, p ∈ t.holds env alphanumeric) :
      t.Section env alphanumeric s l t' l
  | sent {t' : FileTask} (io : SendIo) (peer : Key) (path : String)
      (start : t = .send io peer path .start)
      (holds : ∀ p ∈ t'.holds env alphanumeric, p = (.sent, path)) :
      t.Section env alphanumeric s l t' { l with sent := l.sent ++ [path] }
  | created {t' : FileTask} (header : Header)
      (holds : ∀ p ∈ t'.holds env alphanumeric, p = (.received, landing env alphanumeric header)) :
      t.Section env alphanumeric s l t'
        { l with created := l.created ++ [landing env alphanumeric header] }
  | placed {t' : FileTask} (origin : Origin) (id : MessageId) (path : String)
      (held : t.holds env alphanumeric = some (origin, path))
      (holds : ∀ p ∈ t'.holds env alphanumeric, p ∈ t.holds env alphanumeric) :
      t.Section env alphanumeric s l t' { l with
        settings := l.settings.upsert (fileKey id) path
        origin := l.origin.upsert (fileKey id) origin }
  | named {t' : FileTask} (key : NameKey) (value : String)
      (holds : t'.holds env alphanumeric = none) :
      t.Section env alphanumeric s l t' { l with settings := l.settings.upsert key.key value }
  | removed {t' : FileTask} (gone : String → String → Bool) (files : List String)
      (rows : ∀ path ∈ files, ∃ row ∈ s.ops.rows, t.Removes s row ∧
        OpRow.path l.settings row = some path) (holds : t'.holds env alphanumeric = none) :
      t.Section env alphanumeric s l t' { l with
        settings := l.settings.deleteWhere gone
        unlinked := l.unlinked ++ files }

theorem frames_inApp {m : Act α} (h : Frames App.settings m) : Frames World.ledger (inApp m) :=
  frames_zoom fun w => by
    have := h w.app
    simp only [World.ledger, this]

theorem frames_recordHeader (io : Io) (peer : Key) (header : Header) :
    Frames World.ledger (recordHeader io peer header) :=
  .bind (frames_inApp (frames_record (fun _ _ _ => rfl) _ _ _)) fun _ => frames_pure _

theorem frames_refold (io : Io) (peer : Key) : Frames World.ledger (refold io peer) :=
  frames_inApp (frames_sendLog peer)

theorem frames_report (t : FileTask) (err : String) : Frames World.ledger (t.report err) := by
  cases t with
  | once call done => exact frames_pure _
  | _ => exact frames_inApp (frames_emit _)

/-- A section that leaves the ledger alone. -/
theorem FileTask.wp_quiet {t : FileTask} {m : FileAct α} {k : α → FileTask} {w : World}
    (hm : Frames World.ledger m)
    (hok : ∀ a, ∀ p ∈ (k a).holds env alphanumeric, p ∈ t.holds env alphanumeric)
    (herr : ∀ p ∈ t.finished.holds env alphanumeric, p ∈ t.holds env alphanumeric) :
    wp (m >>= fun a => pure (k a))
      (fun t' w' => t.Section env alphanumeric w.app.store w.ledger t' w'.ledger)
      (fun _ w' => t.Section env alphanumeric w.app.store w.ledger t.finished w'.ledger) w := by
  rw [wp_bind]
  refine wp_mono (fun a w' h => ?_) (fun _ w' h => ?_) (hm.wp w)
  · rw [wp_pure, h]
    exact .quiet (hok a)
  · rw [h]
    exact .quiet herr

/-- A transaction that removes settings, and gives back paths of the ops that are `P`. -/
structure Store.Removed (s : Store) (P : OpRow → Prop) (files : List String) (s' : Store) :
    Prop where
  settings : ∃ gone, s'.settings = s.settings.deleteWhere gone
  files : ∀ path ∈ files, ∃ row ∈ s.ops.rows, P row ∧ OpRow.path s.settings row = some path

theorem Store.wp_clear (io : Sqlite) (orders : Orders) (peer : Key) (s : Store) :
    wp (Store.clear io orders peer) (s.Removed fun row => row.2.1 = peer)
      (fun _ s' => s'.settings = s.settings) s := by
  simp only [clear, wp_bind, wp_get, wp_lift, wp_attempt, wp_modify, wp_pure]
  refine ⟨fun msgs hmsgs => ⟨fun _ => ?_, fun _ _ => trivial⟩, fun _ _ => trivial⟩
  obtain ⟨-, rfl⟩ := history_eq_ok.mp hmsgs
  exact ⟨⟨fun key _ => decide (key ∈ _), rfl⟩, fun path => mem_paths.mp⟩

theorem Store.wp_forget (io : Sqlite) (orders : Orders) (peer : Key) (names : List String)
    (s : Store) :
    wp (Store.forget io orders peer names) (s.Removed fun row => row.2.1 = peer)
      (fun _ s' => s'.settings = s.settings) s := by
  simp only [forget, wp_bind, wp_get, wp_lift, wp_attempt, wp_modify, wp_pure]
  refine ⟨fun msgs hmsgs => ⟨fun _ => ?_, fun _ _ => trivial⟩, fun _ _ => trivial⟩
  obtain ⟨-, rfl⟩ := history_eq_ok.mp hmsgs
  exact ⟨⟨fun key _ => decide (key ∈ _) || decide (key ∈ names), rfl⟩, fun path => mem_paths.mp⟩

theorem Store.mem_peers {io : Option String} {orders : Orders} {s : Store} {peers : List Key}
    (h : s.peers io orders = .ok peers) (peer : Key) : peer ∈ peers ↔ peer ∈ s.contacts.keys := by
  cases io with
  | some err => cases h
  | none =>
    cases h
    rw [List.mem_insertionSort, (orders.contacts_perm _).mem_iff]

theorem Store.wp_wipe (io : Sqlite) (orders : Orders) (s : Store) :
    wp (Store.wipe io orders) (s.Removed fun row => row.2.1 ∈ s.contacts.keys)
      (fun _ s' => s'.settings = s.settings) s := by
  simp only [wipe, wp_bind, wp_get, wp_lift, wp_attempt, wp_modify, wp_pure]
  refine ⟨fun peers hpeers => ⟨fun files hfiles => ⟨fun _ => ?_, fun _ _ => trivial⟩,
    fun _ _ => trivial⟩, fun _ _ => trivial⟩
  refine ⟨⟨fun key _ => decide (key ≠ "prekey"), rfl⟩, fun path hpath => ?_⟩
  obtain ⟨row, hrow, hpeer, hrowpath⟩ := (mem_attachmentsOf hfiles).mp hpath
  exact ⟨row, hrow, (mem_peers hpeers _).mp hpeer, hrowpath⟩

/-- What a confirmed removal comes to, whatever the client says about it afterwards. -/
theorem FileTask.wp_removal {t t' : FileTask} {rm : EStateM String Store (List String)}
    {rest : Act PUnit} {w : World}
    (hrm : wp rm (w.app.store.Removed (t.Removes w.app.store))
      (fun _ s' => s'.settings = w.app.store.settings) w.app.store)
    (hrest : Frames App.settings rest) (ht : t'.holds env alphanumeric = none) :
    wp (do
        let files ← inApp (inStore rm)
        unlinkAll files
        inApp rest)
      (fun _ w' => t.Section env alphanumeric w.app.store w.ledger t' w'.ledger)
      (fun _ w' => t.Section env alphanumeric w.app.store w.ledger t' w'.ledger) w := by
  have hquiet : ∀ p ∈ t'.holds env alphanumeric, p ∈ t.holds env alphanumeric := by simp [ht]
  rw [wp_bind, wp_inApp_inStore]
  refine wp_mono (fun files s' hs' => ?_) (fun _ s' hs' => ?_) hrm
  · obtain ⟨⟨gone, hgone⟩, hrows⟩ := hs'
    have hremoved : t.Section env alphanumeric w.app.store w.ledger t' { w.ledger with
        settings := w.ledger.settings.deleteWhere gone
        unlinked := w.ledger.unlinked ++ files } := .removed gone files hrows ht
    have hledger : ∀ w' : World, w'.ledger = ⟨s'.settings, w.origin, w.created, w.sent,
        w.unlinked ++ files⟩ → t.Section env alphanumeric w.app.store w.ledger t' w'.ledger := by
      intro w' hw'
      rw [hw', hgone]
      exact hremoved
    rw [wp_bind, unlinkAll, wp_modify]
    exact wp_mono (fun _ w' h => hledger w' h) (fun _ w' h => hledger w' h)
      ((frames_inApp hrest).wp _)
  · have hledger : (World.ledger { w with app := { w.app with store := s' } }) = w.ledger := by
      simp only [World.ledger, App.settings, hs']
    rw [hledger]
    exact .quiet hquiet

/-- The handler of an error adds nothing to the ledger. -/
theorem wp_rescue_of_frames {m : FileAct PUnit} {handle : String → FileAct PUnit}
    {P : Ledger → Prop} {w : World}
    (h : wp m (fun _ w' => P w'.ledger) (fun _ w' => P w'.ledger) w)
    (hhandle : ∀ err, Frames World.ledger (handle err)) :
    wp (rescue m handle) (fun _ w' => P w'.ledger) (fun _ w' => P w'.ledger) w := by
  rw [wp_rescue]
  refine wp_mono (fun _ _ h => h) (fun err w' h => ?_) h
  refine wp_mono ?_ ?_ ((hhandle err).wp w') <;>
    (rintro - w'' hw''
     rw [hw'']
     exact h)

theorem wp_mintHeader (io : SendIo) (path : String) (w : World) :
    wp (mintHeader io path)
      (fun _ w' => w'.ledger = { w.ledger with sent := w.ledger.sent ++ [path] })
      (fun _ w' => w'.ledger = { w.ledger with sent := w.ledger.sent ++ [path] }) w := by
  rw [mintHeader, wp_bind, wp_modify, wp_bind, wp_lift]
  refine ⟨fun _ _ => ?_, fun _ _ => rfl⟩
  have hmint : Frames World.ledger (inApp (inStore (Store.nextId io.now))) :=
    frames_inApp (frames_inStore fun _ => rfl)
  exact (hmint.bind fun _ => frames_pure _).wp _

theorem wp_placeFile (setting : Sqlite) (origin : Origin) (id : MessageId) (path : String)
    (w : World) :
    wp (placeFile setting origin id path)
      (fun _ w' => w'.ledger = { w.ledger with
        settings := w.ledger.settings.upsert (fileKey id) path
        origin := w.ledger.origin.upsert (fileKey id) origin })
      (fun _ w' => w'.ledger = w.ledger) w := by
  rw [placeFile, wp_bind, wp_inApp_inStore]
  simp only [Store.setFilePath, Store.setSetting, wp_bind, wp_attempt, wp_modify]
  exact ⟨fun _ => rfl, fun _ _ => trivial⟩

theorem wp_download (io : ReceiveIo) (header : Header) (w : World) :
    wp (download env alphanumeric io header)
      (fun _ w' => w'.ledger = { w.ledger with
        created := w.ledger.created ++ [landing env alphanumeric header] })
      (fun _ w' => w'.ledger = w.ledger ∨ w'.ledger = { w.ledger with
        created := w.ledger.created ++ [landing env alphanumeric header] }) w := by
  rw [download, wp_bind, wp_lift]
  refine ⟨fun _ _ => ?_, fun _ _ => .inl rfl⟩
  rw [wp_bind, wp_modify]
  refine wp_mono (fun _ _ h => h) (fun _ _ h => .inr h) (Frames.wp (frames_inApp ?_) _)
  refine .bind (frames_receiveChunks frames_emit _ _ _) fun _ => ?_
  refine .bind (frames_attempt _) fun _ => ?_
  exact .bind (frames_lift _) fun _ => frames_pure _

theorem frames_transfer (io : SendIo) (header : Header) :
    Frames World.ledger (transfer io header) := by
  let R (w w' : World) : Prop := w'.ledger = w.ledger
  have : Std.Refl R := ⟨fun _ => rfl⟩
  let _ : Trans R R R := ⟨fun h h' => h'.trans h⟩
  exact moves_transfer (R := R) (fun _ _ => rfl) (fun _ => frames_inApp (frames_emit _))
    (frames_inApp (frames_emit _))

theorem frames_readHeader (io : ReceiveIo) (peer : Key) :
    Frames World.ledger (readHeader io peer) :=
  .bind (frames_lift _) fun _ => .bind (frames_recordHeader _ _ _) fun _ => frames_pure _

theorem frames_announce (io : ReceiveIo) (peer : Key) (header : Header) (got : List UInt8) :
    Frames World.ledger (announce env alphanumeric io peer header got) :=
  .bind (frames_refold _ _) fun _ => frames_inApp (frames_emit _)

theorem FileTask.wp_next_send (io : SendIo) (peer : Key) (path : String) (pc : SendPc) (w : World) :
    let t := FileTask.send io peer path pc
    wp (t.next env alphanumeric)
      (fun t' w' => t.Section env alphanumeric w.app.store w.ledger t' w'.ledger)
      (fun _ w' => t.Section env alphanumeric w.app.store w.ledger t.finished w'.ledger) w := by
  cases pc with
  | start =>
    simp only [next, wp_bind]
    refine wp_mono (fun header w' h => ?_) (fun _ w' h => ?_) (wp_mintHeader io path w)
    · rw [wp_pure, h]
      exact .sent io peer path rfl (by simp [holds])
    · rw [h]
      exact .sent io peer path rfl (by simp [holds, finished])
  | record header =>
    exact wp_quiet (frames_recordHeader _ _ _) (by simp [holds]) (by simp [holds, finished])
  | place header =>
    simp only [next, wp_bind]
    refine wp_mono (fun _ w' h => ?_) (fun _ w' h => ?_) (wp_placeFile _ _ _ _ w)
    · rw [wp_pure, h]
      exact .placed .sent header.id path rfl (by simp [holds])
    · rw [h]
      exact .quiet (by simp [holds, finished])
  | refold header =>
    exact wp_quiet (frames_refold _ _) (by simp [holds]) (by simp [holds, finished])
  | transfer header =>
    exact wp_quiet (frames_transfer _ _) (by simp [holds]) (by simp [holds, finished])
  | done => exact .quiet fun _ h => h

theorem FileTask.wp_next_receive (io : ReceiveIo) (peer : Key) (pc : ReceivePc) (w : World) :
    let t := FileTask.receive io peer pc
    wp (t.next env alphanumeric)
      (fun t' w' => t.Section env alphanumeric w.app.store w.ledger t' w'.ledger)
      (fun _ w' => t.Section env alphanumeric w.app.store w.ledger t.finished w'.ledger) w := by
  cases pc with
  | start => exact wp_quiet (frames_readHeader _ _) (by simp [holds]) (by simp [holds, finished])
  | refold header =>
    exact wp_quiet (frames_refold _ _) (by simp [holds]) (by simp [holds, finished])
  | download header =>
    simp only [next, wp_bind]
    refine wp_mono (fun got w' h => ?_) (fun _ w' h => ?_) (wp_download io header w)
    · rw [wp_pure, h]
      exact .created header (by simp [holds])
    · rcases h with h | h
      · rw [h]
        exact .quiet (by simp [holds, finished])
      · rw [h]
        exact .created header (by simp [holds, finished])
  | place header got =>
    simp only [next, wp_bind]
    refine wp_mono (fun _ w' h => ?_) (fun _ w' h => ?_) (wp_placeFile _ _ _ _ w)
    · rw [wp_pure, h]
      exact .placed .received header.id _ rfl (by simp [holds])
    · rw [h]
      exact .quiet (by simp [holds, finished])
  | announce header got =>
    exact wp_quiet (frames_announce _ _ _ _) (by simp [holds]) (by simp [holds, finished])
  | done => exact .quiet fun _ h => h

theorem FileCall.wp_run (call : FileCall) (w : World) :
    let t := FileTask.once call false
    wp (call.run env)
      (fun _ w' => t.Section env alphanumeric w.app.store w.ledger t.finished w'.ledger)
      (fun _ w' => t.Section env alphanumeric w.app.store w.ledger t.finished w'.ledger) w := by
  cases call with
  | accept io reply sender frame =>
    have hframes : Frames World.ledger (FileCall.run env (.accept io reply sender frame)) := by
      have haccept : Frames App.settings (Client.accept env io reply sender frame) :=
        frames_accept (fun _ _ _ => rfl) (fun _ _ _ => rfl) reply sender frame
      refine frames_inApp (.ignore (.bind haccept fun conversation => ?_))
      cases conversation with
      | none => exact frames_pure _
      | some conversation => exact frames_sendLog _
    refine wp_mono (fun _ w' h => ?_) (fun _ w' h => ?_) (hframes.wp w) <;>
      (rw [h]
       exact .quiet (by simp [FileTask.holds, FileTask.finished]))
  | name io key value =>
    refine wp_rescue_of_frames (P := fun l => FileTask.Section env alphanumeric _ _ _ _ l) ?_
      fun _ => frames_inApp ?_
    · rw [wp_inApp_inStore]
      simp only [Store.setSetting, wp_bind, wp_attempt, wp_modify]
      exact ⟨fun _ => .named key value rfl,
        fun _ _ => .quiet (by simp [FileTask.holds, FileTask.finished])⟩
    · cases key with
      | nick peer => exact frames_pure _
      | _ => exact frames_emit _
  | clear io peer =>
    refine wp_rescue_of_frames (P := fun l => FileTask.Section env alphanumeric _ _ _ _ l) ?_
      fun _ => frames_inApp (frames_emit _)
    refine FileTask.wp_removal (Store.wp_clear _ _ _ _) ?_ rfl
    exact .bind (.ignore (frames_sendLog _)) fun _ => frames_emit _
  | forget io peer =>
    refine wp_rescue_of_frames (P := fun l => FileTask.Section env alphanumeric _ _ _ _ l) ?_
      fun _ => frames_inApp (frames_emit _)
    exact FileTask.wp_removal (Store.wp_forget _ _ _ _ _)
      (.bind (frames_emit _) fun _ => frames_emit _) rfl
  | wipe io =>
    refine wp_rescue_of_frames (P := fun l => FileTask.Section env alphanumeric _ _ _ _ l) ?_
      fun _ => frames_inApp (frames_emit _)
    exact FileTask.wp_removal (Store.wp_wipe _ _ _)
      (.bind (frames_emit _) fun _ => frames_emit _) rfl

theorem FileTask.wp_next (t : FileTask) (w : World) :
    wp (t.next env alphanumeric)
      (fun t' w' => t.Section env alphanumeric w.app.store w.ledger t' w'.ledger)
      (fun _ w' => t.Section env alphanumeric w.app.store w.ledger t.finished w'.ledger) w := by
  cases t with
  | send io peer path pc => exact wp_next_send io peer path pc w
  | receive io peer pc => exact wp_next_receive io peer pc w
  | once call isDone =>
    cases isDone with
    | true => exact .quiet fun _ h => h
    | false =>
      rw [next, wp_bind]
      exact call.wp_run w

variable (env alphanumeric) in
theorem FileTask.section_advance (t : FileTask) (w : World) :
    t.Section env alphanumeric w.app.store w.ledger (t.advance env alphanumeric w).1
      (t.advance env alphanumeric w).2.ledger := by
  have h : wp (t.next env alphanumeric) _ _ w := t.wp_next w
  unfold advance
  rcases wp_cases h with ⟨t', w', hrun, h⟩ | ⟨err, w', hrun, h⟩
  · rw [hrun]
    exact h
  · rw [hrun]
    have hreport : (after (t.report err) w').ledger = w'.ledger := frames_report t err w'
    simp only [hreport]
    exact h

end Wicara.Client
