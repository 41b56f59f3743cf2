import Wicara.Client.FileTasks
import Wicara.Lib.Disk

namespace Wicara.Client

open Wicara.Core Lib Lib.Fallible Lib.Run Lib.Interleaving

/-- What one call of `receive` finds on the disk besides: how much gets there of a chunk that
cannot be written, and whether its file can be removed. -/
structure TransferIo extends ReceiveIo where
  spilt : Nat
  unlink : Option String

/-- What gets to the disk of a chunk. -/
def TransferIo.written (io : TransferIo) (bytes : List UInt8) (outcome : Option String) :
    List UInt8 :=
  if outcome = none then bytes else bytes.take io.spilt

/-- Where a call of `receive` stands, from one `.await` to the next.  A chunk is written in a
section of its own: another thread writes it, at any time before the next read is looked at. -/
inductive TransferPc
  | start
  | refold (header : Header)
  | create (header : Header)
  | read (header : Header) (file : Nat) (got : List UInt8) (chunks : List Chunk)
  | write (header : Header) (file : Nat) (got bytes : List UInt8) (outcome : Option String)
      (chunks : List Chunk)
  | discard (header : Header) (err : String)
  | flush (header : Header) (file : Nat) (got : List UInt8)
  | place (header : Header) (got : List UInt8)
  | announce (header : Header) (got : List UInt8)
  | done

/-- A call of `receive`, or a call of `record` or `set_file_path` from elsewhere. -/
inductive DiskTask
  | receive (io : TransferIo) (peer : Key) (pc : TransferPc)
  | record (io : Sqlite) (peer : Key) (frame : Frame) (done : Bool)
  | setFilePath (io : Sqlite) (id : MessageId) (path : String) (done : Bool)

/-- The client and its files. -/
structure Volume where
  world : World
  disk : Disk String UInt8

abbrev VolumeAct := EStateM String Volume

def inWorld (m : FileAct α) : VolumeAct α :=
  zoom Volume.world (fun world v => { v with world := world }) m

def onDisk (f : Disk String UInt8 → Disk String UInt8) : VolumeAct PUnit :=
  modify fun v => { v with disk := f v.disk }

def overrun (header : Header) : String :=
  s!"peer sent more than the {header.size} bytes it announced"

def mismatch (header : Header) : String :=
  s!"{header.name} did not match the hash it was sent with — discarded"

/-- One turn of the loop of `receive`, up to the write. -/
def readChunk (header : Header) (file : Nat) (got : List UInt8) :
    List Chunk → Except String TransferPc
  | [] => .ok (.flush header file got)
  | .failed err :: _ => .error err
  | .data bytes outcome :: chunks =>
    if bytes = [] then .ok (.flush header file got)
    else if (got ++ bytes).length ≤ header.size.toNat then
      .ok (.write header file got bytes outcome chunks)
    else .ok (.discard header (overrun header))

/-- Where a turn of the loop can lead. -/
inductive Turned (header : Header) (file : Nat) (got : List UInt8) : TransferPc → Prop
  | flush : Turned header file got (.flush header file got)
  | write (bytes : List UInt8) (outcome : Option String) (chunks : List Chunk) :
      Turned header file got (.write header file got bytes outcome chunks)
  | discard (err : String) : Turned header file got (.discard header err)

theorem readChunk_turn {header : Header} {file : Nat} {got : List UInt8} {chunks : List Chunk}
    {pc : TransferPc} (h : readChunk header file got chunks = .ok pc) :
    Turned header file got pc := by
  cases chunks with
  | nil =>
    cases h
    exact .flush
  | cons chunk chunks =>
    cases chunk with
    | failed err => cases h
    | data bytes outcome =>
      rw [readChunk] at h
      split at h
      · cases h
        exact .flush
      · split at h
        · cases h
          exact .write bytes outcome chunks
        · cases h
          exact .discard _

variable {C : Crypto} (env : Env C) (alphanumeric : Char → Bool)

def createFile (io : TransferIo) (header : Header) : VolumeAct Nat := do
  attempt io.create
  let v ← get
  onDisk (Disk.create (landing env alphanumeric header))
  inWorld (modify fun w => { w with created := w.created ++ [landing env alphanumeric header] })
  pure (v.disk.opened (landing env alphanumeric header))

/-- `let _ = remove_file(&path)` -/
def removeFile (io : TransferIo) (header : Header) : VolumeAct PUnit :=
  match io.unlink with
  | some _ => pure .unit
  | none => onDisk (Disk.unlink (landing env alphanumeric header))

/-- The next section of a task; the task stands where it says if the section does not fail. -/
def DiskTask.next : DiskTask → VolumeAct DiskTask
  | .receive io peer .start => do
    let header ← inWorld (readHeader io.toReceiveIo peer)
    pure (.receive io peer (.refold header))
  | .receive io peer (.refold header) => do
    inWorld (Client.refold io.io peer)
    pure (.receive io peer (.create header))
  | .receive io peer (.create header) => do
    let file ← createFile env alphanumeric io header
    pure (.receive io peer (.read header file [] io.chunks))
  | .receive io peer (.read header file got chunks) => do
    let pc ← lift (readChunk header file got chunks)
    pure (.receive io peer pc)
  | .receive io peer (.write header file got bytes outcome chunks) => do
    onDisk (Disk.write 0 file got.length (io.written bytes outcome))
    attempt outcome
    let got := got ++ bytes
    inWorld (inApp (emit (.transfer header.id (.ofNat got.length) header.size)))
    pure (.receive io peer (.read header file got chunks))
  | .receive io _ (.discard header err) => do
    removeFile env alphanumeric io header
    throw err
  | .receive io peer (.flush header _ got) => do
    attempt io.flush
    if got.length = header.size.toNat ∧ C.blake3 got = header.hash then
      pure (.receive io peer (.place header got))
    else pure (.receive io peer (.discard header (mismatch header)))
  | .receive io peer (.place header got) => do
    inWorld (placeFile io.setting .received header.id (landing env alphanumeric header))
    pure (.receive io peer (.announce header got))
  | .receive io peer (.announce header got) => do
    inWorld (Client.announce env alphanumeric io.toReceiveIo peer header got)
    pure (.receive io peer .done)
  | .record io peer frame false => do
    let _ ← inWorld (inApp (inStore (Store.record io peer frame)))
    pure (.record io peer frame true)
  | .setFilePath io id path false => do
    inWorld (placeFile io .sent id path)
    pure (.setFilePath io id path true)
  | done => pure done

/-- What a task says if it fails. -/
def DiskTask.report (t : DiskTask) (err : String) : FileAct PUnit :=
  match t with
  | .receive _ _ _ => inApp (status s!"attachment failed: {err}")
  | _ => pure .unit

def DiskTask.finished : DiskTask → DiskTask
  | .receive io peer _ => .receive io peer .done
  | .record io peer frame _ => .record io peer frame true
  | .setFilePath io id path _ => .setFilePath io id path true

def DiskTask.advance (t : DiskTask) (v : Volume) : DiskTask × Volume :=
  match (t.next env alphanumeric).run v with
  | .ok t v => (t, v)
  | .error err v => (t.finished, after (inWorld (t.report err)) v)

/-- The part of its function that a task has before it, as far as the client sees it. -/
def DiskTask.remaining : DiskTask → FileAct PUnit
  | .receive io peer .start => Client.receive env alphanumeric io.toReceiveIo peer
  | .receive io peer (.refold header) => do
    Client.refold io.io peer
    let got ← Client.download env alphanumeric io.toReceiveIo header
    rest io peer header got
  | .receive io peer (.create header) => do
    let got ← Client.download env alphanumeric io.toReceiveIo header
    rest io peer header got
  | .receive io peer (.read header _ got chunks) => do
    let got ← inApp do
      let got ← receiveChunks header got chunks
      checked io header got
    rest io peer header got
  | .receive io peer (.write header _ got bytes outcome chunks) => do
    let got ← inApp do
      attempt outcome
      emit (.transfer header.id (.ofNat (got ++ bytes).length) header.size)
      let got ← receiveChunks header (got ++ bytes) chunks
      checked io header got
    rest io peer header got
  | .receive _ _ (.discard _ err) => throw err
  | .receive io peer (.flush header _ got) => do
    let got ← inApp (checked io header got)
    rest io peer header got
  | .receive io peer (.place header got) => rest io peer header got
  | .receive io peer (.announce header got) =>
    Client.announce env alphanumeric io.toReceiveIo peer header got
  | .record io peer frame false => do
    let _ ← inApp (inStore (Store.record io peer frame))
  | .setFilePath io id path false => placeFile io .sent id path
  | _ => pure .unit
where
  checked (io : TransferIo) (header : Header) (got : List UInt8) : Act (List UInt8) := do
    attempt io.flush
    lift (ensure (got.length = header.size.toNat ∧ C.blake3 got = header.hash) (mismatch header))
    pure got
  rest (io : TransferIo) (peer : Key) (header : Header) (got : List UInt8) : FileAct PUnit := do
    placeFile io.setting .received header.id (landing env alphanumeric header)
    Client.announce env alphanumeric io.toReceiveIo peer header got

def DiskTask.left : DiskTask → Nat
  | .receive io _ .start => 2 * io.chunks.length + 7
  | .receive io _ (.refold _) => 2 * io.chunks.length + 6
  | .receive io _ (.create _) => 2 * io.chunks.length + 5
  | .receive _ _ (.read _ _ _ chunks) => 2 * chunks.length + 4
  | .receive _ _ (.write _ _ _ _ _ chunks) => 2 * chunks.length + 5
  | .receive _ _ (.flush _ _ _) => 3
  | .receive _ _ (.place _ _) => 2
  | .receive _ _ (.announce _ _) | .receive _ _ (.discard _ _) => 1
  | .record _ _ _ false | .setFilePath _ _ _ false => 1
  | _ => 0

variable {env alphanumeric}

@[simp] theorem wp_inWorld {m : FileAct α} {ok : α → Volume → Prop} {err : String → Volume → Prop}
    {v : Volume} :
    wp (inWorld m) ok err v ↔ wp m (fun a w => ok a { v with world := w })
      (fun e w => err e { v with world := w }) v.world :=
  wp_zoom

variable (env alphanumeric) in
/-- The task goes on from one section to a later one, and has the same before it. -/
structure DiskTask.GoesOn (t : DiskTask) (v : Volume) (t' : DiskTask) (v' : Volume) : Prop where
  report : t'.report = t.report
  left : t'.left ≤ t.left - 1
  remaining : (t.remaining env alphanumeric).run v.world =
    (t'.remaining env alphanumeric).run v'.world

variable (env alphanumeric) in
/-- The task fails as its function does. -/
def DiskTask.Fails (t : DiskTask) (v : Volume) (err : String) (v' : Volume) : Prop :=
  (t.remaining env alphanumeric).run v.world = .error err v'.world

/-- A section of the client alone. -/
theorem DiskTask.wp_inWorld_goes_on (t : DiskTask) (v : Volume) {m : FileAct α} {k : α → DiskTask}
    (hm : t.remaining env alphanumeric = m >>= fun a => (k a).remaining env alphanumeric)
    (hreport : ∀ a, (k a).report = t.report) (hleft : ∀ a, (k a).left ≤ t.left - 1) :
    wp (inWorld m >>= fun a => pure (k a)) (t.GoesOn env alphanumeric v)
      (t.Fails env alphanumeric v) v := by
  rw [wp_bind, wp_inWorld]
  refine wp_mono (fun a w h => ?_) (fun err w h => ?_)
    (wp_run_bind m (fun a => (k a).remaining env alphanumeric) v.world)
  · exact ⟨hreport a, hleft a, by rw [hm, h]⟩
  · rw [Fails, hm, h]

theorem DiskTask.readChunk_goes_on (io : TransferIo) (peer : Key) (header : Header) (file : Nat)
    (got : List UInt8) (chunks : List Chunk) (v : Volume) :
    let t := DiskTask.receive io peer (.read header file got chunks)
    wp (lift (readChunk header file got chunks) >>= fun pc => pure (.receive io peer pc))
      (t.GoesOn env alphanumeric v) (t.Fails env alphanumeric v) v := by
  cases chunks with
  | nil => exact ⟨rfl, Nat.le_refl _, rfl⟩
  | cons chunk chunks =>
    cases chunk with
    | failed err => rfl
    | data bytes outcome =>
      by_cases hend : bytes = []
      · rw [readChunk, if_pos hend]
        refine ⟨rfl, by simp [left], ?_⟩
        simp only [remaining, receiveChunks, if_pos hend]
        rfl
      by_cases hfits : (got ++ bytes).length ≤ header.size.toNat
      · rw [readChunk, if_neg hend, if_pos hfits]
        refine ⟨rfl, by simp only [left, List.length_cons]; omega, ?_⟩
        simp only [remaining, receiveChunks, if_neg hend, ensure, if_pos hfits, lift, pure_bind,
          bind_assoc]
      · rw [readChunk, if_neg hend, if_neg hfits]
        refine ⟨rfl, by simp only [left, List.length_cons]; omega, ?_⟩
        simp only [remaining, receiveChunks, if_neg hend, ensure, if_neg hfits]
        rfl

/-- A section leaves of its function what is then still to come. -/
theorem DiskTask.next_goes_on (t : DiskTask) (v : Volume) :
    wp (t.next env alphanumeric) (t.GoesOn env alphanumeric v) (t.Fails env alphanumeric v) v := by
  cases t with
  | record io peer frame isDone =>
    cases isDone with
    | true => exact ⟨rfl, Nat.le_refl _, rfl⟩
    | false => exact wp_inWorld_goes_on _ v rfl (fun _ => rfl) fun _ => Nat.le_refl _
  | setFilePath io id path isDone =>
    cases isDone with
    | true => exact ⟨rfl, Nat.le_refl _, rfl⟩
    | false => exact wp_inWorld_goes_on _ v (bind_pure _).symm (fun _ => rfl) fun _ => Nat.le_refl _
  | receive io peer pc =>
    cases pc with
    | start => exact wp_inWorld_goes_on _ v rfl (fun _ => rfl) fun _ => Nat.le_refl _
    | refold header => exact wp_inWorld_goes_on _ v rfl (fun _ => rfl) fun _ => Nat.le_refl _
    | create header =>
      simp only [next, createFile, wp_bind, wp_attempt, wp_get, onDisk, wp_modify, wp_inWorld,
        wp_pure]
      refine ⟨fun hcreate => ⟨rfl, Nat.le_refl _, ?_⟩, fun err hcreate => ?_⟩
      · simp only [remaining, Client.download, hcreate]
        rfl
      · simp only [Fails, remaining, Client.download, hcreate]
        rfl
    | read header file got chunks => exact readChunk_goes_on io peer header file got chunks v
    | write header file got bytes outcome chunks =>
      simp only [next, onDisk, wp_bind, wp_modify, wp_attempt, wp_inWorld, wp_pure]
      constructor
      · rintro rfl
        exact ⟨rfl, Nat.le_refl _, rfl⟩
      · rintro err rfl
        rfl
    | discard header err =>
      simp only [next, removeFile, wp_bind, wp_throw]
      cases io.unlink with
      | some _ => rfl
      | none => rfl
    | flush header file got =>
      simp only [next, wp_bind, wp_attempt, wp_ite, wp_pure]
      refine ⟨fun hflush => ⟨fun hgot => ?_, fun hgot => ?_⟩, fun err hflush => ?_⟩
      · refine ⟨rfl, by simp [left], ?_⟩
        simp only [remaining, remaining.checked, hflush, ensure, if_pos hgot]
        rfl
      · refine ⟨rfl, by simp [left], ?_⟩
        simp only [remaining, remaining.checked, hflush, ensure, if_neg hgot]
        rfl
      · simp only [Fails, remaining, remaining.checked, hflush]
        rfl
    | place header got => exact wp_inWorld_goes_on _ v rfl (fun _ => rfl) fun _ => Nat.le_refl _
    | announce header got =>
      exact wp_inWorld_goes_on _ v (bind_pure _).symm (fun _ => rfl) fun _ => Nat.le_refl _
    | done => exact ⟨rfl, Nat.le_refl _, rfl⟩

theorem DiskTask.remaining_finished (t : DiskTask) :
    t.finished.remaining env alphanumeric = pure .unit := by
  cases t <;> rfl

/-- A section changes what is left of the function by what it does and by nothing else. -/
theorem DiskTask.run_remaining (t : DiskTask) (v : Volume) :
    (rescue (t.remaining env alphanumeric) t.report).run v.world =
      (rescue ((t.advance env alphanumeric v).1.remaining env alphanumeric)
        (t.advance env alphanumeric v).1.report).run (t.advance env alphanumeric v).2.world := by
  have hnext : wp (t.next env alphanumeric) _ _ v := t.next_goes_on v
  unfold advance
  rcases wp_cases hnext with ⟨t', v', hrun, hnext⟩ | ⟨err, v', hrun, hnext⟩
  · rw [hrun]
    have hremaining := hnext.remaining
    simp only [rescue, EStateM.run] at hremaining ⊢
    rw [hremaining, hnext.report]
  · rw [hrun]
    have hfails : (t.remaining env alphanumeric).run v.world = .error err v'.world := hnext
    rw [remaining_finished]
    simp only [rescue, EStateM.run] at hfails ⊢
    rw [hfails]
    cases t <;> rfl

theorem DiskTask.left_advance (t : DiskTask) (v : Volume) :
    (t.advance env alphanumeric v).1.left ≤ t.left - 1 := by
  have hnext : wp (t.next env alphanumeric) _ _ v := t.next_goes_on v
  unfold advance
  rcases wp_cases hnext with ⟨t', v', hrun, hnext⟩ | ⟨err, v', hrun, -⟩
  · rw [hrun]
    exact hnext.left
  · rw [hrun]
    cases t <;> exact Nat.zero_le _

theorem DiskTask.remaining_of_left {t : DiskTask} (h : t.left = 0) :
    t.remaining env alphanumeric = pure .unit := by
  cases t with
  | receive io peer pc =>
    cases pc with
    | done => rfl
    | _ => simp [left] at h
  | record io peer frame isDone =>
    cases isDone with
    | true => rfl
    | false => cases h
  | setFilePath io id path isDone =>
    cases isDone with
    | true => rfl
    | false => cases h

/-- Run on its own, chunk by chunk, a call does to the client what its function does in one go. -/
theorem DiskTask.alone_eq (t : DiskTask) (v : Volume) :
    (rescue (t.remaining env alphanumeric) t.report).run v.world =
      .ok .unit (alone (advance env alphanumeric) t.left t v).2.world := by
  have hleft : (alone (advance env alphanumeric) t.left t v).1.left = 0 :=
    alone_finishes left left_advance (Nat.le_refl _) v
  rw [alone_meaning (fun t v => (rescue (remaining env alphanumeric t) t.report).run v.world)
    run_remaining t.left t v, remaining_of_left hleft]
  rfl

end Wicara.Client
