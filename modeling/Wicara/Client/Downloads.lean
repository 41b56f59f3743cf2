import Wicara.Client.TransferRuns

namespace Wicara.Client

open Wicara.Core Lib Lib.Fallible

/-- What comes of a stream: up to its end, which is a read of no bytes, or up to a failure. -/
def arrived : List Chunk → List UInt8
  | [] | .failed _ :: _ => []
  | .data bytes _ :: chunks => if bytes = [] then [] else bytes ++ arrived chunks

/-- After `got` bytes the rest is read and written up to its end, and is not too much. -/
def complete (size : Nat) : Nat → List Chunk → Bool
  | _, [] => true
  | _, .failed _ :: _ => false
  | got, .data bytes outcome :: chunks => bytes = [] ||
    got + bytes.length ≤ size && outcome = none && complete size (got + bytes.length) chunks

/-- After `got` bytes the rest is read and written until it is too much. -/
def overruns (size : Nat) : Nat → List Chunk → Bool
  | _, [] | _, .failed _ :: _ => false
  | got, .data bytes outcome :: chunks => bytes ≠ [] && (size < got + bytes.length ||
    outcome = none && overruns size (got + bytes.length) chunks)

/-- These bytes are what the header announces. -/
def Header.Matches (C : Crypto) (header : Header) (bytes : List UInt8) : Prop :=
  bytes.length = header.size.toNat ∧ C.blake3 bytes = header.hash

instance (C : Crypto) (header : Header) (bytes : List UInt8) :
    Decidable (header.Matches C bytes) :=
  inferInstanceAs (Decidable (_ ∧ _))

/-- No call out of the program fails, and these chunks come after the header. -/
structure TransferIo.Carries (io : TransferIo) (late : Io) (header : Header)
    (chunks : List (List UInt8)) : Prop where
  header : io.header = .ok (some header.frame)
  chunks : io.chunks = chunks.map fun bytes => .data bytes none
  record : io.io.record = .ok
  history : io.io.history = none ∧ late.history = none
  create : io.create = none
  flush : io.flush = none
  setting : io.setting = .ok

/-- What they come to, up to a read of no bytes. -/
def received (chunks : List (List UInt8)) : List UInt8 := (chunks.takeWhile (· ≠ [])).flatten

/-- Nothing goes wrong after `got`, and what comes is what was announced.  `late` is how the
store stands to the second `send_log`. -/
structure TransferIo.Succeeds (C : Crypto) (io : TransferIo) (late : Io) (header : Header)
    (got : List UInt8) (chunks : List Chunk) : Prop where
  complete : complete header.size.toNat got.length chunks
  flush : io.flush = none
  announced : header.Matches C (got ++ arrived chunks)
  setting : io.setting 0 = none
  history : late.history = none

/-- What comes after `got` is refused for what it is, and the file can be removed. -/
def TransferIo.Discards (C : Crypto) (io : TransferIo) (header : Header) (got : List UInt8)
    (chunks : List Chunk) : Prop :=
  io.unlink = none ∧ (overruns header.size.toNat got.length chunks ∨
    complete header.size.toNat got.length chunks ∧ io.flush = none ∧
      ¬header.Matches C (got ++ arrived chunks))

instance (C : Crypto) (io : TransferIo) (header : Header) (got : List UInt8)
    (chunks : List Chunk) : Decidable (io.Discards C header got chunks) :=
  inferInstanceAs (Decidable (_ ∧ _))

/-- The call gets as far as to create the file of this header. -/
structure TransferIo.Begins (io : TransferIo) (peer : Key) (header : Header) : Prop where
  admissible : admissible io.toReceiveIo peer = .ok header
  record : io.io.record 0 = none ∧ io.io.record 1 = none
  history : io.io.history = none
  create : io.create = none

variable {C : Crypto}

section Chunks

variable {io : TransferIo} {late : Io} {header : Header} {got bytes : List UInt8}
  {chunks : List Chunk} {outcome : Option String}

theorem complete_data (hne : bytes ≠ []) :
    complete header.size.toNat got.length (.data bytes outcome :: chunks) = true ↔
      (got ++ bytes).length ≤ header.size.toNat ∧ outcome = none ∧
        complete header.size.toNat (got ++ bytes).length chunks = true := by
  simp [complete, hne, and_assoc]

theorem arrived_data (hne : bytes ≠ []) :
    got ++ arrived (.data bytes outcome :: chunks) = got ++ bytes ++ arrived chunks := by
  rw [arrived, if_neg hne, List.append_assoc]

theorem succeeds_data (hne : bytes ≠ []) :
    io.Succeeds C late header got (.data bytes outcome :: chunks) ↔
      (got ++ bytes).length ≤ header.size.toNat ∧ outcome = none ∧
        io.Succeeds C late header (got ++ bytes) chunks := by
  constructor
  · rintro ⟨hcomplete, hflush, hannounced, hsetting, hhistory⟩
    rw [arrived_data hne] at hannounced
    obtain ⟨hfits, hwritten, hcomplete⟩ := (complete_data hne).mp hcomplete
    exact ⟨hfits, hwritten, hcomplete, hflush, hannounced, hsetting, hhistory⟩
  · rintro ⟨hfits, hwritten, hcomplete, hflush, hannounced, hsetting, hhistory⟩
    exact ⟨(complete_data hne).mpr ⟨hfits, hwritten, hcomplete⟩, hflush,
      (arrived_data hne).symm ▸ hannounced, hsetting, hhistory⟩

theorem discards_data (hne : bytes ≠ []) (hfits : (got ++ bytes).length ≤ header.size.toNat) :
    io.Discards C header got (.data bytes outcome :: chunks) ↔
      outcome = none ∧ io.Discards C header (got ++ bytes) chunks := by
  have hoverruns : overruns header.size.toNat got.length (.data bytes outcome :: chunks) = true ↔
      outcome = none ∧ overruns header.size.toNat (got ++ bytes).length chunks = true := by
    rw [List.length_append] at hfits
    simp [overruns, hne, Nat.not_lt.mpr hfits]
  simp only [TransferIo.Discards, hoverruns, complete_data hne, arrived_data hne, hfits, true_and]
  tauto

theorem arrived_map (chunks : List (List UInt8)) :
    arrived (chunks.map fun bytes => .data bytes none) = received chunks := by
  induction chunks with
  | nil => rfl
  | cons bytes chunks ih =>
    rw [List.map_cons, arrived, ih, received, received, List.takeWhile_cons]
    by_cases hend : bytes = []
    · simp [hend]
    · simp [hend]

theorem complete_map (size : Nat) {got : Nat} (hgot : got ≤ size) (chunks : List (List UInt8)) :
    complete size got (chunks.map fun bytes => .data bytes none) = true ↔
      got + (received chunks).length ≤ size := by
  induction chunks generalizing got with
  | nil => simpa [complete, received] using hgot
  | cons bytes chunks ih =>
    by_cases hend : bytes = []
    · simpa [complete, received, hend] using hgot
    · have hreceived : (received (bytes :: chunks)).length =
          bytes.length + (received chunks).length := by
        simp [received, hend]
      simp only [List.map_cons, complete, hend, decide_false, Bool.false_or, decide_true,
        Bool.and_true, Bool.and_eq_true, decide_eq_true_eq, hreceived]
      by_cases hfits : got + bytes.length ≤ size
      · rw [ih hfits, Nat.add_assoc]
        exact and_iff_right hfits
      · exact iff_of_false (fun h => hfits h.1) (by omega)

end Chunks

section

variable (env : Env C) (alphanumeric : Char → Bool) (late : Io)

/-- The second `send_log` finds the store as it is by then. -/
def DiskTask.refreshed : DiskTask → DiskTask
  | .receive io peer (.announce header got) =>
    .receive { io with io := late } peer (.announce header got)
  | t => t

/-- Sections of a task with nothing in between, up to `n` of them. -/
def DiskTask.sections : Nat → DiskTask → VolumeAct PUnit
  | 0, _ => pure .unit
  | n + 1, t => do
    let t ← t.next env alphanumeric
    sections n (t.refreshed late)

/-- A whole call of `receive`. -/
def receiveFile (io : TransferIo) (peer : Key) : VolumeAct PUnit :=
  let t := DiskTask.receive io peer .start
  t.sections env alphanumeric late t.left

end

variable {env : Env C} {alphanumeric : Char → Bool} {late : Io}

/-- From where the task stands its function returns with `ok`, or fails with `err`. -/
def DiskTask.Ends (env : Env C) (alphanumeric : Char → Bool) (late : Io) (t : DiskTask)
    (ok : Volume → Prop) (err : Volume → Prop) (v : Volume) : Prop :=
  ∀ n, t.left ≤ n → wp (t.sections env alphanumeric late n) (fun _ => ok) (fun _ => err) v

namespace DiskTask

variable {t : DiskTask} {ok err : Volume → Prop} {v : Volume}

theorem left_refreshed (t : DiskTask) : (t.refreshed late).left = t.left := by
  unfold refreshed
  split <;> rfl

variable (late) in
theorem refreshed_receive (io : TransferIo) (peer : Key) (pc : TransferPc) :
    ∃ io', refreshed late (.receive io peer pc) = .receive io' peer pc := by
  cases pc with
  | announce header got => exact ⟨_, rfl⟩
  | _ => exact ⟨io, rfl⟩

/-- A section leads to a state from which the function goes on. -/
theorem ends_of_next (hleft : 0 < t.left)
    (h : wp (t.next env alphanumeric)
      (fun t' => (t'.refreshed late).Ends env alphanumeric late ok err) (fun _ => err) v) :
    t.Ends env alphanumeric late ok err v := by
  intro n hn
  obtain ⟨n, rfl⟩ := Nat.exists_eq_add_one_of_ne_zero (by omega : n ≠ 0)
  rw [sections, wp_bind]
  have hnext : wp (t.next env alphanumeric) _ _ v := t.next_goes_on v
  rw [wp_iff] at h hnext ⊢
  refine ⟨fun t' v' hrun => h.1 t' v' hrun n ?_, h.2⟩
  have hless := (hnext.1 t' v' hrun).left
  rw [left_refreshed]
  omega

theorem ends_of_pure {t' : DiskTask} (hnext : t.next env alphanumeric = pure t')
    (hleft : 0 < t.left) (h : (t'.refreshed late).Ends env alphanumeric late ok err v) :
    t.Ends env alphanumeric late ok err v :=
  ends_of_next hleft (by rwa [hnext, wp_pure])

theorem Ends.mono {ok' err' : Volume → Prop} (h : t.Ends env alphanumeric late ok err v)
    (hok : ∀ v, ok v → ok' v) (herr : ∀ v, err v → err' v) :
    t.Ends env alphanumeric late ok' err' v :=
  fun n hn => wp_mono (fun _ => hok) (fun _ => herr) (h n hn)

theorem ends_done {io : TransferIo} {peer : Key} (h : ok v) :
    Ends env alphanumeric late (.receive io peer .done) ok err v := by
  intro n _
  induction n with
  | zero => exact h
  | succ n ih => exact ih (Nat.zero_le _)

theorem wp_refold {io : Io} (peer : Key) {w : World} {ok : PUnit → World → Prop}
    {err : String → World → Prop} (hok : io.history = none → ∀ app, ok .unit { w with app := app })
    (herr : io.history ≠ none → ∀ e, err e w) : wp (Client.refold io peer) ok err w := by
  simp only [Client.refold, inApp, sendLog, emit, wp_zoom, wp_bind, wp_get, wp_lift, wp_modify]
  unfold Store.history
  cases hhistory : io.history with
  | none =>
    refine ⟨fun _ _ => hok hhistory _, fun _ he => ?_⟩
    cases he
  | some e =>
    refine ⟨fun _ hok => ?_, fun e' _ => herr (by simp [hhistory]) e'⟩
    cases hok

section

variable {io : TransferIo} {peer : Key} {header : Header} {got : List UInt8}

theorem ends_announce (hok : late.history = none → ∀ app,
      ok { v with world := { v.world with app := app } })
    (herr : late.history ≠ none → err v) :
    (refreshed late (.receive io peer (.announce header got))).Ends env alphanumeric late ok err
      v := by
  refine ends_of_next (Nat.succ_pos _) ?_
  simp only [refreshed, next, Client.announce, wp_bind, wp_inWorld]
  refine wp_refold peer (fun hhistory app => ?_) fun hhistory _ => herr hhistory
  exact ends_done (hok hhistory _)

theorem ends_place
    (hok : io.setting 0 = none → late.history = none → ∀ app origin,
      ok { v with world := { v.world with app := app, origin := origin } })
    (herr : io.setting 0 ≠ none ∨ late.history ≠ none → ∀ app origin,
      err { v with world := { v.world with app := app, origin := origin } }) :
    Ends env alphanumeric late (.receive io peer (.place header got)) ok err v := by
  refine ends_of_next (Nat.succ_pos _) ?_
  simp only [next, placeFile, wp_bind, wp_inWorld, wp_inApp_inStore, Store.setFilePath,
    Store.setSetting, wp_attempt, wp_modify, wp_pure]
  refine ⟨fun hsetting => ?_, fun e he => herr (.inl (by simp [he])) v.world.app v.world.origin⟩
  exact ends_announce (fun hhistory app => hok hsetting hhistory app _)
    fun hhistory => herr (.inr hhistory) _ _

variable (env alphanumeric late io header) in
/-- From `got` on everything has gone well, and the file is there. -/
structure Taken (got : List UInt8) (chunks : List Chunk) (v : Volume) : Prop where
  succeeds : io.Succeeds C late header got chunks
  read : v.disk.read (landing env alphanumeric header) = some (got ++ arrived chunks)

variable (env alphanumeric late io header) in
/-- From `got` on something has gone wrong. -/
structure Dropped (got : List UInt8) (chunks : List Chunk) (v v' : Volume) : Prop where
  created : v'.world.created = v.world.created
  fails : ¬io.Succeeds C late header got chunks
  removed : v'.disk.read (landing env alphanumeric header) = none ↔ io.Discards C header got chunks

variable {file : Nat} {chunks : List Chunk}

theorem Dropped.of_read (hread : v.disk.read (landing env alphanumeric header) = some got)
    {w : World} {bytes : List UInt8} (hcreated : w.created = v.world.created)
    (hfails : ¬io.Succeeds C late header bytes chunks)
    (hkeeps : ¬io.Discards C header bytes chunks) :
    Dropped env alphanumeric late io header bytes chunks v { v with world := w } :=
  ⟨hcreated, hfails, iff_of_false (by simp [hread]) hkeeps⟩

/-- What is refused is removed, if it can be. -/
theorem ends_discard {e : String}
    (hread : v.disk.read (landing env alphanumeric header) ≠ none)
    (hfails : ¬io.Succeeds C late header got chunks)
    (hrefused : io.Discards C header got chunks ↔ io.unlink = none) :
    Ends env alphanumeric late (.receive io peer (.discard header e)) ok
      (Dropped env alphanumeric late io header got chunks v) v := by
  refine ends_of_next (Nat.succ_pos _) ?_
  simp only [next, removeFile, wp_bind, wp_throw]
  cases hunlink : io.unlink with
  | some e => exact ⟨rfl, hfails, iff_of_false hread (by simp [hrefused, hunlink])⟩
  | none => exact ⟨rfl, hfails, iff_of_true (Disk.read_unlink _ _) (hrefused.mpr hunlink)⟩

theorem ends_flush (hread : v.disk.read (landing env alphanumeric header) = some got)
    (hcomplete : complete header.size.toNat got.length chunks = true)
    (hnot : overruns header.size.toNat got.length chunks = false) (harrived : arrived chunks = []) :
    Ends env alphanumeric late (.receive io peer (.flush header file got))
      (Taken env alphanumeric late io header got chunks)
      (Dropped env alphanumeric late io header got chunks v) v := by
  have hgot : got ++ arrived chunks = got := by rw [harrived, List.append_nil]
  have hdiscards : io.Discards C header got chunks ↔
      io.unlink = none ∧ io.flush = none ∧ ¬header.Matches C got := by
    simp [TransferIo.Discards, hcomplete, hnot, hgot]
  refine ends_of_next (Nat.succ_pos _) ?_
  simp only [next, wp_bind, wp_attempt, wp_ite, wp_pure]
  refine ⟨fun hflush => ⟨fun hmatches => ?_, fun hmatches => ?_⟩, fun e he => ?_⟩
  · refine ends_place (fun hsetting hhistory app origin => ?_) fun hlate app origin => ?_
    · exact ⟨⟨hcomplete, hflush, hgot.symm ▸ hmatches, hsetting, hhistory⟩, hgot.symm ▸ hread⟩
    · refine .of_read hread rfl (fun hs => ?_) fun hd => (hdiscards.mp hd).2.2 hmatches
      exact hlate.elim (fun h => h hs.setting) fun h => h hs.history
  · refine ends_discard (by simp [hread]) (fun hs => hmatches (hgot ▸ hs.announced)) ?_
    rw [hdiscards]
    exact and_iff_left ⟨hflush, hmatches⟩
  · refine .of_read hread rfl (fun hs => ?_) fun hd => ?_
    · simp [hs.flush] at he
    · simp [(hdiscards.mp hd).2.1] at he

/-- A chunk that is not too much is written. -/
theorem ends_write {bytes : List UInt8} {outcome : Option String}
    (hholds : v.disk.Holds (landing env alphanumeric header) file got) (hne : bytes ≠ [])
    (hfits : (got ++ bytes).length ≤ header.size.toNat)
    (hrest : ∀ v', v'.world.created = v.world.created →
      v'.disk.Holds (landing env alphanumeric header) file (got ++ bytes) →
        Ends env alphanumeric late (.receive io peer (.read header file (got ++ bytes) chunks))
          (Taken env alphanumeric late io header (got ++ bytes) chunks)
          (Dropped env alphanumeric late io header (got ++ bytes) chunks v') v') :
    Ends env alphanumeric late (.receive io peer (.write header file got bytes outcome chunks))
      (Taken env alphanumeric late io header got (.data bytes outcome :: chunks))
      (Dropped env alphanumeric late io header got (.data bytes outcome :: chunks) v) v := by
  have hwritten := hholds.write 0 (io.written bytes outcome)
  refine ends_of_next (Nat.succ_pos _) ?_
  simp only [next, onDisk, inApp, emit, wp_bind, wp_modify, wp_attempt, wp_inWorld, wp_zoom,
    wp_pure]
  constructor
  · rintro rfl
    refine (hrest _ ?_ ?_).mono ?_ ?_
    · rfl
    · exact hwritten
    · rintro v' ⟨hs, hread⟩
      exact ⟨(succeeds_data hne).mpr ⟨hfits, rfl, hs⟩, by rw [hread, arrived_data hne]⟩
    · rintro v' ⟨hcreated, hfails, hremoved⟩
      refine ⟨hcreated, fun hs => hfails ((succeeds_data hne).mp hs).2.2, ?_⟩
      rw [hremoved, discards_data hne hfits]
      exact (and_iff_right rfl).symm
  · rintro e rfl
    refine ⟨rfl, fun hs => ?_, iff_of_false (by simp [hwritten.read]) fun hd => ?_⟩
    · cases ((succeeds_data hne).mp hs).2.1
    · cases ((discards_data hne hfits).mp hd).1

/-- The loop, chunk by chunk. -/
theorem ends_read (hholds : v.disk.Holds (landing env alphanumeric header) file got) :
    Ends env alphanumeric late (.receive io peer (.read header file got chunks))
      (Taken env alphanumeric late io header got chunks)
      (Dropped env alphanumeric late io header got chunks v) v := by
  have hpos : 0 < left (.receive io peer (.read header file got chunks)) := Nat.succ_pos _
  induction chunks generalizing got v with
  | nil => exact ends_of_pure rfl hpos (ends_flush hholds.read rfl rfl rfl)
  | cons chunk chunks ih =>
    cases chunk with
    | failed e =>
      refine ends_of_next hpos ?_
      simp only [next, readChunk, wp_bind, wp_lift]
      refine ⟨fun _ hok => ?_, fun _ _ => .of_read hholds.read rfl (fun hs => ?_) fun hd => ?_⟩
      · cases hok
      · cases hs.complete
      · simp [TransferIo.Discards, complete, overruns] at hd
    | data bytes outcome =>
      by_cases hend : bytes = []
      · have hnext : next env alphanumeric (.receive io peer (.read header file got
            (.data bytes outcome :: chunks))) =
              pure (.receive io peer (.flush header file got)) := by
          rw [next, readChunk, if_pos hend]
          rfl
        refine ends_of_pure hnext hpos ?_
        exact ends_flush hholds.read (by simp [complete, hend]) (by simp [overruns, hend])
          (by simp [arrived, hend])
      by_cases hfits : (got ++ bytes).length ≤ header.size.toNat
      · have hnext : next env alphanumeric (.receive io peer (.read header file got
            (.data bytes outcome :: chunks))) =
              pure (.receive io peer (.write header file got bytes outcome chunks)) := by
          rw [next, readChunk, if_neg hend, if_pos hfits]
          rfl
        refine ends_of_pure hnext hpos (ends_write hholds hend hfits fun v' hcreated hholds' => ?_)
        exact ih hholds' (Nat.succ_pos _)
      · have hnext : next env alphanumeric (.receive io peer (.read header file got
            (.data bytes outcome :: chunks))) =
              pure (.receive io peer (.discard header (overrun header))) := by
          rw [next, readChunk, if_neg hend, if_neg hfits]
          rfl
        refine ends_of_pure hnext hpos (ends_discard (by simp [hholds.read]) (fun hs => ?_) ?_)
        · exact hfits ((succeeds_data hend).mp hs).1
        · rw [List.length_append, not_le] at hfits
          simp [TransferIo.Discards, overruns, hend, hfits]

theorem wp_readHeader (io : ReceiveIo) (peer : Key) (w : World) :
    wp (readHeader io peer)
      (fun header w' => w'.created = w.created ∧ admissible io peer = .ok header ∧
        io.io.record 0 = none ∧ io.io.record 1 = none)
      (fun _ w' => w'.created = w.created ∧ ∀ header, admissible io peer = .ok header →
        ¬(io.io.record 0 = none ∧ io.io.record 1 = none)) w := by
  rw [readHeader, wp_bind, wp_lift]
  refine ⟨fun header hheader => ?_, fun e he => ⟨rfl, fun header hheader => ?_⟩⟩
  · simp only [recordHeader, wp_bind, wp_inApp_inStore, Store.record, Header.frame, Frame.id,
      wp_attempt, wp_modify, wp_get, wp_pure]
    refine ⟨fun h0 => ⟨fun h1 => ⟨trivial, hheader, h0, h1⟩, fun e h1 => ⟨trivial, ?_⟩⟩,
      fun e h0 => ⟨trivial, ?_⟩⟩
    · simp [h1]
    · simp [h0]
  · cases he.symm.trans hheader

theorem ends_create (header : Header) (v : Volume) :
    Ends env alphanumeric late (.receive io peer (.create header))
      (fun v' => io.create = none ∧ Taken env alphanumeric late io header [] io.chunks v')
      (fun v' => io.create ≠ none ∧ v'.world.created = v.world.created ∨
        io.create = none ∧ ∃ v'', v''.world.created =
            v.world.created ++ [landing env alphanumeric header] ∧
          Dropped env alphanumeric late io header [] io.chunks v'' v') v := by
  refine ends_of_next (Nat.succ_pos _) ?_
  simp only [next, createFile, onDisk, wp_bind, wp_attempt, wp_get, wp_modify, wp_inWorld, wp_pure]
  refine ⟨fun hcreate => ?_, fun e he => .inl ⟨by simp [he], trivial⟩⟩
  exact (ends_read (Disk.holds_create _ _)).mono (fun _ h => ⟨hcreate, h⟩)
    fun _ h => .inr ⟨hcreate, _, rfl, h⟩

variable (env alphanumeric late io peer) in
/-- How a call of `receive` ends. -/
theorem ends_receive (v : Volume) :
    Ends env alphanumeric late (.receive io peer .start)
      (fun v' => ∃ header, io.Begins peer header ∧
        Taken env alphanumeric late io header [] io.chunks v')
      (fun v' => (∀ header, ¬io.Begins peer header) ∧ v'.world.created = v.world.created ∨
        ∃ header, io.Begins peer header ∧ ∃ v'', v''.world.created =
            v.world.created ++ [landing env alphanumeric header] ∧
          Dropped env alphanumeric late io header [] io.chunks v'' v') v := by
  refine ends_of_next (Nat.succ_pos _) ?_
  simp only [next, wp_bind, wp_inWorld, wp_pure]
  refine wp_mono (fun header w h => ?_) (fun e w h => ?_)
    (wp_readHeader io.toReceiveIo peer v.world)
  · obtain ⟨hcreated, hheader, hrecord⟩ := h
    refine ends_of_next (Nat.succ_pos _) ?_
    simp only [refreshed, next, wp_bind, wp_inWorld, wp_pure]
    refine wp_refold peer (fun hhistory app => ?_) fun hhistory e => ?_
    · refine (ends_create header _).mono ?_ ?_
      · rintro v' ⟨hcreate, htaken⟩
        exact ⟨header, ⟨hheader, hrecord, hhistory, hcreate⟩, htaken⟩
      · rintro v' (⟨hcreate, hsame⟩ | ⟨hcreate, v'', hnew, hdropped⟩)
        · exact .inl ⟨fun _ hb => hcreate hb.create, hsame.trans hcreated⟩
        · refine .inr ⟨header, ⟨hheader, hrecord, hhistory, hcreate⟩, v'', ?_, hdropped⟩
          rw [hnew, ← hcreated]
    · exact .inl ⟨fun _ hb => hhistory hb.history, hcreated⟩
  · exact .inl ⟨fun header hb => h.2 header hb.admissible hb.record, h.1⟩

end

end DiskTask

namespace Sample

open Core.Sample

/-- A file of three bytes. -/
def tune : Header := ⟨⟨key 2, 1, 5⟩, "tune.ogg", 3, crypto.blake3 [1, 2, 3]⟩

/-- It is announced, and then these chunks come. -/
def streaming (chunks : List Chunk) : TransferIo where
  io := .ok
  setting := .ok
  header := .ok (some tune.frame)
  create := none
  chunks := chunks
  flush := none
  spilt := 0
  unlink := none

end Sample

/-- A call of `receive` that fails after it has created its file leaves it there, unless it is
what has come that is refused, and the file can be removed. -/
theorem failed_transfer_leaves_no_file_iff {io : TransferIo} {peer : Key} {header : Header}
    {err : String} {v v' : Volume}
    (hrun : (receiveFile env alphanumeric late io peer).run v = .error err v')
    (hheader : io.header = .ok (some header.frame))
    (hcreated : v'.world.created = v.world.created ++ [landing env alphanumeric header]) :
    v'.disk.read (landing env alphanumeric header) = none ↔ io.Discards C header [] io.chunks := by
  have hends := wp_iff.mp (DiskTask.ends_receive env alphanumeric late io peer v _ le_rfl)
  obtain ⟨-, hsame⟩ | ⟨header', hbegins, v'', -, hdropped⟩ := hends.2 err v' hrun
  · simp [hcreated] at hsame
  · obtain ⟨rfl, -⟩ := announced_of_admissible hheader hbegins.admissible
    exact hdropped.removed

open Core.Sample Sample in
/-- A byte comes, and then the connection is lost. -/
theorem broken_stream_leaves_its_file :
    let receiving := receiveFile (client 1 false) Char.isAlphanum .ok
      (streaming [.data [1] none, .failed "connection lost"]) (key 2)
    let path := landing (client 1 false) Char.isAlphanum tune
    Fallible.succeeds receiving firstVolume = false ∧
      (after receiving firstVolume).world.created = firstVolume.world.created ++ [path] ∧
        (after receiving firstVolume).disk.read path = some [1] := by
  decide +kernel

open Core.Sample Sample in
/-- The last byte is not the one that was announced. -/
theorem failed_transfer_leaves_no_file_altered :
    let receiving := receiveFile (client 1 false) Char.isAlphanum .ok
      (streaming [.data [1] none, .data [2, 4] none]) (key 2)
    (after receiving firstVolume).disk.read (landing (client 1 false) Char.isAlphanum tune) =
      none := by
  intro receiving
  obtain ⟨err, hrun⟩ := run_of_not_succeeds
    (show Fallible.succeeds receiving firstVolume = false by decide +kernel)
  exact (failed_transfer_leaves_no_file_iff hrun rfl (by decide +kernel)).mpr (by decide +kernel)

end Wicara.Client
