import Wicara.Client.Downloads
import Wicara.Core.Framing

namespace Wicara.Client

open Wicara.Core Lib Lib.Fallible Lib.Streams

/-- No call out of the program fails, and the file at this path is one that may be sent and stays
as it is: it is read in these chunks. -/
structure SendIo.Carries (C : Crypto) (io : SendIo) (path name : String)
    (chunks : List (List UInt8)) : Prop where
  metadata : io.metadata = some ⟨true, .ofNat (received chunks).length⟩
  small : (received chunks).length ≤ maxFile.toNat
  name : fileName path = some name
  hash : io.hash = .ok (C.blake3 (received chunks))
  record : io.io.record = .ok
  setting : io.setting = .ok
  history : io.io.history = none
  stream : io.stream = none
  announced : io.announced = none
  opened : io.opened = none
  reads : io.reads = chunks.map fun bytes => .data bytes none
  stopped : io.stopped = none

/-- The header of a file that is sent. -/
def SendIo.announces (C : Crypto) (io : SendIo) (name : String) (content : List UInt8) (s : Store) :
    Header where
  id := (s.counter.mint io.now).1
  name := name
  size := .ofNat content.length
  hash := C.blake3 content

variable {C : Crypto} {io : SendIo} {header : Header} {path name : String}
  {chunks earlier : List (List UInt8)} {written bytes : List UInt8} {w : World}

theorem toNat_length (hsmall : bytes.length ≤ maxFile.toNat) :
    (UInt64.ofNat bytes.length).toNat = bytes.length :=
  Nat.mod_eq_of_lt (lt_of_le_of_lt hsmall (by decide))

/-- It is one that the other side may take. -/
theorem announces_spec (hsmall : bytes.length ≤ maxFile.toNat) (s : Store) :
    let header := io.announces C name bytes s
    header.id.sender = s.counter.sender ∧ header.size ≤ maxFile ∧ header.Matches C bytes := by
  refine ⟨rfl, ?_, (toNat_length hsmall).symm, rfl⟩
  rw [UInt64.le_iff_toNat_le, SendIo.announces, toNat_length hsmall]
  exact hsmall

theorem modify_last (f : α → α) (as : List α) (a : α) :
    (as ++ [a]).modify as.length f = as ++ [f a] := by
  induction as with
  | nil => rfl
  | cons b as ih => rw [List.cons_append, List.length_cons, List.modify_succ_cons, ih,
    List.cons_append]

theorem wp_writeAll (hstreams : w.streams = earlier ++ [written]) (bytes : List UInt8) :
    wp (writeAll io earlier.length bytes none)
      (fun _ w' => w'.streams = earlier ++ [written ++ bytes]) (fun _ _ => False) w := by
  simp only [writeAll, wp_bind, wp_modify, wp_attempt, SendIo.written, if_true, hstreams,
    modify_last, true_implies]
  simp

/-- The loop writes what it reads. -/
theorem wp_sendChunks (hstreams : w.streams = earlier ++ [written]) (sent : UInt64) :
    wp (sendChunks io header earlier.length sent (chunks.map fun bytes => .data bytes none))
      (fun _ w' => w'.streams = earlier ++ [written ++ received chunks]) (fun _ _ => False) w := by
  induction chunks generalizing sent written w with
  | nil => simpa [sendChunks, received] using hstreams
  | cons bytes chunks ih =>
    rw [List.map_cons, sendChunks, wp_ite]
    refine ⟨fun hend => ?_, fun hmore => ?_⟩
    · simpa [received, hend] using hstreams
    · have hreceived : received (bytes :: chunks) = bytes ++ received chunks := by
        simp [received, hmore]
      rw [wp_bind]
      refine wp_mono (fun _ w' hwritten => ?_) (fun _ _ h => h) (wp_writeAll hstreams bytes)
      simp only [inApp, emit, wp_bind, wp_zoom, wp_modify, hreceived, ← List.append_assoc]
      refine ih ?_ _
      exact hwritten

/-- A transfer writes the header and behind it the file. -/
theorem wp_transfer (h : io.Carries C path name chunks)
    (hheader : encode header.frame = .ok bytes) :
    wp (transfer io header) (fun _ w' => w'.streams = w.streams ++ [bytes ++ received chunks])
      (fun _ _ => False) w := by
  simp only [transfer, openBi, writeFrame, wp_bind, wp_attempt, wp_get, wp_modify, wp_pure, wp_lift,
    h.stream, h.announced, h.opened, h.reads, h.stopped, hheader]
  refine ⟨fun _ => ⟨fun _ hbytes => ?_, fun _ he => by cases he⟩, fun _ he => by cases he⟩
  cases hbytes
  refine wp_mono (fun _ w₁ hannounced => ⟨fun _ => ?_, fun _ he => by cases he⟩) (fun _ _ h => h)
    (wp_writeAll rfl bytes)
  refine wp_mono (fun _ w₂ hwritten => ⟨fun _ => ?_, fun _ he => by cases he⟩) (fun _ _ h => h)
    (wp_sendChunks hannounced 0)
  exact hwritten

/-- What is announced of a file that may be sent. -/
theorem wp_mintHeader_carries (h : io.Carries C path name chunks) :
    wp (mintHeader io path)
      (fun header w' => header = io.announces C name (received chunks) w.app.store ∧
        w'.streams = w.streams)
      (fun _ _ => False) w := by
  have hle : UInt64.ofNat (received chunks).length ≤ maxFile := by
    rw [UInt64.le_iff_toNat_le, toNat_length h.small]
    exact h.small
  have hsendable : sendable io path =
      .ok (name, .ofNat (received chunks).length, C.blake3 (received chunks)) := by
    simp [sendable, h.metadata, h.name, h.hash, ensure, hle, pure, Except.pure, bind, Except.bind]
  simp only [mintHeader, wp_bind, wp_modify, hsendable, wp_lift, wp_inApp_inStore]
  refine ⟨fun _ hsent => ?_, fun _ he => ?_⟩
  · cases hsent
    exact ⟨rfl, rfl⟩
  · cases he

/-- What is left to do of `send` once the header is there. -/
theorem wp_send_rest (h : io.Carries C path name chunks) (peer : Key)
    (hheader : encode header.frame = .ok bytes) :
    wp (do
        recordHeader io.io peer header
        placeFile io.setting .sent header.id path
        refold io.io peer
        transfer io header)
      (fun _ w' => w'.streams = w.streams ++ [bytes ++ received chunks]) (fun _ _ => False) w := by
  simp only [recordHeader, placeFile, Store.setFilePath, Store.setSetting, wp_bind,
    wp_inApp_inStore, Store.record, Header.frame, Frame.id, wp_attempt, wp_modify, wp_get, wp_pure,
    h.record, h.setting]
  refine ⟨fun _ => ⟨fun _ => ⟨fun _ => ?_, fun _ he => by cases he⟩, fun _ he => by cases he⟩,
    fun _ he => by cases he⟩
  exact DiskTask.wp_refold peer (fun _ app => wp_transfer h hheader)
    fun hfails => absurd h.history hfails

/-- `send` streams the header and the file, and finds its way to the end. -/
theorem run_send (h : io.Carries C path name chunks) (peer : Key) {w : World}
    (hheader : encode (io.announces C name (received chunks) w.app.store).frame = .ok bytes) :
    ∃ w', (send io peer path).run w = .ok .unit w' ∧
      w'.streams = w.streams ++ [bytes ++ received chunks] := by
  obtain ⟨header, w₁, hrun, rfl, hstreams⟩ | ⟨_, _, -, hno⟩ :=
    wp_cases (wp_mintHeader_carries (w := w) h)
  · obtain ⟨_, w', hrest, hwritten⟩ | ⟨_, _, -, hno⟩ :=
      wp_cases (wp_send_rest (w := w₁) h peer hheader)
    · refine ⟨w', ?_, hstreams ▸ hwritten⟩
      rw [send, EStateM.run_bind, hrun]
      exact hrest
    · exact hno.elim
  · exact hno.elim

end Wicara.Client
