import Wicara.Core.Sample
import Wicara.Lib.Streams

namespace Wicara.Core

open Lib.Encoding Lib.Fallible Lib.Streams

/-- `fromBytes` is `postcard::from_bytes`. -/
def readFrame (fromBytes : List UInt8 → Except String Frame) :
    EStateM String ByteStream (Option Frame) := do
  match ← readExact 4 with
  | .error .unexpectedEof => pure none
  | .error (.other err) => throw err
  | .ok len => do
    let len := ofLeBytes len
    lift (ensure (len ≤ maxFrame)
      s!"peer announced a {len}-byte frame, over the {maxFrame}-byte cap")
    match ← readExact len with
    | .error err => throw err.message
    | .ok payload => do
      let frame ← lift (fromBytes payload)
      pure (some frame)

variable {fromBytes : List UInt8 → Except String Frame} {frame : Frame} {bytes : List UInt8}

theorem encode_eq_ok : encode frame = .ok bytes ↔ frame.toStdvec.length ≤ maxFrame ∧
    leBytes 4 frame.toStdvec.length ++ frame.toStdvec = bytes := by
  rw [encode, ensure_bind_eq_ok]
  exact and_congr_right fun _ => ⟨fun h => Except.ok.inj h, congrArg _⟩

theorem encode_eq_error {err : String} (h : encode frame = .error err) :
    maxFrame < frame.toStdvec.length := by
  by_contra hle
  exact absurd (h.symm.trans (encode_eq_ok.mpr ⟨not_lt.mp hle, rfl⟩)) (by simp)

/-- What `read_frame` makes of an announcement that is within the cap … -/
theorem run_readFrame_of_le {len payload : List UInt8} (hlen : len.length = 4)
    (hpayload : payload.length = ofLeBytes len) (hle : ofLeBytes len ≤ maxFrame)
    (rest : List UInt8) (ending : Option String) :
    (readFrame fromBytes).run ⟨len ++ (payload ++ rest), ending⟩ =
      (lift ((fromBytes payload).map some) : EStateM String ByteStream _).run ⟨rest, ending⟩ := by
  simp only [readFrame, EStateM.run_bind, run_readExact_append hlen, ensure, if_pos hle, lift,
    EStateM.run_pure, run_readExact_append hpayload]
  cases fromBytes payload <;> rfl

/-- … and of one that is not. -/
theorem run_readFrame_of_lt {len : List UInt8} (hlen : len.length = 4)
    (hlt : maxFrame < ofLeBytes len) (rest : List UInt8) (ending : Option String) :
    (readFrame fromBytes).run ⟨len ++ rest, ending⟩ =
      .error s!"peer announced a {ofLeBytes len}-byte frame, over the {maxFrame}-byte cap"
        ⟨rest, ending⟩ := by
  simp only [readFrame, EStateM.run_bind, run_readExact_append hlen, ensure,
    if_neg (not_le.mpr hlt), lift]
  rfl

/-- What `encode` makes of a frame is read as that frame. -/
theorem reads_encode (h : encode frame = .ok bytes)
    (hinverts : fromBytes frame.toStdvec = .ok frame) :
    Reads (readFrame fromBytes) bytes (some frame) := by
  obtain ⟨hle, rfl⟩ := encode_eq_ok.mp h
  have hannounced : ofLeBytes (leBytes 4 frame.toStdvec.length) = frame.toStdvec.length :=
    ofLeBytes_leBytes (lt_of_le_of_lt hle (by decide))
  intro rest ending
  rw [List.append_assoc, run_readFrame_of_le (length_leBytes _ _) hannounced.symm
    (hannounced.symm ▸ hle), hinverts]
  rfl

theorem run_readFrame_nil : (readFrame fromBytes).run ⟨[], none⟩ = .ok none ⟨[], none⟩ := rfl

/-- `read_frame` takes a payload off the stream exactly if its length is within the cap. -/
theorem readFrame_takes_iff {len payload : List UInt8} (hlen : len.length = 4)
    (hpayload : payload.length = ofLeBytes len) (rest : List UInt8) (ending : Option String) :
    (after (readFrame fromBytes) ⟨len ++ (payload ++ rest), ending⟩).bytes = rest ↔
      ofLeBytes len ≤ maxFrame := by
  unfold after
  by_cases hle : ofLeBytes len ≤ maxFrame
  · rw [run_readFrame_of_le hlen hpayload hle]
    cases fromBytes payload <;> exact iff_of_true rfl hle
  · rw [run_readFrame_of_lt hlen (not_le.mp hle)]
    refine iff_of_false (fun heq => hle ?_) hle
    have hnil : payload = [] := List.append_left_eq_self.mp heq
    rw [← hpayload, hnil]
    exact Nat.zero_le _

/-- Frames written one behind the other are read in their order, and then there are no more.  A
frame can be written if its payload is within the cap, and these are the payloads that are read,
whatever else is announced. -/
theorem stream_carries_back_to_back_frames {frames : List Frame} {encoded : List (List UInt8)}
    (hencoded : List.Forall₂ (fun frame bytes => encode frame = .ok bytes) frames encoded)
    (hinverts : ∀ frame ∈ frames, fromBytes frame.toStdvec = .ok frame) :
    (∀ k, (calls (readFrame fromBytes) (frames.length + k)).run ⟨encoded.flatten, none⟩ =
      .ok (frames.map some ++ List.replicate k none) ⟨[], none⟩) ∧
    (∀ frame, (∃ bytes, encode frame = .ok bytes) ↔ frame.toStdvec.length ≤ maxFrame) ∧
    ∀ (len : Bytes 4) (payload rest : List UInt8) (ending : Option String),
      payload.length = ofLeBytes len.toList →
      ((after (readFrame fromBytes) ⟨len.toList ++ (payload ++ rest), ending⟩).bytes = rest ↔
        ofLeBytes len.toList ≤ maxFrame) := by
  refine ⟨fun k => ?_, fun frame => ?_, fun len payload rest ending hpayload =>
    readFrame_takes_iff len.length_eq hpayload rest ending⟩
  · have hreads : List.Forall₂ (Reads (readFrame fromBytes)) encoded (frames.map some) := by
      induction hencoded with
      | nil => exact .nil
      | cons hframe _ ih =>
        rw [List.forall_mem_cons] at hinverts
        exact .cons (reads_encode hframe hinverts.1) (ih hinverts.2)
    have hcalls := reads_calls hreads [] none
    rw [List.append_nil, List.length_map] at hcalls
    exact run_calls_add hcalls (run_calls_of_run_eq run_readFrame_nil k)
  · simp only [encode_eq_ok, exists_and_left, exists_eq', and_true]

/-- Of a frame that is cut short `read_frame` makes a clean end while its announcement is not
complete, and an error from there on. -/
theorem run_readFrame_take (h : encode frame = .ok bytes) {n : Nat} (hn : n < bytes.length) :
    (readFrame fromBytes).run ⟨bytes.take n, none⟩ =
      if n < 4 then .ok none ⟨[], none⟩ else .error "early eof" ⟨[], none⟩ := by
  obtain ⟨hle, rfl⟩ := encode_eq_ok.mp h
  have hannounced : ofLeBytes (leBytes 4 frame.toStdvec.length) = frame.toStdvec.length :=
    ofLeBytes_leBytes (lt_of_le_of_lt hle (by decide))
  rw [List.length_append, length_leBytes] at hn
  split
  · have hfew : ((leBytes 4 frame.toStdvec.length ++ frame.toStdvec).take n).length < 4 := by
      rw [List.length_take]
      omega
    simp only [readFrame, EStateM.run_bind, run_readExact_of_lt hfew]
    rfl
  · have hstarts : (leBytes 4 frame.toStdvec.length ++ frame.toStdvec).take n =
        leBytes 4 frame.toStdvec.length ++ frame.toStdvec.take (n - 4) := by
      rw [List.take_append, length_leBytes,
        List.take_of_length_le (by rw [length_leBytes]; omega)]
    have hfew : (frame.toStdvec.take (n - 4)).length < frame.toStdvec.length := by
      rw [List.length_take]
      omega
    simp only [hstarts, readFrame, EStateM.run_bind, run_readExact_append (length_leBytes _ _),
      hannounced, ensure, if_pos hle, lift, EStateM.run_pure, run_readExact_of_lt hfew]
    rfl

namespace Sample

/-- A room op in a room op, an empty string and two characters that are not ASCII. -/
def letters : List Frame :=
  [.hello "ådå", .inRoom kitchenRoom.id (.inRoom genesis (.chat ⟨key 3, 1, 5⟩ "" none)),
    .delete ⟨key 2, 2, 300⟩ ⟨key 2, 1, 10⟩]

def enveloped (frame : Frame) : List UInt8 :=
  leBytes 4 frame.toStdvec.length ++ frame.toStdvec

/-- A reader that knows the encodings of these frames and no others. -/
def frameAmong (frames : List Frame) (payload : List UInt8) : Except String Frame :=
  match frames.find? fun frame => frame.toStdvec = payload with
  | some frame => .ok frame
  | none => .error "Hit the end of buffer, expected more data"

theorem encode_letters :
    List.Forall₂ (fun frame bytes => encode frame = .ok bytes) letters (letters.map enveloped) := by
  refine List.forall₂_map_right_iff.mpr (List.forall₂_same.mpr ?_)
  decide +kernel

theorem frameAmong_letters : ∀ frame ∈ letters, frameAmong letters frame.toStdvec = .ok frame := by
  decide +kernel

end Sample

open Sample in
theorem stream_carries_letters :
    (calls (readFrame (frameAmong letters)) 4).run ⟨(letters.map enveloped).flatten, none⟩ =
      .ok (letters.map some ++ [none]) ⟨[], none⟩ :=
  (stream_carries_back_to_back_frames encode_letters frameAmong_letters).1 1

section Truncation

variable {frames : List Frame} {encoded : List (List UInt8)} {cut fuel : Nat}

/-- From what is left of a stream after a cut come the frames that lie wholly before it, then a
clean end if it lies between two frames and an error if not. -/
def ToldApart (fromBytes : List UInt8 → Except String Frame) (frames : List Frame)
    (encoded : List (List UInt8)) (cut fuel : Nat) : Prop :=
  ∃ stop : Except String Unit,
    readToEnd (readFrame fromBytes) fuel ⟨encoded.flatten.take cut, none⟩ =
      some (frames.take (whole encoded cut), stop) ∧
    (stop = .ok () ↔ ∃ n ≤ encoded.length, boundary encoded n = cut)

theorem readToEnd_take (h : encode frame = .ok bytes) {n : Nat} (hn : n < bytes.length) :
    readToEnd (readFrame fromBytes) (fuel + 1) ⟨bytes.take n, none⟩ =
      some ([], if n < 4 then .ok () else .error "early eof") := by
  rw [readToEnd, run_readFrame_take h hn]
  by_cases hshort : n < 4
  · simp [hshort]
  · simp [hshort]

theorem encode_of_getElem?
    (hencoded : List.Forall₂ (fun frame bytes => encode frame = .ok bytes) frames encoded) {n : Nat}
    (h : encoded[n]? = some bytes) : ∃ frame, encode frame = .ok bytes := by
  rw [List.forall₂_iff_get] at hencoded
  obtain ⟨hn, rfl⟩ := List.getElem?_eq_some_iff.mp h
  exact ⟨_, hencoded.2 n (hencoded.1 ▸ hn) hn⟩

/-- How reading stops after a cut, by how far it lies behind the last frame that is whole. -/
theorem readToEnd_cut
    (hencoded : List.Forall₂ (fun frame bytes => encode frame = .ok bytes) frames encoded)
    (hinverts : ∀ frame ∈ frames, fromBytes frame.toStdvec = .ok frame)
    (hcut : cut ≤ encoded.flatten.length) (hfuel : frames.length < fuel) :
    readToEnd (readFrame fromBytes) fuel ⟨encoded.flatten.take cut, none⟩ =
      some (frames.take (whole encoded cut),
        if cut - boundary encoded (whole encoded cut) < 4 then .ok ()
        else .error "early eof") := by
  have hwhole := whole_le encoded cut
  have hlength := hencoded.length_eq
  have hreads : List.Forall₂ (fun frame bytes => Reads (readFrame fromBytes) bytes (some frame))
      frames encoded := by
    rw [List.forall₂_iff_get] at hencoded ⊢
    refine ⟨hlength, fun i h h' => reads_encode (hencoded.2 i h h') (hinverts _ ?_)⟩
    exact List.get_mem _ _
  have htaken := List.forall₂_take (whole encoded cut) hreads
  obtain ⟨more, rfl⟩ : ∃ more, fuel = (frames.take (whole encoded cut)).length + (more + 1) :=
    ⟨fuel - (frames.take (whole encoded cut)).length - 1, by rw [List.length_take]; omega⟩
  rw [take_flatten, readToEnd_append htaken]
  cases hnext : encoded[whole encoded cut]? with
  | none =>
    have hall : encoded.length ≤ whole encoded cut := List.getElem?_eq_none_iff.mp hnext
    have hend : cut - boundary encoded (whole encoded cut) = 0 := by
      rw [boundary, List.take_of_length_le hall]
      omega
    have hread : readToEnd (readFrame fromBytes) (more + 1) ⟨[], none⟩ = some ([], .ok ()) := rfl
    simp [hend, hread]
  | some bytes =>
    obtain ⟨hlt, -⟩ := List.getElem?_eq_some_iff.mp hnext
    have hbefore : boundary encoded (whole encoded cut) ≤ cut := (le_whole_iff hwhole).mp le_rfl
    have hnot : ¬boundary encoded (whole encoded cut + 1) ≤ cut :=
      (le_whole_iff hlt).not.mp (Nat.not_succ_le_self _)
    rw [boundary_succ hnext] at hnot
    obtain ⟨frame, hframe⟩ := encode_of_getElem? hencoded hnext
    rw [Option.getD_some, readToEnd_take hframe (by omega)]
    simp

/-- A frame takes four bytes at least, so only one begins that near to the cut. -/
theorem eq_whole_of_near
    (hencoded : List.Forall₂ (fun frame bytes => encode frame = .ok bytes) frames encoded) {n : Nat}
    (hn : n < encoded.length) (hle : boundary encoded n ≤ cut)
    (hlt : cut < boundary encoded n + 4) : n = whole encoded cut := by
  have hnext := List.getElem?_eq_getElem hn
  obtain ⟨frame, hframe⟩ := encode_of_getElem? hencoded hnext
  obtain ⟨-, hbytes⟩ := encode_eq_ok.mp hframe
  have hfour := congrArg List.length hbytes
  rw [List.length_append, length_leBytes] at hfour
  have hnot : ¬n + 1 ≤ whole encoded cut := by
    rw [le_whole_iff hn, boundary_succ hnext]
    omega
  have hle' := (le_whole_iff hn.le).mpr hle
  omega

theorem between_frames_iff
    (hencoded : List.Forall₂ (fun frame bytes => encode frame = .ok bytes) frames encoded) :
    (∃ n ≤ encoded.length, boundary encoded n = cut) ↔
      boundary encoded (whole encoded cut) = cut := by
  refine ⟨?_, fun h => ⟨_, whole_le _ _, h⟩⟩
  rintro ⟨n, hn, hcut⟩
  obtain hlast | hlt := hn.eq_or_lt
  · have hle : n ≤ whole encoded cut := (le_whole_iff hn).mpr hcut.le
    rwa [Nat.le_antisymm (whole_le _ _) (hlast ▸ hle), ← hlast]
  · rwa [← eq_whole_of_near hencoded hlt hcut.le (by omega)]

/-- A stream that is cut inside of an announcement looks as if it had been finished.  Every other
cut is seen for what it is. -/
theorem truncation_is_seen_iff
    (hencoded : List.Forall₂ (fun frame bytes => encode frame = .ok bytes) frames encoded)
    (hinverts : ∀ frame ∈ frames, fromBytes frame.toStdvec = .ok frame)
    (hcut : cut ≤ encoded.flatten.length) (hfuel : frames.length < fuel) :
    ToldApart fromBytes frames encoded cut fuel ↔
      ∀ n < encoded.length, ¬(boundary encoded n < cut ∧ cut < boundary encoded n + 4) := by
  have hwhole := whole_le encoded cut
  have hbefore : boundary encoded (whole encoded cut) ≤ cut := (le_whole_iff hwhole).mp le_rfl
  have hrun := readToEnd_cut hencoded hinverts hcut hfuel
  rw [ToldApart, hrun, between_frames_iff hencoded]
  constructor
  · rintro ⟨stop, heq, hstop⟩ n hn ⟨hlt, hlt'⟩
    obtain rfl := eq_whole_of_near hencoded hn hlt.le hlt'
    rw [if_pos (by omega)] at heq
    exact absurd (hstop.mp (congrArg Prod.snd (Option.some.inj heq)).symm) hlt.ne
  · intro hno
    refine ⟨_, rfl, ?_⟩
    obtain hlast | hlt := hwhole.eq_or_lt
    · have hend : boundary encoded (whole encoded cut) = cut := by
        rw [hlast, boundary, List.take_length] at hbefore ⊢
        exact Nat.le_antisymm hbefore hcut
      simp [hend]
    · have hfar := hno _ hlt
      split
      · exact iff_of_true rfl (by omega)
      · exact iff_of_false (by simp) (by omega)

open Sample in
/-- Two bytes of a first frame, and then nothing. -/
theorem torn_announcement_looks_finished :
    readToEnd (readFrame (frameAmong letters)) 4 ⟨(letters.map enveloped).flatten.take 2, none⟩ =
      some ([], .ok ()) ∧
    ¬ToldApart (frameAmong letters) letters (letters.map enveloped) 2 4 := by
  have hrun : readToEnd (readFrame (frameAmong letters)) 4
      ⟨(letters.map enveloped).flatten.take 2, none⟩ = some ([], .ok ()) := by
    decide +kernel
  refine ⟨hrun, ?_⟩
  rintro ⟨stop, hstopped, hstop⟩
  rw [hrun] at hstopped
  obtain ⟨n, hn, hcut⟩ := hstop.mp (congrArg Prod.snd (Option.some.inj hstopped)).symm
  revert hcut
  revert n
  decide +kernel

open Sample in
theorem truncation_is_seen_letters :
    ToldApart (frameAmong letters) letters (letters.map enveloped) 6 4 :=
  (truncation_is_seen_iff encode_letters frameAmong_letters (by decide +kernel) (by decide)).mpr
    (by decide +kernel)

end Truncation

end Wicara.Core
