import Wicara.Client.Outgoing

namespace Wicara.Client

open Wicara.Core Lib Lib.Fallible Lib.Streams

variable {C : Crypto} {env : Env C} {alphanumeric : Char → Bool} {late : Io}

/-- What `receive` may do to the disk: where its file goes there is what was there before, or no
file, or of what comes as much as is within the limit. -/
structure Bounded (path : String) (limit : Nat) (bytes : List UInt8) (d d' : Disk String UInt8) :
    Prop where
  others : ∀ name ≠ path, d'.read name = d.read name
  own : d'.read path = d.read path ∨ ∀ got ∈ d'.read path, got <+: bytes ∧ got.length ≤ limit

section

variable {path : String} {limit : Nat} {bytes got : List UInt8} {d d' : Disk String UInt8}

theorem Bounded.of_read (hothers : ∀ name ≠ path, d'.read name = d.read name)
    (hread : d'.read path = some got) (hstarts : got <+: bytes) (hle : got.length ≤ limit) :
    Bounded path limit bytes d d' := by
  refine ⟨hothers, .inr fun got' hgot' => ?_⟩
  obtain rfl := Option.some.inj (hread.symm.trans hgot')
  exact ⟨hstarts, hle⟩

theorem Bounded.create (h : Bounded path limit bytes d d') :
    Bounded path limit bytes d (d'.create path) := by
  refine .of_read (fun name hne => ?_) (Disk.holds_create path d').read List.nil_prefix
    (Nat.zero_le _)
  exact (Disk.read_create_of_ne _ hne).trans (h.others name hne)

theorem Bounded.unlink (h : Bounded path limit bytes d d') :
    Bounded path limit bytes d (d'.unlink path) := by
  refine ⟨fun name hne => ?_, .inr fun got hgot => ?_⟩
  · exact (Disk.read_unlink_of_ne _ hne).trans (h.others name hne)
  · cases (Disk.read_unlink _ _).symm.trans hgot

/-- More of the bytes is written behind what has been. -/
theorem Bounded.write (h : Bounded path limit bytes d d') {file : Nat} {more : List UInt8}
    (hholds : d'.Holds path file got) (hstarts : got ++ more <+: bytes)
    (hle : (got ++ more).length ≤ limit) :
    Bounded path limit bytes d (d'.write 0 file got.length more) := by
  refine .of_read (fun name hne => ?_) (hholds.write 0 more).read hstarts hle
  exact (hholds.read_write_of_ne hne _ _ _).trans (h.others name hne)

end

/-- A write that fails may have got part of the way. -/
theorem TransferIo.written_starts (io : TransferIo) (got more : List UInt8)
    (outcome : Option String) : got ++ io.written more outcome <+: got ++ more := by
  rw [List.prefix_append_right_inj, written]
  split
  · exact List.prefix_rfl
  · exact List.take_prefix _ _

namespace DiskTask

/-- Where a call of `receive` can stand that was opened with this header, and to which these bytes
come. -/
def Stands (header : Header) (bytes : List UInt8) : DiskTask → Prop
  | .receive io _ .start => io.header = .ok (some header.frame) ∧ arrived io.chunks = bytes
  | .receive io _ (.refold h) | .receive io _ (.create h) =>
    h = header ∧ header.size ≤ maxFile ∧ arrived io.chunks = bytes
  | .receive _ _ (.read h _ got chunks) => h = header ∧ header.size ≤ maxFile ∧
    got ++ arrived chunks = bytes ∧ got.length ≤ header.size.toNat
  | .receive _ _ (.write h _ got more _ chunks) => h = header ∧ header.size ≤ maxFile ∧ more ≠ [] ∧
    got ++ more ++ arrived chunks = bytes ∧ (got ++ more).length ≤ header.size.toNat
  | .receive _ _ (.discard h _) | .receive _ _ (.flush h _ _) | .receive _ _ (.place h _)
  | .receive _ _ (.announce h _) => h = header
  | _ => True

theorem Stands.refreshed {header : Header} {bytes : List UInt8} {t : DiskTask}
    (h : t.Stands header bytes) (late : Io) : (t.refreshed late).Stands header bytes := by
  unfold DiskTask.refreshed
  split
  · exact h
  · exact h

theorem Stands.readChunk {header : Header} {bytes got : List UInt8} {chunks : List Chunk}
    {io : TransferIo} {peer : Key} {file : Nat} {pc : TransferPc}
    (h : Stands header bytes (.receive io peer (.read header file got chunks)))
    (hpc : readChunk header file got chunks = .ok pc) :
    Stands header bytes (.receive io peer pc) := by
  obtain ⟨-, hsmall, hbytes, hgot⟩ := h
  cases chunks with
  | nil =>
    cases hpc
    rfl
  | cons chunk chunks =>
    cases chunk with
    | failed e => cases hpc
    | data more outcome =>
      rw [Client.readChunk] at hpc
      split at hpc
      · cases hpc
        rfl
      · rename_i hne
        split at hpc
        · rename_i hfits
          cases hpc
          exact ⟨rfl, hsmall, hne, by rw [← hbytes, arrived_data hne], hfits⟩
        · cases hpc
          rfl

variable (env alphanumeric) in
/-- So far no more has been written than may be. -/
structure Measured (header : Header) (bytes : List UInt8) (d : Disk String UInt8) (t : DiskTask)
    (d' : Disk String UInt8) : Prop where
  stands : t.Stands header bytes
  undisturbed : t.Undisturbed env alphanumeric d'
  bounded : Bounded (landing env alphanumeric header) (min header.size.toNat maxFile.toNat) bytes
    d d'

theorem Measured.refreshed {header : Header} {bytes : List UInt8} {d d' : Disk String UInt8}
    {t : DiskTask} (h : t.Measured env alphanumeric header bytes d d') (late : Io) :
    (t.refreshed late).Measured env alphanumeric header bytes d d' := by
  refine ⟨h.stands.refreshed late, ?_, h.bounded⟩
  unfold DiskTask.refreshed
  split
  · trivial
  · exact h.undisturbed

/-- What happens beside the disk changes nothing about it. -/
theorem measured_beside {header : Header} {bytes : List UInt8} {d : Disk String UInt8}
    {io : TransferIo} {peer : Key} {pc : TransferPc} {v : Volume} {m : VolumeAct PUnit}
    (hframes : Frames Volume.disk m)
    (h : Measured env alphanumeric header bytes d (.receive io peer pc) v.disk) :
    wp (m >>= fun _ => pure (DiskTask.receive io peer pc))
      (fun t' v' => (∃ pc', t' = .receive io peer pc') ∧
        t'.Measured env alphanumeric header bytes d v'.disk)
      (fun _ v' => Bounded (landing env alphanumeric header)
        (min header.size.toNat maxFile.toNat) bytes d v'.disk) v := by
  rw [wp_bind]
  refine wp_mono (fun _ v' hsame => ?_) (fun _ v' hsame => ?_) (hframes.wp v)
  · rw [wp_pure, hsame]
    exact ⟨⟨_, rfl⟩, h⟩
  · rw [hsame]
    exact h.bounded

theorem measured_next {header : Header} {bytes : List UInt8} {d : Disk String UInt8}
    {io : TransferIo} {peer : Key} {pc : TransferPc} {v : Volume}
    (h : Measured env alphanumeric header bytes d (.receive io peer pc) v.disk) :
    wp (next env alphanumeric (.receive io peer pc))
      (fun t' v' => (∃ pc', t' = .receive io peer pc') ∧
        t'.Measured env alphanumeric header bytes d v'.disk)
      (fun _ v' => Bounded (landing env alphanumeric header)
        (min header.size.toNat maxFile.toNat) bytes d v'.disk) v := by
  obtain ⟨hstands, hundisturbed, hbounded⟩ := h
  cases pc with
  | start =>
    obtain ⟨hheader, hbytes⟩ := hstands
    simp only [next, wp_bind, wp_inWorld, wp_pure]
    refine wp_mono (fun header' w h => ?_) (fun _ _ _ => hbounded)
      (wp_readHeader io.toReceiveIo peer v.world)
    obtain ⟨rfl, -, hsmall⟩ := announced_of_admissible hheader h.2.1
    exact ⟨⟨_, rfl⟩, ⟨rfl, hsmall, hbytes⟩, trivial, hbounded⟩
  | refold header' =>
    simp only [next, wp_bind, wp_inWorld, wp_pure]
    exact wp_refold peer (fun _ _ => ⟨⟨_, rfl⟩, hstands, trivial, hbounded⟩) fun _ _ => hbounded
  | create header' =>
    obtain ⟨rfl, hsmall, hbytes⟩ := hstands
    simp only [next, createFile, onDisk, wp_bind, wp_attempt, wp_get, wp_modify, wp_inWorld,
      wp_pure]
    have hholds := Disk.holds_create (landing env alphanumeric header') v.disk
    exact ⟨fun _ => ⟨⟨_, rfl⟩, ⟨rfl, hsmall, hbytes, Nat.zero_le _⟩, hholds, hbounded.create⟩,
      fun _ _ => hbounded⟩
  | read header' file got chunks =>
    obtain ⟨rfl, -⟩ := id hstands
    simp only [next, wp_bind, wp_lift, wp_pure]
    refine ⟨fun pc' hpc => ⟨⟨pc', rfl⟩, hstands.readChunk hpc, ?_, hbounded⟩, fun _ _ => hbounded⟩
    cases readChunk_turn hpc with
    | flush => exact hundisturbed
    | write => exact hundisturbed
    | discard => trivial
  | write header' file got more outcome chunks =>
    obtain ⟨rfl, hsmall, -, hbytes, hfits⟩ := hstands
    have hholds : v.disk.Holds (landing env alphanumeric header') file got := hundisturbed
    have hstarts := io.written_starts got more outcome
    have hbounded' := hbounded.write hholds (hstarts.trans (hbytes ▸ List.prefix_append _ _))
      (hstarts.length_le.trans (le_min hfits (hfits.trans hsmall)))
    simp only [next, onDisk, inApp, emit, wp_bind, wp_modify, wp_attempt, wp_inWorld, wp_zoom,
      wp_pure]
    refine ⟨?_, fun _ _ => hbounded'⟩
    rintro rfl
    exact ⟨⟨_, rfl⟩, ⟨rfl, hsmall, hbytes, hfits⟩, hholds.write 0 more, hbounded'⟩
  | discard header' e =>
    obtain rfl := hstands
    simp only [next, removeFile, wp_bind, wp_throw]
    cases io.unlink with
    | some _ => exact hbounded
    | none => exact hbounded.unlink
  | flush header' file got =>
    obtain rfl := hstands
    simp only [next, wp_bind, wp_attempt, wp_ite, wp_pure]
    refine ⟨fun _ => ⟨fun hgot => ?_, fun _ => ?_⟩, fun _ _ => hbounded⟩
    · exact ⟨⟨_, rfl⟩, rfl, ⟨got, hundisturbed.read, hgot⟩, hbounded⟩
    · exact ⟨⟨_, rfl⟩, rfl, trivial, hbounded⟩
  | place header' got =>
    simp only [next]
    exact measured_beside (frames_zoom fun _ => rfl) ⟨hstands, trivial, hbounded⟩
  | announce header' got =>
    simp only [next]
    exact measured_beside (frames_zoom fun _ => rfl) ⟨trivial, trivial, hbounded⟩
  | done => exact ⟨⟨_, rfl⟩, trivial, trivial, hbounded⟩

end DiskTask

variable (late) in
theorem sections_bounded {header : Header} {bytes : List UInt8} {d : Disk String UInt8} {peer : Key}
    (n : Nat) {io : TransferIo} {pc : TransferPc} {v : Volume}
    (h : DiskTask.Measured env alphanumeric header bytes d (.receive io peer pc) v.disk) :
    let P := fun v' : Volume => Bounded (landing env alphanumeric header)
      (min header.size.toNat maxFile.toNat) bytes d v'.disk
    wp (DiskTask.sections env alphanumeric late n (.receive io peer pc)) (fun _ => P) (fun _ => P)
      v := by
  induction n generalizing io pc v with
  | zero => exact h.bounded
  | succ n ih =>
    simp only [DiskTask.sections, wp_bind]
    refine wp_mono (fun t' v' hnext => ?_) (fun _ _ h => h) (DiskTask.measured_next h)
    obtain ⟨⟨pc', rfl⟩, hmeasured⟩ := hnext
    obtain ⟨io', hrefreshed⟩ := DiskTask.refreshed_receive late io peer pc'
    have hmeasured' := hmeasured.refreshed late
    rw [hrefreshed] at hmeasured' ⊢
    exact ih hmeasured'

variable (env alphanumeric late) in
/-- At no moment is there more on the disk than the header announces and the limit allows. -/
theorem receive_bounded {io : TransferIo} {header : Header}
    (hheader : io.header = .ok (some header.frame)) (peer : Key) (v : Volume) (n : Nat) :
    Bounded (landing env alphanumeric header) (min header.size.toNat maxFile.toNat)
      (arrived io.chunks) v.disk
      (after (DiskTask.sections env alphanumeric late n (.receive io peer .start)) v).disk := by
  have hstart : DiskTask.Measured env alphanumeric header (arrived io.chunks) v.disk
      (.receive io peer .start) v.disk :=
    ⟨⟨hheader, rfl⟩, trivial, fun _ _ => rfl, .inl rfl⟩
  have hrun := sections_bounded late n hstart
  exact wp_after.mp hrun

variable (env alphanumeric) in
/-- With nothing in the way, a file is taken exactly if it is what was announced, is not too big
and comes from the key that its header was minted under; then it is there. -/
theorem receive_accepts_iff {io : TransferIo} {header : Header} {chunks : List (List UInt8)}
    (h : io.Carries late header chunks) (peer : Key) (v : Volume) :
    wp (receiveFile env alphanumeric late io peer)
      (fun _ v' => (header.id.sender = peer ∧ header.size ≤ maxFile ∧
        header.Matches C (received chunks)) ∧
        v'.disk.read (landing env alphanumeric header) = some (received chunks))
      (fun _ _ => ¬(header.id.sender = peer ∧ header.size ≤ maxFile ∧
        header.Matches C (received chunks))) v := by
  have harrived : [] ++ arrived io.chunks = received chunks := by
    rw [h.chunks, arrived_map, List.nil_append]
  have hbegins {header' : Header} : io.Begins peer header' ↔
      header' = header ∧ header.id.sender = peer ∧ header.size ≤ maxFile := by
    constructor
    · rintro ⟨hadmissible, -⟩
      exact announced_of_admissible h.header hadmissible
    · rintro ⟨rfl, hsender, hsmall⟩
      have hrecord : io.io.record 0 = none ∧ io.io.record 1 = none := by
        rw [h.record]
        exact ⟨rfl, rfl⟩
      exact ⟨admissible_eq_ok.mpr ⟨h.header, hsender, hsmall⟩, hrecord, h.history.1, h.create⟩
  have hsucceeds : io.Succeeds C late header [] io.chunks ↔ header.Matches C (received chunks) := by
    refine ⟨fun hs => harrived ▸ hs.announced, fun hmatches => ?_⟩
    refine ⟨?_, h.flush, harrived.symm ▸ hmatches, congrFun h.setting 0, h.history.2⟩
    rw [List.length_nil, h.chunks, complete_map _ (Nat.zero_le _), Nat.zero_add]
    exact hmatches.1.le
  refine wp_mono ?_ ?_ (DiskTask.ends_receive env alphanumeric late io peer v _ le_rfl)
  · rintro _ v' ⟨header', hbegun, htaken⟩
    obtain ⟨rfl, hsender, hsmall⟩ := hbegins.mp hbegun
    exact ⟨⟨hsender, hsmall, hsucceeds.mp htaken.succeeds⟩, harrived ▸ htaken.read⟩
  · rintro _ v' (⟨hnever, -⟩ | ⟨header', hbegun, v'', -, hdropped⟩) ⟨hsender, hsmall, hmatches⟩
    · exact hnever header (hbegins.mpr ⟨rfl, hsender, hsmall⟩)
    · obtain ⟨rfl, -⟩ := hbegins.mp hbegun
      exact hdropped.fails (hsucceeds.mpr hmatches)

/-- Whatever comes, no more of it gets to the disk than was announced or is allowed.  With nothing
in the way it is taken exactly if it is what was announced, is not too big and comes from the key
that its header was minted under, and then it is there.  What `send` streams of a file that stays
as it is, is its header and the file; whoever reads the header off it and then the rest, however
that is cut up, takes the file. -/
theorem transfer_accepts_what_is_announced (env : Env C) (alphanumeric : Char → Bool) :
    (∀ (io : TransferIo) (late : Io) (peer : Key) (header : Header) (v : Volume) (n : Nat),
      io.header = .ok (some header.frame) →
      Bounded (landing env alphanumeric header) (min header.size.toNat maxFile.toNat)
        (arrived io.chunks) v.disk
        (after (DiskTask.sections env alphanumeric late n (.receive io peer .start)) v).disk) ∧
    (∀ (io : TransferIo) (late : Io) (peer : Key) (header : Header) (chunks : List (List UInt8))
      (v : Volume), io.Carries late header chunks →
      (succeeds (receiveFile env alphanumeric late io peer) v = true ↔
        header.id.sender = peer ∧ header.size ≤ maxFile ∧
          (received chunks).length = header.size.toNat ∧
            C.blake3 (received chunks) = header.hash) ∧
      (succeeds (receiveFile env alphanumeric late io peer) v = true →
        (after (receiveFile env alphanumeric late io peer) v).disk.read
          (landing env alphanumeric header) = some (received chunks))) ∧
    ∀ (sending : SendIo) (peer : Key) (path name : String) (content : List (List UInt8))
      (announcement : List UInt8) (w : World),
      let header := sending.announces C name (received content) w.app.store
      sending.Carries C path name content → encode header.frame = .ok announcement →
      ∃ w', (send sending peer path).run w = .ok .unit w' ∧
        w'.streams = w.streams ++ [announcement ++ received content] ∧
        ∀ fromBytes : List UInt8 → Except String Frame,
          fromBytes header.frame.toStdvec = .ok header.frame →
          (readFrame fromBytes).run ⟨announcement ++ received content, none⟩ =
            .ok (some header.frame) ⟨received content, none⟩ ∧
          ∀ (io : TransferIo) (late : Io) (chunks : List (List UInt8)) (v : Volume),
            io.Carries late header chunks → received chunks = received content →
            succeeds (receiveFile env alphanumeric late io w.app.store.counter.sender) v =
              true := by
  refine ⟨fun io late peer header v n hheader =>
      receive_bounded env alphanumeric late hheader peer v n,
    fun io late peer header chunks v h => ?_, ?_⟩
  · have hends := receive_accepts_iff env alphanumeric h peer v
    unfold Fallible.succeeds after
    rcases wp_cases hends with ⟨_, v', hrun, htaken, hread⟩ | ⟨err, v', hrun, hrefused⟩
    · rw [hrun]
      exact ⟨iff_of_true rfl htaken, fun _ => hread⟩
    · rw [hrun]
      exact ⟨iff_of_false Bool.false_ne_true hrefused, nofun⟩
  · intro sending peer path name content announcement w header hcarries hheader
    obtain ⟨w', hrun, hstreams⟩ := run_send hcarries peer hheader
    refine ⟨w', hrun, hstreams, fun fromBytes hinverts => ⟨?_, ?_⟩⟩
    · exact reads_encode hheader hinverts (received content) none
    · intro io late chunks v h hreceived
      obtain ⟨hsender, hle, hmatches⟩ : header.id.sender = w.app.store.counter.sender ∧
          header.size ≤ maxFile ∧ header.Matches C (received chunks) :=
        hreceived ▸ announces_spec hcarries.small w.app.store
      have hends := receive_accepts_iff env alphanumeric h w.app.store.counter.sender v
      rw [succeeds_iff]
      exact wp_mono (fun _ _ _ => trivial) (fun _ _ hno => hno ⟨hsender, hle, hmatches⟩) hends

namespace Sample

open Core.Sample

/-- A tune of three bytes, read in two chunks. -/
def streamed : SendIo where
  io := .ok
  setting := .ok
  metadata := some ⟨true, 3⟩
  hash := .ok (crypto.blake3 [1, 2, 3])
  now := 5
  stream := none
  announced := none
  opened := none
  reads := [.data [1, 2] none, .data [3] none]
  spilt := 0
  stopped := none

theorem carries_streamed : streamed.Carries crypto "music/tune.ogg" "tune.ogg" [[1, 2], [3]] where
  metadata := rfl
  small := by decide
  name := by decide +kernel
  hash := rfl
  record := rfl
  setting := rfl
  history := rfl
  stream := rfl
  announced := rfl
  opened := rfl
  reads := rfl
  stopped := rfl

def streamedHeader : Header :=
  streamed.announces crypto "tune.ogg" [1, 2, 3] firstVolume.world.app.store

end Sample

open Core.Sample Sample in
/-- What comes of the three bytes in two chunks is taken; and so is what was sent of them, in
chunks that are cut elsewhere. -/
theorem transfer_accepts_a_tune :
    let receiving := receiveFile (client 1 false) Char.isAlphanum .ok
      (streaming [.data [1] none, .data [2, 3] none]) (key 2)
    let path := landing (client 1 false) Char.isAlphanum tune
    (∀ n, Bounded path 3 [1, 2, 3] firstVolume.disk (after (DiskTask.sections (client 1 false)
      Char.isAlphanum .ok n (.receive (streaming [.data [1] none, .data [2, 3] none]) (key 2)
        .start)) firstVolume).disk) ∧
    (Fallible.succeeds receiving firstVolume = true ∧
      (after receiving firstVolume).disk.read path = some [1, 2, 3]) ∧
    (∃ w', (send streamed (key 3) "music/tune.ogg").run firstVolume.world = .ok .unit w' ∧
      w'.streams = [enveloped streamedHeader.frame ++ [1, 2, 3]]) ∧
    (readFrame (frameAmong [streamedHeader.frame])).run
        ⟨enveloped streamedHeader.frame ++ [1, 2, 3], none⟩ =
      .ok (some streamedHeader.frame) ⟨[1, 2, 3], none⟩ ∧
    Fallible.succeeds (receiveFile (client 3 false) Char.isAlphanum .ok
      { streaming [.data [1] none, .data [2, 3] none] with
        header := .ok (some streamedHeader.frame) } (key 1)) firstVolume = true := by
  have hcarries : (streaming [.data [1] none, .data [2, 3] none]).Carries .ok tune [[1], [2, 3]] :=
    ⟨rfl, rfl, rfl, ⟨rfl, rfl⟩, rfl, rfl, rfl⟩
  obtain ⟨hbounded, haccepts, -⟩ :=
    transfer_accepts_what_is_announced (client 1 false) Char.isAlphanum
  obtain ⟨w', hrun, hstreams, hheard⟩ :=
    (transfer_accepts_what_is_announced (client 3 false) Char.isAlphanum).2.2 streamed (key 3)
      "music/tune.ogg" "tune.ogg" _ (enveloped streamedHeader.frame) firstVolume.world
      carries_streamed (by decide +kernel)
  obtain ⟨hread, htaken⟩ := hheard (frameAmong [streamedHeader.frame]) (by decide +kernel)
  refine ⟨fun n => hbounded (streaming [.data [1] none, .data [2, 3] none]) .ok (key 2) tune
    firstVolume n rfl, ?_, ⟨w', hrun, hstreams⟩, hread, ?_⟩
  · obtain ⟨hiff, hread⟩ := haccepts _ .ok (key 2) tune _ firstVolume hcarries
    have htaken := hiff.mpr (by decide +kernel)
    exact ⟨htaken, hread htaken⟩
  · exact htaken _ .ok [[1], [2, 3]] firstVolume ⟨rfl, rfl, rfl, ⟨rfl, rfl⟩, rfl, rfl, rfl⟩ rfl

end Wicara.Client
