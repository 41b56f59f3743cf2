import Wicara.Client.Rooms
import Wicara.Lib.Text

namespace Wicara.Client

open Wicara.Core Lib Lib.Fallible

/-- `MAX_FILE` -/
def maxFile : UInt64 := 256 * 1024 * 1024

/-- `Path::file_name`: the last component, if it is a name. -/
def fileName (path : String) : Option String :=
  let components := (path.toList.splitOnP (· = '/')).filter fun c => c ≠ [] ∧ c ≠ ['.']
  match components.getLast? with
  | some ['.', '.'] => none
  | last => last.map String.ofList

/-- `Path::join`, for a name that is not absolute. -/
def join (dir name : String) : String :=
  if dir = "" ∨ dir.toList.getLast? = some '/' then dir ++ name else dir ++ "/" ++ name

/-- The file of this name in `home/files`. -/
def filesPath (home name : String) : String := join (join home "files") name

/-- A path of a file that lies in `home/files` itself. -/
def InFiles (home path : String) : Prop := ∃ name, '/' ∉ name.toList ∧ path = filesPath home name

/-- A peer chooses the display name, never the path.  `alphanumeric` is Unicode's. -/
def safeName (alphanumeric : Char → Bool) (name : String) : String :=
  let base := (fileName name).getD ""
  let cleaned := base.toList.map fun c => if alphanumeric c ∨ c ∈ " ._-".toList then c else '_'
  let cleaned := trimMatches (fun c => c ∈ ['.', ' ']) cleaned
  if cleaned = [] then "attachment" else String.ofList cleaned

structure Header where
  id : MessageId
  name : String
  size : UInt64
  hash : Bytes 32
  deriving DecidableEq

def Header.frame (h : Header) : Frame := .file h.id h.name h.size h.hash

/-- Which of the two flows has given an attachment its path. -/
inductive Origin
  | sent
  | received
  deriving DecidableEq

/-- The client, and what a run has done with files so far: the files that `receive` has
created, the paths that `/send` was given, the paths that were handed to `unlink_all`, which
flow was the last to write the path under a key of the settings, and what was written to each of
the streams that `send` has opened. -/
structure World where
  app : App
  created : List String
  sent : List String
  unlinked : List String
  origin : Table String Origin
  streams : List (List UInt8)

def World.start (app : App) : World := ⟨app, [], [], [], .empty, []⟩

abbrev FileAct := EStateM String World

def inApp (m : Act α) : FileAct α := zoom World.app (fun app w => { w with app := app }) m

def recordHeader (io : Io) (peer : Key) (header : Header) : FileAct PUnit := do
  let _ ← inApp (inStore (Store.record io.record peer header.frame))

def placeFile (setting : Sqlite) (origin : Origin) (id : MessageId) (path : String) :
    FileAct PUnit := do
  inApp (inStore (Store.setFilePath setting id path))
  modify fun w => { w with origin := w.origin.upsert (fileKey id) origin }

def refold (io : Io) (peer : Key) : FileAct PUnit := inApp (sendLog io peer)

theorem wp_inApp_inStore {m : EStateM String Store α} {ok : α → World → Prop}
    {err : String → World → Prop} {w : World} :
    wp (inApp (inStore m)) ok err w ↔
      wp m (fun a s => ok a { w with app := { w.app with store := s } })
        (fun e s => err e { w with app := { w.app with store := s } }) w.app.store := by
  simp only [inApp, inStore, wp_zoom]

structure Metadata where
  isFile : Bool
  len : UInt64

/-- What a read gives, and how the bytes can be written further on. -/
inductive Chunk
  | failed (err : String)
  | data (bytes : List UInt8) (write : Option String)

/-- What one call of `send` finds on the disk, the clock and the wire. -/
structure SendIo where
  io : Io
  setting : Sqlite
  metadata : Option Metadata
  hash : Except String (Bytes 32)
  now : UInt64
  stream : Option String
  announced : Option String
  opened : Option String
  reads : List Chunk
  /-- How much gets to the stream of what cannot be written to it. -/
  spilt : Nat
  /-- `finish` and `stopped` -/
  stopped : Option String

/-- What gets to the stream of what is written. -/
def SendIo.written (io : SendIo) (bytes : List UInt8) (outcome : Option String) : List UInt8 :=
  if outcome = none then bytes else bytes.take io.spilt

/-- The checks of `send`, and what it hashes. -/
def sendable (io : SendIo) (path : String) : Except String (String × UInt64 × Bytes 32) := do
  let data ← match io.metadata with
    | some data => .ok data
    | none => .error s!"cannot read {path}"
  ensure (data.isFile = true) s!"{path} is not a file"
  ensure (data.len ≤ maxFile) s!"{path} is {data.len} bytes, over the {maxFile}-byte limit"
  let name ← match fileName path with
    | some name => .ok name
    | none => .error "that path has no file name"
  let hash ← io.hash
  pure (name, data.len, hash)

def mintHeader (io : SendIo) (path : String) : FileAct Header := do
  modify fun w => { w with sent := w.sent ++ [path] }
  let (name, size, hash) ← lift (sendable io path)
  let id ← inApp (inStore (Store.nextId io.now))
  pure ⟨id, name, size, hash⟩

/-- `open_bi` -/
def openBi (io : SendIo) : FileAct Nat := do
  attempt io.stream
  let w ← get
  modify fun w => { w with streams := w.streams ++ [[]] }
  pure w.streams.length

def writeAll (io : SendIo) (stream : Nat) (bytes : List UInt8) (outcome : Option String) :
    FileAct PUnit := do
  modify fun w => { w with
    streams := w.streams.modify stream (· ++ io.written bytes outcome) }
  attempt outcome

def writeFrame (io : SendIo) (stream : Nat) (frame : Frame) : FileAct PUnit := do
  let bytes ← lift (encode frame)
  writeAll io stream bytes io.announced

/-- The loop of `send`. -/
def sendChunks (io : SendIo) (header : Header) (stream : Nat) :
    UInt64 → List Chunk → FileAct PUnit
  | _, [] => pure .unit
  | _, .failed err :: _ => throw err
  | sent, .data bytes outcome :: chunks => do
    if bytes = [] then pure .unit
    else do
      writeAll io stream bytes outcome
      let sent := sent + .ofNat bytes.length
      inApp (emit (.transfer header.id sent header.size))
      sendChunks io header stream sent chunks

def transfer (io : SendIo) (header : Header) : FileAct PUnit := do
  let stream ← openBi io
  writeFrame io stream header.frame
  attempt io.opened
  sendChunks io header stream 0 io.reads
  attempt io.stopped
  inApp (status s!"sent {header.name}")

def send (io : SendIo) (peer : Key) (path : String) : FileAct PUnit := do
  let header ← mintHeader io path
  recordHeader io.io peer header
  placeFile io.setting .sent header.id path
  refold io.io peer
  transfer io header

section

variable {R : World → World → Prop} [Std.Refl R] [Trans R R R] {io : SendIo} {header : Header}

theorem moves_writeAll (hstreams : ∀ w streams, R w { w with streams := streams }) (stream : Nat)
    (bytes : List UInt8) (outcome : Option String) : Moves R (writeAll io stream bytes outcome) :=
  .bind (moves_modify fun w => hstreams w _) fun _ => moves_attempt _

theorem moves_sendChunks (hstreams : ∀ w streams, R w { w with streams := streams })
    (htold : ∀ sent, Moves R (inApp (emit (.transfer header.id sent header.size)))) (stream : Nat)
    (sent : UInt64) (chunks : List Chunk) : Moves R (sendChunks io header stream sent chunks) := by
  induction chunks generalizing sent with
  | nil => exact moves_pure _
  | cons chunk chunks ih =>
    cases chunk with
    | failed err => exact moves_lift (.error err)
    | data bytes outcome =>
      exact .ite (moves_pure _) (.bind (moves_writeAll hstreams _ _ _) fun _ =>
        .bind (htold _) fun _ => ih _)

/-- All that a transfer does is to write to its stream and to tell the UI of it. -/
theorem moves_transfer (hstreams : ∀ w streams, R w { w with streams := streams })
    (htold : ∀ sent, Moves R (inApp (emit (.transfer header.id sent header.size))))
    (hsaid : Moves R (inApp (status s!"sent {header.name}"))) : Moves R (transfer io header) := by
  refine .bind (.bind (moves_attempt _) fun _ => .bind moves_get fun w => ?_) fun stream => ?_
  · exact .bind (moves_modify fun w => hstreams w _) fun _ => moves_pure _
  · refine .bind (.bind (moves_lift _) fun _ => moves_writeAll hstreams _ _ _) fun _ => ?_
    exact .bind (moves_attempt _) fun _ => .bind (moves_sendChunks hstreams htold _ _ _) fun _ =>
      .bind (moves_attempt _) fun _ => hsaid

end

/-- What one call of `receive` finds on the stream and the disk. -/
structure ReceiveIo where
  io : Io
  setting : Sqlite
  header : Except String (Option Frame)
  create : Option String
  chunks : List Chunk
  flush : Option String

def maxFileExceeded (size : UInt64) : String :=
  s!"peer announced a {size}-byte attachment, over the {maxFile}-byte limit"

/-- The checks of `receive` on the header. -/
def admissible (io : ReceiveIo) (peer : Key) : Except String Header := do
  match ← io.header with
  | some (.file id name size hash) => do
    ensure (id.sender = peer) "attachment is minted under a key other than the sender's"
    ensure (size ≤ maxFile) (maxFileExceeded size)
    pure ⟨id, name, size, hash⟩
  | _ => .error "stream did not open with an attachment header"

theorem Header.frame_injective {header header' : Header} (h : header.frame = header'.frame) :
    header = header' := by
  cases header
  cases h
  rfl

theorem admissible_eq_ok {io : ReceiveIo} {peer : Key} {header : Header} :
    admissible io peer = .ok header ↔
      io.header = .ok (some header.frame) ∧ header.id.sender = peer ∧ header.size ≤ maxFile := by
  rw [admissible, bind_eq_ok]
  constructor
  · rintro ⟨opened, hread, h⟩
    split at h
    · simp only [ensure_bind_eq_ok, pure, Except.pure, Except.ok.injEq] at h
      obtain ⟨hsender, hsize, rfl⟩ := h
      exact ⟨hread, hsender, hsize⟩
    · cases h
  · rintro ⟨hread, hsender, hsize⟩
    refine ⟨_, hread, ?_⟩
    simp [Header.frame, ensure, hsender, hsize, pure, Except.pure, bind, Except.bind]

/-- What is admitted of a header that was announced is that header. -/
theorem announced_of_admissible {io : ReceiveIo} {peer : Key} {header header' : Header}
    (hheader : io.header = .ok (some header.frame)) (h : admissible io peer = .ok header') :
    header' = header ∧ header.id.sender = peer ∧ header.size ≤ maxFile := by
  obtain ⟨hread, hsender, hsmall⟩ := admissible_eq_ok.mp h
  have heq := Option.some.inj (Except.ok.inj (hheader.symm.trans hread))
  obtain rfl := Header.frame_injective heq
  exact ⟨rfl, hsender, hsmall⟩

def readHeader (io : ReceiveIo) (peer : Key) : FileAct Header := do
  let header ← lift (admissible io peer)
  recordHeader io.io peer header
  pure header

/-- The loop of `receive`: the bytes that have come. -/
def receiveChunks (header : Header) : List UInt8 → List Chunk → Act (List UInt8)
  | got, [] => pure got
  | _, .failed err :: _ => throw err
  | got, .data bytes write :: chunks => do
    if bytes = [] then pure got
    else do
      let got := got ++ bytes
      lift (ensure (got.length ≤ header.size.toNat)
        s!"peer sent more than the {header.size} bytes it announced")
      attempt write
      emit (.transfer header.id (.ofNat got.length) header.size)
      receiveChunks header got chunks

section

theorem digitChar_ne_slash {n : Nat} (h : n < 16) : '/' ≠ Nat.digitChar n := by
  revert n
  decide

theorem slash_not_mem_hexByte (b : UInt8) : '/' ∉ (hexByte b).toList := by
  have hb := b.toNat_lt
  have hhigh := digitChar_ne_slash (show b.toNat / 16 < 16 by omega)
  have hlow := digitChar_ne_slash (Nat.mod_lt b.toNat (show 16 > 0 by decide))
  simp [hexByte, hhigh, hlow]

theorem slash_not_mem_display (id : MessageId) : '/' ∉ id.display.toList := by
  have hhex : '/' ∉ (hex (id.sender.toList.take 4)).toList := by
    simp [hex, -List.map_take, slash_not_mem_hexByte]
  have hseq : '/' ∉ Nat.toDigits 10 id.seq.toNat := fun h =>
    absurd (Nat.isDigit_of_mem_toDigits (by decide) (by decide) h) (by decide)
  simp [MessageId.display, hhex, hseq]

/-- Whatever the peer calls its file, it has no way out of the directory. -/
theorem slash_not_mem_safeName {alphanumeric : Char → Bool} (h : alphanumeric '/' = false)
    (name : String) : '/' ∉ (safeName alphanumeric name).toList := by
  have hclean : ∀ chars : List Char, '/' ∉ chars.map fun c =>
      if alphanumeric c ∨ c ∈ " ._-".toList then c else '_' := by
    intro chars hmem
    obtain ⟨c, -, hc⟩ := List.mem_map.mp hmem
    split at hc
    · subst hc
      simp_all
    · cases hc
  simp only [safeName]
  split
  · decide
  · rw [String.toList_ofList]
    exact fun hmem => hclean _ (mem_of_mem_trimMatches hmem)

end

section

variable {C : Crypto} (env : Env C) (alphanumeric : Char → Bool)

/-- Where `receive` puts the file of this header. -/
def landing (header : Header) : String :=
  filesPath env.home s!"{header.id.display}-{safeName alphanumeric header.name}"

variable {alphanumeric} in
theorem landing_inFiles (h : alphanumeric '/' = false) (header : Header) :
    InFiles env.home (landing env alphanumeric header) := by
  refine ⟨_, ?_, rfl⟩
  simp only [toString, String.toList_append, List.mem_append, not_or]
  exact ⟨⟨slash_not_mem_display _, by decide⟩, slash_not_mem_safeName h _⟩

/-- The file is removed again if what comes is not what the header announced. -/
def download (io : ReceiveIo) (header : Header) : FileAct (List UInt8) := do
  lift (match io.create with
    | some err => .error err
    | none => .ok ())
  modify fun w => { w with created := w.created ++ [landing env alphanumeric header] }
  inApp do
    let got ← receiveChunks header [] io.chunks
    attempt io.flush
    lift (ensure (got.length = header.size.toNat ∧ C.blake3 got = header.hash)
      s!"{header.name} did not match the hash it was sent with — discarded")
    pure got

def announce (io : ReceiveIo) (peer : Key) (header : Header) (got : List UInt8) :
    FileAct PUnit := do
  refold io.io peer
  inApp (status
    s!"saved {landing env alphanumeric header} ({got.length} bytes, blake3 ok)")

def receive (io : ReceiveIo) (peer : Key) : FileAct PUnit := do
  let header ← readHeader io peer
  refold io.io peer
  let got ← download env alphanumeric io header
  placeFile io.setting .received header.id (landing env alphanumeric header)
  announce env alphanumeric io peer header got

end

def nickKey (peer : Key) : String := "nick:" ++ short peer

def aliasKey (peer : Key) : String := "alias:" ++ short peer

/-- The settings that are names: `Name`, `Nick` and `remember_nick` write them. -/
inductive NameKey
  | nickname
  | nick (peer : Key)
  | aliased (peer : Key)

def NameKey.key : NameKey → String
  | .nickname => "nickname"
  | .nick peer => nickKey peer
  | .aliased peer => aliasKey peer

/-- What the user is told when a name cannot be saved; a peer's nickname is only logged. -/
def NameKey.refused (err : String) : NameKey → Act PUnit
  | .nickname => warn s!"could not save nick: {err}"
  | .nick _ => pure .unit
  | .aliased _ => warn s!"could not save that name: {err}"

/-- `unlink_all`: how many of the files were there is the disk's to say. -/
def unlinkAll (paths : List String) : FileAct PUnit :=
  modify fun w => { w with unlinked := w.unlinked ++ paths }

/-- What a confirmed `/clear`, `/forget` or `/wipe` finds in the store and on the disk. -/
structure RemoveIo where
  io : Io
  removal : Sqlite
  gone : Nat

def forget (io : RemoveIo) (peer : Key) : FileAct PUnit := do
  inApp (modify fun app => { app with
    live := app.live.erase peer
    rooms := app.rooms.erase peer })
  let files ← inApp (inStore
    (Store.forget io.removal io.io.orders peer [nickKey peer, aliasKey peer]))
  unlinkAll files
  inApp do
    emit (.forgotten peer)
    status s!"forgotten — {io.gone} attachment(s) deleted from this machine"

def clear (io : RemoveIo) (peer : Key) : FileAct PUnit := do
  let files ← inApp (inStore (Store.clear io.removal io.io.orders peer))
  unlinkAll files
  inApp do
    ignore (sendLog io.io peer)
    status s!"conversation emptied — {io.gone} file(s) deleted"

def wipe (io : RemoveIo) : FileAct PUnit := do
  inApp (modify fun app => { app with live := ∅, rooms := .empty })
  let files ← inApp (inStore (Store.wipe io.removal io.io.orders))
  unlinkAll files
  inApp do
    emit .wiped
    status s!"everything deleted — {io.gone} file(s) gone. Your identity is untouched."

end Wicara.Client
