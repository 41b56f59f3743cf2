import Wicara.Client.Convergence
import Wicara.Client.Transfers

namespace Wicara.Client

open Wicara.Core Lib

/-- The file that a header announces. -/
structure Announced where
  size : UInt64
  hash : Bytes 32
  deriving DecidableEq

/-- The file at this path is the one that was announced. -/
def Announced.StoredAt (C : Crypto) (a : Announced) (d : Disk String UInt8) (path : String) :
    Prop :=
  ∃ bytes ∈ d.read path, bytes.length = a.size.toNat ∧ C.blake3 bytes = a.hash

instance (C : Crypto) (a : Announced) (d : Disk String UInt8) (path : String) :
    Decidable (a.StoredAt C d path) := by
  unfold Announced.StoredAt
  infer_instance

def Attachment.announced (a : Attachment) : Announced := ⟨a.size, a.hash⟩

def Header.announced (header : Header) : Announced := ⟨header.size, header.hash⟩

/-- Wherever `history` says that the attachment of another is, there is the file that its message
announces. -/
def Volume.AttachmentsSaved (C : Crypto) (v : Volume) : Prop :=
  ∀ io orders peer limit msgs, v.world.app.store.history io orders peer limit = .ok msgs →
    ∀ m ∈ msgs, m.outbound = false → ∀ a ∈ m.attachment, ∀ path ∈ a.path,
      a.announced.StoredAt C v.disk path

/-- What an op of another announces. -/
def OpRow.announced (me : Key) (row : OpRow) : Option Announced :=
  match row.2.2 with
  | .file _ _ size hash => if row.1.sender = me then none else some ⟨size, hash⟩
  | _ => none

/-- What decides about the attachments: a part of the store, and the disk. -/
structure Shelf where
  me : Key
  ops : Table MessageId (Key × Frame)
  settings : Table String String
  disk : Disk String UInt8

def Volume.shelf (v : Volume) : Shelf :=
  ⟨v.world.app.store.me, v.world.app.store.ops, v.world.app.store.settings, v.disk⟩

/-- Every attachment of another that is shown somewhere is there. -/
def Shelf.Kept (C : Crypto) (s : Shelf) : Prop :=
  ∀ row ∈ s.ops.rows, ∀ a ∈ OpRow.announced s.me row, ∀ path ∈ s.settings.get (fileKey row.1),
    a.StoredAt C s.disk path

instance (C : Crypto) (s : Shelf) : Decidable (s.Kept C) := by
  unfold Shelf.Kept
  infer_instance

namespace OpRow

variable {me : Key} {settings : Table String String} {row : OpRow} {m : Message}

theorem posted_received (h : row.posted me settings = some m) {a : Attachment} :
    m.outbound = false ∧ m.attachment = some a ↔
      row.1.sender ≠ me ∧ row.attachment settings = some a := by
  obtain ⟨id, peer, frame⟩ := row
  cases frame with
  | chat | file =>
    cases h
    simp [Fold.message, attachment]
  | _ => cases h

variable (settings) in
theorem announced_eq_some {announced : Announced} :
    row.announced me = some announced ↔
      row.1.sender ≠ me ∧ ∃ a, row.attachment settings = some a ∧ a.announced = announced := by
  obtain ⟨id, peer, frame⟩ := row
  cases frame with
  | file _ name size hash =>
    by_cases hme : id.sender = me <;> simp [OpRow.announced, attachment, Attachment.announced, hme]
  | _ => simp [OpRow.announced, attachment]

theorem path_of_attachment {a : Attachment} (h : row.attachment settings = some a) :
    a.path = settings.get (fileKey row.1) := by
  obtain ⟨id, peer, frame⟩ := row
  cases frame with
  | file _ name size hash =>
    cases h
    rfl
  | _ => cases h

end OpRow

namespace Store

variable {s : Store} {peer : Key}

/-- What `history` shows of others' attachments is what the ops of others attach. -/
theorem exists_received (orders : Orders) {a : Attachment} :
    (∃ m ∈ s.messages orders peer, m.outbound = false ∧ m.attachment = some a) ↔
      ∃ row ∈ s.ops.rows, row.2.1 = peer ∧ row.1.sender ≠ s.me ∧
        OpRow.attachment s.settings row = some a := by
  have hoff : ∀ (m : Message) (rows : List OpRow),
      (rows.foldl OpRow.revise m).outbound = m.outbound ∧
        (rows.foldl OpRow.revise m).attachment = m.attachment := fun m rows =>
    ⟨OpRow.foldl_revise_eq (f := Message.outbound) (fun _ _ => rfl) (fun _ => rfl) m rows,
      OpRow.foldl_revise_eq (f := Message.attachment) (fun _ _ => rfl) (fun _ => rfl) m rows⟩
  simp only [messages_eq, List.mem_map, exists_exists_and_eq_and]
  constructor
  · rintro ⟨m, hm, hout, ha⟩
    obtain ⟨before, row, after, posted, hrows, hposted, rfl⟩ := mem_content.mp hm
    have hrow : row ∈ s.conversation orders peer := by simp [hrows]
    obtain ⟨hmem, hpeer⟩ := mem_conversation.mp hrow
    have hreceived := (OpRow.posted_received hposted).mp
      ⟨(hoff posted after).1.symm.trans hout, (hoff posted after).2.symm.trans ha⟩
    exact ⟨row, hmem, hpeer, hreceived⟩
  · rintro ⟨row, hmem, hpeer, hsender, ha⟩
    have hrow : row ∈ s.conversation orders peer := mem_conversation.mpr ⟨hmem, hpeer⟩
    obtain ⟨before, after, hrows⟩ := List.append_of_mem hrow
    obtain ⟨posted, hposted⟩ : ∃ posted, OpRow.posted s.me s.settings row = some posted := by
      obtain ⟨id, peer', frame⟩ := row
      cases frame with
      | file => exact ⟨_, rfl⟩
      | _ => cases ha
    obtain ⟨hout, hattachment⟩ := (OpRow.posted_received hposted).mpr ⟨hsender, ha⟩
    refine ⟨after.foldl OpRow.revise posted,
      mem_content.mpr ⟨before, row, after, posted, hrows, hposted, rfl⟩, ?_, ?_⟩
    · exact (hoff posted after).1.trans hout
    · exact (hoff posted after).2.trans hattachment

end Store

theorem Volume.attachmentsSaved_iff {C : Crypto} {v : Volume} :
    v.AttachmentsSaved C ↔ v.shelf.Kept C := by
  constructor
  · intro h row hrow announced hannounced path hpath
    obtain ⟨hsender, a, ha, rfl⟩ := (OpRow.announced_eq_some v.shelf.settings).mp hannounced
    obtain ⟨m, hm, hout, hattachment⟩ := (Store.exists_received .asStored).mpr
      ⟨row, hrow, rfl, hsender, ha⟩
    have hshown := h none .asStored row.2.1 none _ rfl m (by simpa using hm) hout a hattachment path
    exact hshown ((OpRow.path_of_attachment ha).trans hpath)
  · intro h io orders peer limit msgs hmsgs m hm hout a hattachment path hpath
    have hshown : m ∈ v.world.app.store.messages orders peer := by
      cases io with
      | some err => cases hmsgs
      | none =>
        cases hmsgs
        exact List.mem_of_mem_drop hm
    obtain ⟨row, hrow, -, hsender, ha⟩ :=
      (Store.exists_received orders).mp ⟨m, hshown, hout, hattachment⟩
    refine h row hrow a.announced ?_ path ((OpRow.path_of_attachment ha).symm.trans hpath)
    exact (OpRow.announced_eq_some v.shelf.settings).mpr ⟨hsender, a, ha, rfl⟩

namespace Shelf

/-- A new op of another announces the file that is shown under its key already, if there is one. -/
def Welcomes (C : Crypto) (s : Shelf) (peer : Key) (frame : Frame) : Prop :=
  ∀ id ∈ frame.id, id ∉ s.ops.keys → ∀ a ∈ OpRow.announced s.me (id, peer, frame),
    ∀ path ∈ s.settings.get (fileKey id), a.StoredAt C s.disk path

/-- `P` is true of every attachment of another that is shown at this path. -/
def ShownAt (s : Shelf) (path : String) (P : Announced → Prop) : Prop :=
  ∀ row ∈ s.ops.rows, ∀ a ∈ OpRow.announced s.me row,
    s.settings.get (fileKey row.1) = some path → P a

/-- `P` is true of every attachment of another that has this key. -/
def Under (s : Shelf) (key : String) (P : Announced → Prop) : Prop :=
  ∀ row ∈ s.ops.rows, ∀ a ∈ OpRow.announced s.me row, fileKey row.1 = key → P a

instance (C : Crypto) (s : Shelf) (peer : Key) (frame : Frame) :
    Decidable (s.Welcomes C peer frame) := by
  unfold Welcomes
  infer_instance

instance (s : Shelf) (path : String) (P : Announced → Prop) [DecidablePred P] :
    Decidable (s.ShownAt path P) := by
  unfold ShownAt
  infer_instance

instance (s : Shelf) (key : String) (P : Announced → Prop) [DecidablePred P] :
    Decidable (s.Under key P) := by
  unfold Under
  infer_instance

end Shelf

section

variable {C : Crypto} (env : Env C) (alphanumeric : Char → Bool)

namespace DiskTask

/-- The path of the file that a call of `receive` is at work on. -/
def path : DiskTask → Option String
  | .receive _ _ (.read header _ _ _) | .receive _ _ (.write header _ _ _ _ _)
  | .receive _ _ (.discard header _) | .receive _ _ (.flush header _ _)
  | .receive _ _ (.place header _) => some (landing env alphanumeric header)
  | _ => none

/-- The path at which the next section of a task creates a file. -/
def creates : DiskTask → Option String
  | .receive io _ (.create header) =>
    if io.create = none then some (landing env alphanumeric header) else none
  | _ => none

/-- The file has in it what has come so far. -/
def Undisturbed (t : DiskTask) (d : Disk String UInt8) : Prop :=
  match t with
  | .receive _ _ (.read header file got _) | .receive _ _ (.write header file got _ _ _)
  | .receive _ _ (.flush header file got) => d.Holds (landing env alphanumeric header) file got
  | .receive _ _ (.place header _) =>
    header.announced.StoredAt C d (landing env alphanumeric header)
  | _ => True

/-- What a task finds in the store and on the disk does not clash with what it is about to do
there. -/
def Fits (t : DiskTask) (s : Shelf) : Prop :=
  match t with
  | .receive io peer .start =>
    ∀ header ∈ (admissible io.toReceiveIo peer).toOption,
      io.io.record 0 = none → io.io.record 1 = none → s.Welcomes C peer header.frame
  | .receive io _ (.create header) =>
    io.create = none → s.ShownAt (landing env alphanumeric header) fun a => a.size = 0
  | .receive io _ (.write header _ _ bytes outcome _) =>
    io.written bytes outcome ≠ [] → s.ShownAt (landing env alphanumeric header) fun _ => False
  | .receive io _ (.discard header _) =>
    io.unlink = none → s.ShownAt (landing env alphanumeric header) fun _ => False
  | .receive io _ (.place header _) =>
    io.setting 0 = none → s.Under (fileKey header.id) fun a => a = header.announced
  | .record io peer frame false => io 0 = none → io 1 = none → s.Welcomes C peer frame
  | .setFilePath io id path false =>
    io 0 = none → s.Under (fileKey id) fun a => a.StoredAt C s.disk path
  | _ => True

instance (t : DiskTask) (s : Shelf) : Decidable (t.Fits env alphanumeric s) := by
  unfold Fits
  split <;> infer_instance

/-- All that a section can do to the shelf, and when its task fits what it finds. -/
inductive Section : DiskTask → Shelf → DiskTask → Shelf → Prop
  | quiet {t t' : DiskTask} {s : Shelf} (fits : t.Fits env alphanumeric s)
      (path : ∀ p ∈ t'.path env alphanumeric, p ∈ t.path env alphanumeric)
      (keeps : t.Undisturbed env alphanumeric s.disk → t'.Undisturbed env alphanumeric s.disk) :
      Section t s t' s
  | recorded {t t' : DiskTask} {s : Shelf} (id : MessageId) (peer : Key) (frame : Frame)
      (hid : frame.id = some id)
      (fits : t.Fits env alphanumeric s ↔ s.Welcomes C peer frame)
      (path : t'.path env alphanumeric = none)
      (keeps : t'.Undisturbed env alphanumeric s.disk) :
      Section t s t' { s with ops := s.ops.insertOrIgnore id (peer, frame) }
  | created {s : Shelf} (io : TransferIo) (peer : Key) (header : Header)
      (hcreate : io.create = none) :
      Section (.receive io peer (.create header)) s
        (.receive io peer
          (.read header (s.disk.opened (landing env alphanumeric header)) [] io.chunks))
        { s with disk := s.disk.create (landing env alphanumeric header) }
  | written {t' : DiskTask} {s : Shelf} (io : TransferIo) (peer : Key) (header : Header)
      (file : Nat) (got bytes : List UInt8) (outcome : Option String) (chunks : List Chunk)
      (path : ∀ p ∈ t'.path env alphanumeric, p = landing env alphanumeric header)
      (keeps : ∀ d : Disk String UInt8,
        d.Holds (landing env alphanumeric header) file (got ++ io.written bytes outcome) →
          t'.Undisturbed env alphanumeric d) :
      Section (.receive io peer (.write header file got bytes outcome chunks)) s t'
        { s with disk := s.disk.write 0 file got.length (io.written bytes outcome) }
  | removed {s : Shelf} (io : TransferIo) (peer : Key) (header : Header) (err : String)
      (hunlink : io.unlink = none) :
      Section (.receive io peer (.discard header err)) s (.receive io peer .done)
        { s with disk := s.disk.unlink (landing env alphanumeric header) }
  | placed {t t' : DiskTask} {s : Shelf} (id : MessageId) (path : String)
      (fits : t.Undisturbed env alphanumeric s.disk → (t.Fits env alphanumeric s ↔
        s.Under (fileKey id) fun a => a.StoredAt C s.disk path))
      (hpath : t'.path env alphanumeric = none)
      (keeps : t'.Undisturbed env alphanumeric s.disk) :
      Section t s t' { s with settings := s.settings.upsert (fileKey id) path }

end DiskTask

end

variable {C : Crypto} {env : Env C} {alphanumeric : Char → Bool}

/-- A file that is left as it is stays the one that was announced. -/
theorem Announced.StoredAt.mono {a : Announced} {d d' : Disk String UInt8} {path : String}
    (h : a.StoredAt C d path)
    (hd : ∀ file bytes, d.Holds path file bytes → d'.Holds path file bytes) :
    a.StoredAt C d' path := by
  obtain ⟨bytes, hread, hbytes⟩ := h
  obtain ⟨file, hfile⟩ := Disk.read_eq_some.mp hread
  exact ⟨bytes, (hd file bytes hfile).read, hbytes⟩

/-- Only one file can be the one at a path. -/
theorem Announced.StoredAt.unique {a b : Announced} {d : Disk String UInt8} {path : String}
    (ha : a.StoredAt C d path) (hb : b.StoredAt C d path) : a = b := by
  obtain ⟨size, hash⟩ := a
  obtain ⟨size', hash'⟩ := b
  obtain ⟨bytes, hread, hlength, rfl⟩ := ha
  obtain ⟨bytes', hread', hlength', rfl⟩ := hb
  obtain rfl : bytes = bytes' := Option.some.inj (hread.symm.trans hread')
  obtain rfl : size = size' := UInt64.toNat_inj.mp (hlength.symm.trans hlength')
  rfl

namespace Shelf

variable {s : Shelf}

/-- A new op must find its file where its key says, if it is an attachment. -/
theorem Kept.record_iff (h : s.Kept C) {frame : Frame} {id : MessageId} (hid : frame.id = some id)
    (peer : Key) : Kept C { s with ops := s.ops.insertOrIgnore id (peer, frame) } ↔
      s.Welcomes C peer frame := by
  constructor
  · intro hkept id' hid' hnew a ha path hpath
    obtain rfl : id = id' := Option.some.inj (hid.symm.trans hid')
    refine hkept (id, peer, frame) ?_ a ha path hpath
    simp [Table.rows_insertOrIgnore hnew]
  · intro hwelcomes row hrow a ha path hpath
    obtain hold | ⟨hnew, rfl⟩ := Table.mem_insertOrIgnore hrow
    · exact h row hold a ha path hpath
    · exact hwelcomes id hid hnew a ha path hpath

/-- Only what is empty can be shown at a file that is created. -/
theorem Kept.create_iff (h : s.Kept C) (path : String) :
    Kept C { s with disk := s.disk.create path } ↔ s.ShownAt path fun a => a.size = 0 := by
  have hnew := Disk.holds_create path s.disk
  constructor
  · intro hkept row hrow a ha hpath
    obtain ⟨bytes, hread, hlength, -⟩ := hkept row hrow a ha _ hpath
    obtain rfl : [] = bytes := Option.some.inj (hnew.read.symm.trans hread)
    exact UInt64.toNat_inj.mp hlength.symm
  · intro hempty row hrow a ha path' hpath
    have hstored := h row hrow a ha path' hpath
    by_cases hsame : path' = path
    · -- an empty file that is thrown away and made again is still empty
      subst hsame
      obtain ⟨bytes, -, hlength, hhash⟩ := hstored
      obtain rfl : bytes = [] := by
        rw [hempty row hrow a ha hpath] at hlength
        exact List.eq_nil_of_length_eq_zero hlength
      exact ⟨[], hnew.read, hlength, hhash⟩
    · exact hstored.mono fun file bytes hd => hd.create hsame

/-- Nothing may be shown at a file that grows. -/
theorem Kept.write_iff (h : s.Kept C) {path : String} {file : Nat} {got : List UInt8}
    (hold : s.disk.Holds path file got) (bytes : List UInt8) :
    Kept C { s with disk := s.disk.write 0 file got.length bytes } ↔
      (bytes ≠ [] → s.ShownAt path fun _ => False) := by
  have hnew := hold.write 0 bytes
  constructor
  · -- whatever is shown at the path has the length of what is there, and this grows
    intro hkept hsome row hrow a ha hpath
    obtain ⟨before, hbefore, hlength, -⟩ := h row hrow a ha _ hpath
    obtain ⟨after, hafter, hlength', -⟩ := hkept row hrow a ha _ hpath
    obtain rfl : got = before := Option.some.inj (hold.read.symm.trans hbefore)
    obtain rfl := Option.some.inj (hnew.read.symm.trans hafter)
    rw [List.length_append, hlength] at hlength'
    exact hsome (List.eq_nil_of_length_eq_zero (by omega))
  · intro hshown row hrow a ha path' hpath
    refine (h row hrow a ha path' hpath).mono fun file' bytes' hd => ?_
    by_cases hnone : bytes = []
    · rw [hnone]
      exact hd.write_nil _ _ _
    · have hne : path' ≠ path := by
        rintro rfl
        exact hshown hnone row hrow a ha hpath
      exact hd.write_of_ne (hd.file_ne hold hne) _ _ _

/-- Nothing may be shown at a file that is removed. -/
theorem Kept.unlink_iff (h : s.Kept C) (path : String) :
    Kept C { s with disk := s.disk.unlink path } ↔ s.ShownAt path fun _ => False := by
  constructor
  · intro hkept row hrow a ha hpath
    obtain ⟨bytes, hread, -⟩ := hkept row hrow a ha _ hpath
    rw [Disk.read_unlink] at hread
    cases hread
  · intro hshown row hrow a ha path' hpath
    refine (h row hrow a ha path' hpath).mono fun file bytes hd => hd.unlink ?_
    rintro rfl
    exact hshown row hrow a ha hpath

/-- Where a path is set, the file must be that of the attachment. -/
theorem Kept.place_iff (h : s.Kept C) (id : MessageId) (path : String) :
    Kept C { s with settings := s.settings.upsert (fileKey id) path } ↔
      s.Under (fileKey id) fun a => a.StoredAt C s.disk path := by
  constructor
  · intro hkept row hrow a ha hkey
    refine hkept row hrow a ha path ?_
    change (s.settings.upsert (fileKey id) path).get (fileKey row.1) = some path
    rw [Table.get_upsert, if_pos hkey]
  · intro hunder row hrow a ha path' hpath'
    have hget : (s.settings.upsert (fileKey id) path).get (fileKey row.1) = some path' := hpath'
    rw [Table.get_upsert] at hget
    split at hget
    · obtain rfl := Option.some.inj hget
      exact hunder row hrow a ha ‹_›
    · exact h row hrow a ha path' hget

end Shelf

namespace DiskTask

variable {t t' u : DiskTask} {s s' : Shelf}

theorem Undisturbed.mono {d d' : Disk String UInt8} (h : u.Undisturbed env alphanumeric d)
    (hd : ∀ path ∈ u.path env alphanumeric, ∀ file bytes,
      d.Holds path file bytes → d'.Holds path file bytes) :
    u.Undisturbed env alphanumeric d' := by
  cases u with
  | receive io peer pc =>
    cases pc with
    | read header file got chunks => exact hd _ rfl _ _ h
    | write header file got bytes outcome chunks => exact hd _ rfl _ _ h
    | flush header file got => exact hd _ rfl _ _ h
    | place header got => exact Announced.StoredAt.mono h (hd _ rfl)
    | _ => trivial
  | _ => trivial

namespace Section

/-- A section leaves every file alone but the one its task is at work on, or creates. -/
theorem holds (h : Section env alphanumeric t s t' s') (ht : t.Undisturbed env alphanumeric s.disk)
    {path : String} (hpath : path ∉ t.path env alphanumeric)
    (hcreates : path ∉ t.creates env alphanumeric) {file : Nat} {bytes : List UInt8}
    (hd : s.disk.Holds path file bytes) : s'.disk.Holds path file bytes := by
  cases h with
  | quiet | recorded | placed => exact hd
  | created io peer header hcreate =>
    refine hd.create fun heq => hcreates ?_
    simp [creates, hcreate, heq]
  | written io peer header file' got =>
    have hne : path ≠ landing env alphanumeric header := fun heq =>
      hpath (by simp [DiskTask.path, heq])
    exact hd.write_of_ne (hd.file_ne ht hne) _ _ _
  | removed io peer header =>
    exact hd.unlink fun heq => hpath (by simp [DiskTask.path, heq])

/-- A task is at work on the file it was at work on, or on the one it has created. -/
theorem path_subset (h : Section env alphanumeric t s t' s') :
    ∀ p ∈ t'.path env alphanumeric,
      p ∈ t.path env alphanumeric ∨ p ∈ t.creates env alphanumeric := by
  intro p hp
  cases h with
  | quiet _ path => exact .inl (path p hp)
  | recorded id peer frame hid fits path =>
    rw [path] at hp
    cases hp
  | created io peer header hcreate =>
    refine .inr ?_
    rw [creates, if_pos hcreate]
    exact hp
  | written io peer header file got bytes outcome chunks path =>
    rw [path p hp]
    exact .inl rfl
  | removed => cases hp
  | placed id path fits hpath =>
    rw [hpath] at hp
    cases hp

theorem undisturbed (h : Section env alphanumeric t s t' s')
    (ht : t.Undisturbed env alphanumeric s.disk) : t'.Undisturbed env alphanumeric s'.disk := by
  cases h with
  | quiet _ _ keeps => exact keeps ht
  | recorded id peer frame hid fits path keeps => exact keeps
  | created io peer header => exact Disk.holds_create _ _
  | written io peer header file got bytes outcome chunks path keeps =>
    have hold : s.disk.Holds (landing env alphanumeric header) file got := ht
    exact keeps _ (hold.write _ _)
  | removed => trivial
  | placed id path fits hpath keeps => exact keeps

/-- What is kept stays kept exactly when the task fits what it finds. -/
theorem kept_iff (h : Section env alphanumeric t s t' s')
    (ht : t.Undisturbed env alphanumeric s.disk) (hs : s.Kept C) :
    s'.Kept C ↔ t.Fits env alphanumeric s := by
  cases h with
  | quiet fits => exact iff_of_true hs fits
  | recorded id peer frame hid fits => exact (hs.record_iff hid peer).trans fits.symm
  | created io peer header hcreate =>
    exact (hs.create_iff _).trans ⟨fun hat _ => hat, fun fits => fits hcreate⟩
  | written io peer header file got bytes outcome chunks => exact hs.write_iff ht _
  | removed io peer header err hunlink =>
    exact (hs.unlink_iff _).trans ⟨fun hat _ => hat, fun fits => fits hunlink⟩
  | placed id path fits => exact (hs.place_iff id path).trans (fits ht).symm

end Section

end DiskTask

end Wicara.Client
