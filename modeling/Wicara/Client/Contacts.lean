import Wicara.Client.Dispatch
import Wicara.Client.Ledger
import Wicara.Client.Minting
import Wicara.Client.Removal

namespace Wicara.Client

open Wicara.Core Lib Lib.Fallible Lib.Run Lib.Arrange

namespace Store

/-- `open` on the tables it finds: the schema, the contacts of the ops, those of the rooms, and
then what it reads and checks before there is a store. -/
def openWith (io : Sqlite) (me : Key) : EStateM String Store PUnit := do
  attempt (io 0)
  modify fun s => { s with
    contacts := (s.ops.rows.map fun r => r.2.1).foldl
      (fun contacts peer => contacts.insertOrIgnore peer ()) s.contacts }
  attempt (io 1)
  modify fun s => { s with
    contacts := s.rooms.keys.foldl
      (fun contacts peer => contacts.insertOrIgnore peer ()) s.contacts }
  attempt (io 2)
  modify fun s => { s with me := me, counter := ⟨me, s.resume me⟩ }

/-- The three tables fit: who has an op or a room is a contact. -/
structure Covered (s : Store) : Prop where
  ops : ∀ row ∈ s.ops.rows, row.2.1 ∈ s.contacts.keys
  rooms : ∀ id ∈ s.rooms.keys, id ∈ s.contacts.keys

/-- There is something of a conversation in one of the tables. -/
def Conversation (s : Store) (key : Key) : Prop :=
  (∃ row ∈ s.ops.rows, row.2.1 = key) ∨ key ∈ s.rooms.keys ∨ key ∈ s.contacts.keys

/-- The places of all the attachments there are. -/
def paths (s : Store) : List String := s.ops.rows.filterMap (OpRow.path s.settings)

/-- What a wipe takes: conversations, messages and files. -/
def takes (s : Store) : Nat × Nat × Nat :=
  (s.contacts.keys.length, s.ops.rows.countP OpRow.posts, s.paths.length)

end Store

/-- The calls on a store that is open. -/
inductive Access
  | nextId (now : UInt64)
  | record (io : Sqlite) (peer : Key) (frame : Frame)
  | saveRoom (io : Sqlite) (id : RoomId) (log : List RoomEntry)
  | setSetting (io : Sqlite) (key value : String)
  | setFilePath (io : Sqlite) (id : MessageId) (path : String)
  | clear (io : Sqlite) (orders : Orders) (peer : Key)
  | forget (io : Sqlite) (orders : Orders) (peer : Key) (names : List String)
  | wipe (io : Sqlite) (orders : Orders)

def Access.act : Access → EStateM String Store PUnit
  | .nextId now => ignore (Store.nextId now)
  | .record io peer frame => ignore (Store.record io peer frame)
  | .saveRoom io id log => Store.saveRoom io id log
  | .setSetting io key value => Store.setSetting io key value
  | .setFilePath io id path => Store.setFilePath io id path
  | .clear io orders peer => ignore (Store.clear io orders peer)
  | .forget io orders peer names => ignore (Store.forget io orders peer names)
  | .wipe io orders => ignore (Store.wipe io orders)

/-- The tables on the disk, and whether a store is open on them. -/
structure Database where
  tables : Store
  isOpen : Bool

inductive DatabaseCall
  | reopen (io : Sqlite) (me : Key)
  | access (a : Access)

/-- A process that ends, wherever it is, is a statement that fails and then no call but `open`. -/
def Database.step (db : Database) : DatabaseCall → Database
  | .reopen io me =>
    ⟨after (Store.openWith io me) db.tables, succeeds (Store.openWith io me) db.tables⟩
  | .access a => if db.isOpen = true then ⟨after a.act db.tables, true⟩ else db

/-- No conversation is out of the sight of `peers`, `wipe` and the previews. -/
structure Store.Visible (s : Store) : Prop where
  covered : s.Covered
  peers : ∀ orders, ∃ peers, s.peers none orders = .ok peers ∧ peers.Nodup ∧
    ∀ key, key ∈ peers ↔ s.Conversation key
  preview : ∀ io orders taken, s.wipePreview io orders = .ok taken → taken = s.takes
  previews : ∀ orders, s.wipePreview .ok orders = .ok s.takes
  wipe : ∀ io orders, wp (Store.wipe io orders)
    (fun files s' => files.Perm s.paths ∧ s'.ops = .empty ∧ s'.rooms = .empty ∧
      s'.contacts = .empty ∧ ∀ key, s'.settings.get key =
        if key = "prekey" then s.settings.get key else none)
    (fun _ s' => s' = s) s
  wipes : ∀ orders, succeeds (Store.wipe .ok orders) s = true

namespace Store

variable {s s' : Store}

theorem mem_keys_foldl_insertOrIgnore {keys : List Key} {contacts : Table Key Unit} {key : Key} :
    key ∈ (keys.foldl (fun contacts peer => contacts.insertOrIgnore peer ()) contacts).keys ↔
      key ∈ keys ∨ key ∈ contacts.keys := by
  induction keys generalizing contacts with
  | nil => simp
  | cons peer keys ih => rw [List.foldl_cons, ih, Table.mem_keys_insertOrIgnore, List.mem_cons,
      or_left_comm, or_assoc]

/-- Whatever the tables were before: where `open` goes through, they fit. -/
theorem covered_openWith (io : Sqlite) (me : Key) (s : Store) :
    wp (openWith io me) (fun _ => Covered) (fun _ _ => True) s := by
  simp only [openWith, wp_bind, wp_attempt, wp_modify]
  refine ⟨fun _ => ⟨fun _ => ⟨fun _ => ?_, fun _ _ => trivial⟩, fun _ _ => trivial⟩,
    fun _ _ => trivial⟩
  constructor
  · intro row hrow
    exact mem_keys_foldl_insertOrIgnore.mpr (.inr (mem_keys_foldl_insertOrIgnore.mpr
      (.inl (List.mem_map_of_mem hrow))))
  · intro id hid
    exact mem_keys_foldl_insertOrIgnore.mpr (.inl hid)

theorem Covered.of_contacts (h : s.Covered) (hops : s'.ops = s.ops) (hrooms : s'.rooms = s.rooms)
    (hcontacts : ∀ key ∈ s.contacts.keys, key ∈ s'.contacts.keys) : s'.Covered where
  ops row hrow := hcontacts _ (h.ops row (hops ▸ hrow))
  rooms id hid := hcontacts _ (h.rooms id (hrooms ▸ hid))

/-- What an access must not break. -/
abbrev Keeps (s s' : Store) : Prop := s.Covered → s'.Covered

instance : Std.Refl Keeps := ⟨fun _ => id⟩

instance : Trans Keeps Keeps Keeps := ⟨fun hab hbc h => hbc (hab h)⟩

theorem covered_addContact (h : s.Covered) (key : Key) :
    ({ s with contacts := s.contacts.insertOrIgnore key () } : Store).Covered :=
  h.of_contacts rfl rfl fun _ hkey => Table.mem_keys_insertOrIgnore.mpr (.inr hkey)

/-- The contact comes before the op, so a failure in between leaves nothing out of sight. -/
theorem keeps_record (io : Sqlite) (peer : Key) (frame : Frame) :
    Moves Keeps (record io peer frame) := by
  rw [moves_iff]
  intro s
  unfold record
  split
  · exact fun h => h
  · simp only [wp_bind, wp_attempt, wp_modify, wp_get, wp_pure]
    refine ⟨fun _ => ⟨fun _ h => ?_, fun _ _ h => covered_addContact h peer⟩, fun _ _ h => h⟩
    have hcontact := covered_addContact h peer
    refine ⟨fun row hrow => ?_, hcontact.rooms⟩
    rcases Table.mem_insertOrIgnore hrow with hold | ⟨-, rfl⟩
    · exact hcontact.ops row hold
    · exact Table.mem_keys_insertOrIgnore.mpr (.inl rfl)

theorem keeps_saveRoom (io : Sqlite) (id : RoomId) (log : List RoomEntry) :
    Moves Keeps (saveRoom io id log) := by
  rw [moves_iff]
  intro s
  simp only [saveRoom, wp_bind, wp_attempt, wp_modify]
  refine ⟨fun _ => ⟨fun _ h => ?_, fun _ _ h => covered_addContact h id⟩, fun _ _ h => h⟩
  have hcontact := covered_addContact h id
  refine ⟨hcontact.ops, fun room hroom => ?_⟩
  rcases Table.mem_keys_upsert.mp hroom with rfl | hold
  · exact Table.mem_keys_insertOrIgnore.mpr (.inl rfl)
  · exact hcontact.rooms room hold

theorem keeps_setSetting (io : Sqlite) (key value : String) :
    Moves Keeps (setSetting io key value) :=
  .bind (moves_attempt _) fun _ => moves_modify fun _ h => h.of_contacts rfl rfl fun _ hkey => hkey

theorem covered_cleared (h : s.Covered) (msgs : List Message) (peer : Key) :
    (cleared msgs peer s).Covered :=
  ⟨fun row hrow => h.ops row (List.mem_of_mem_filter hrow), h.rooms⟩

theorem covered_forgotten (h : s.Covered) (msgs : List Message) (peer : Key)
    (names : List String) : (forgotten msgs peer names s).Covered := by
  constructor
  · intro row hrow
    have hpeer : row.2.1 ≠ peer := by simpa using (List.mem_filter.mp hrow).2
    exact Table.mem_keys_erase.mpr ⟨hpeer, h.ops row (List.mem_of_mem_filter hrow)⟩
  · intro id hid
    obtain ⟨hne, hold⟩ := Table.mem_keys_erase.mp hid
    exact Table.mem_keys_erase.mpr ⟨hne, h.rooms id hold⟩

theorem covered_wiped (s : Store) : (wiped s).Covered :=
  ⟨fun _ hrow => (List.not_mem_nil hrow).elim, fun _ hid => (List.not_mem_nil hid).elim⟩

end Store

/-- No call on an open store takes a conversation out of sight, wherever it fails. -/
theorem Access.keeps (a : Access) : Moves Store.Keeps a.act := by
  cases a with
  | nextId now =>
    have hnext : Moves Store.Keeps (Store.nextId now) := fun _ h =>
      h.of_contacts rfl rfl fun _ hkey => hkey
    exact hnext.ignore
  | record io peer frame => exact (Store.keeps_record io peer frame).ignore
  | saveRoom io id log => exact Store.keeps_saveRoom io id log
  | setSetting io key value => exact Store.keeps_setSetting io key value
  | setFilePath io id path => exact Store.keeps_setSetting io (fileKey id) path
  | clear io orders peer =>
    exact Moves.ignore (.bind moves_get fun _ => .bind (moves_lift _) fun msgs =>
      .bind (moves_attempt _) fun _ => .bind
        (moves_modify fun _ h => Store.covered_cleared h msgs peer) fun _ => moves_pure _)
  | forget io orders peer names =>
    exact Moves.ignore (.bind moves_get fun _ => .bind (moves_lift _) fun msgs =>
      .bind (moves_attempt _) fun _ => .bind
        (moves_modify fun _ h => Store.covered_forgotten h msgs peer names) fun _ => moves_pure _)
  | wipe io orders =>
    exact Moves.ignore (.bind moves_get fun _ => .bind (moves_lift _) fun _ =>
      .bind (moves_lift _) fun _ => .bind (moves_attempt _) fun _ => .bind
        (moves_modify fun s _ => Store.covered_wiped s) fun _ => moves_pure _)

theorem Database.covered_step (db : Database) (call : DatabaseCall)
    (h : db.isOpen = true → db.tables.Covered) :
    (db.step call).isOpen = true → (db.step call).tables.Covered := by
  cases call with
  | reopen io me =>
    intro hopen
    exact (wp_iff.mp (Store.covered_openWith io me db.tables)).1 _ _ (run_of_succeeds hopen)
  | access a =>
    by_cases hopen : db.isOpen = true
    · simp only [step, if_pos hopen]
      exact fun _ => a.keeps db.tables (h hopen)
    · simp only [step, if_neg hopen]
      exact h

section

variable {s : Store} {orders : Orders}

namespace Store

theorem length_messages (s : Store) (orders : Orders) (peer : Key) :
    (s.messages orders peer).length =
      (s.ops.rows.filter fun row => row.2.1 = peer).countP OpRow.posts := by
  rw [← List.length_map Message.id, ids_messages, List.length_map, ← List.countP_eq_length_filter,
    conversation_perm.countP_eq]

theorem paths_messages_perm (s : Store) (orders : Orders) (peer : Key) :
    (attachmentPaths (s.messages orders peer)).Perm
      ((s.ops.rows.filter fun row => row.2.1 = peer).filterMap (OpRow.path s.settings)) := by
  rw [attachmentPaths_messages]
  exact conversation_perm.filterMap _

/-- The ops of the conversations in a list. -/
def opsOf (s : Store) (peers : List Key) : List OpRow :=
  peers.flatMap fun peer => s.ops.rows.filter fun row => row.2.1 = peer

theorem opsOf_cons (s : Store) (peer : Key) (peers : List Key) :
    s.opsOf (peer :: peers) = (s.ops.rows.filter fun row => row.2.1 = peer) ++ s.opsOf peers :=
  List.flatMap_cons

/-- Through the contacts one gets at every op, once. -/
theorem Covered.opsOf_perm (h : s.Covered) {peers : List Key} (hnodup : peers.Nodup)
    (hpeers : ∀ key ∈ s.contacts.keys, key ∈ peers) : (s.opsOf peers).Perm s.ops.rows := by
  refine (perm_flatMap_filter (fun row : OpRow => row.2.1) hnodup s.ops.rows).trans (.of_eq ?_)
  exact List.filter_eq_self.mpr fun row hrow => decide_eq_true (hpeers _ (h.ops row hrow))

theorem attachmentsOf_perm {io : Option String} {peers : List Key} {files : List String}
    (h : s.attachmentsOf io orders peers = .ok files) :
    files.Perm ((s.opsOf peers).filterMap (OpRow.path s.settings)) := by
  induction peers generalizing files with
  | nil =>
    cases h
    exact .refl _
  | cons peer peers ih =>
    simp only [attachmentsOf, bind_eq_ok, pure, Except.pure, Except.ok.injEq] at h
    obtain ⟨msgs, hmsgs, rest, hrest, rfl⟩ := h
    obtain ⟨-, rfl⟩ := history_eq_ok.mp hmsgs
    rw [opsOf_cons, List.filterMap_append]
    exact (s.paths_messages_perm orders peer).append (ih hrest)

theorem previewOf_eq {io : Option String} {peers : List Key} {taken : Nat × Nat}
    (h : s.previewOf io orders peers = .ok taken) :
    taken = ((s.opsOf peers).countP OpRow.posts,
      ((s.opsOf peers).filterMap (OpRow.path s.settings)).length) := by
  induction peers generalizing taken with
  | nil =>
    cases h
    rfl
  | cons peer peers ih =>
    simp only [previewOf, forgetPreview, bind_eq_ok, pure, Except.pure, Except.ok.injEq] at h
    obtain ⟨_, ⟨msgs, hmsgs, rfl⟩, rest, hrest, rfl⟩ := h
    obtain ⟨-, rfl⟩ := history_eq_ok.mp hmsgs
    rw [ih hrest, opsOf_cons, List.countP_append, List.filterMap_append, List.length_append,
      length_messages, (s.paths_messages_perm orders peer).length_eq]

theorem peers_perm {io : Option String} {peers : List Key} (h : s.peers io orders = .ok peers) :
    peers.Perm s.contacts.keys := by
  cases io with
  | some err => cases h
  | none =>
    cases h
    exact (List.perm_insertionSort _ _).trans (orders.contacts_perm _)

theorem nodup_peers {io : Option String} {peers : List Key} (h : s.peers io orders = .ok peers) :
    peers.Nodup :=
  (peers_perm h).nodup_iff.mpr s.contacts.nodup

theorem Covered.conversation_iff (h : s.Covered) {key : Key} :
    s.Conversation key ↔ key ∈ s.contacts.keys := by
  constructor
  · rintro (⟨row, hrow, rfl⟩ | hroom | hkey)
    · exact h.ops row hrow
    · exact h.rooms key hroom
    · exact hkey
  · exact fun hkey => .inr (.inr hkey)

theorem Covered.wipePreview_eq (h : s.Covered) {io : Sqlite} {taken : Nat × Nat × Nat}
    (hpreview : s.wipePreview io orders = .ok taken) : taken = s.takes := by
  simp only [wipePreview, bind_eq_ok, pure, Except.pure, Except.ok.injEq] at hpreview
  obtain ⟨peers, hpeers, counts, hcounts, rfl⟩ := hpreview
  have hall := h.opsOf_perm (nodup_peers hpeers) fun key hkey => (mem_peers hpeers key).mpr hkey
  rw [previewOf_eq hcounts, takes, paths, hall.countP_eq, (hall.filterMap _).length_eq,
    (peers_perm hpeers).length_eq]

theorem attachmentsOf_ok (s : Store) (orders : Orders) (peers : List Key) :
    ∃ files, s.attachmentsOf none orders peers = .ok files := by
  induction peers with
  | nil => exact ⟨[], rfl⟩
  | cons peer peers ih =>
    obtain ⟨files, hfiles⟩ := ih
    exact ⟨attachmentPaths (s.messages orders peer) ++ files, by
      simp only [attachmentsOf, bind_eq_ok, pure, Except.pure, Except.ok.injEq]
      exact ⟨_, history_eq_ok.mpr ⟨rfl, rfl⟩, files, hfiles, rfl⟩⟩

theorem previewOf_ok (s : Store) (orders : Orders) (peers : List Key) :
    ∃ taken, s.previewOf none orders peers = .ok taken := by
  induction peers with
  | nil => exact ⟨(0, 0), rfl⟩
  | cons peer peers ih =>
    obtain ⟨taken, htaken⟩ := ih
    refine ⟨((s.messages orders peer).length + taken.1,
      (attachmentPaths (s.messages orders peer)).length + taken.2), ?_⟩
    simp only [previewOf, forgetPreview, bind_eq_ok, pure, Except.pure, Except.ok.injEq]
    exact ⟨_, ⟨_, history_eq_ok.mpr ⟨rfl, rfl⟩, rfl⟩, taken, htaken, rfl⟩

theorem Covered.wipePreview_ok (h : s.Covered) (orders : Orders) :
    s.wipePreview .ok orders = .ok s.takes := by
  obtain ⟨taken, htaken⟩ := s.previewOf_ok orders
    ((orders.contacts s.contacts.keys).insertionSort fun a b => s.lastOp b ≤ s.lastOp a)
  have hpreview : s.wipePreview .ok orders =
      .ok (((orders.contacts s.contacts.keys).insertionSort fun a b =>
        s.lastOp b ≤ s.lastOp a).length, taken) := by
    simp only [wipePreview, bind_eq_ok, pure, Except.pure, Except.ok.injEq]
    exact ⟨_, rfl, taken, htaken, rfl⟩
  rw [hpreview, h.wipePreview_eq hpreview]

theorem get_settings_wiped (s : Store) (key : String) :
    (wiped s).settings.get key = if key = "prekey" then s.settings.get key else none := by
  rw [wiped, Table.get_deleteWhere]
  by_cases hkey : key = "prekey" <;> cases s.settings.get key <;> simp [hkey]

theorem Covered.wp_wipe (h : s.Covered) (io : Sqlite) (orders : Orders) :
    wp (Store.wipe io orders)
      (fun files s' => files.Perm s.paths ∧ s'.ops = .empty ∧ s'.rooms = .empty ∧
        s'.contacts = .empty ∧ ∀ key, s'.settings.get key =
          if key = "prekey" then s.settings.get key else none)
      (fun _ s' => s' = s) s := by
  simp only [Store.wipe, wp_bind, wp_get, wp_lift, wp_attempt, wp_modify, wp_pure]
  refine ⟨fun peers hpeers => ⟨fun files hfiles => ⟨fun _ => ?_, fun _ _ => trivial⟩,
    fun _ _ => trivial⟩, fun _ _ => trivial⟩
  have hall := h.opsOf_perm (nodup_peers hpeers) fun key hkey => (mem_peers hpeers key).mpr hkey
  exact ⟨(attachmentsOf_perm hfiles).trans (hall.filterMap _), rfl, rfl, rfl, get_settings_wiped s⟩

theorem succeeds_wipe (s : Store) (orders : Orders) :
    succeeds (Store.wipe .ok orders) s = true := by
  simp only [succeeds_iff, Store.wipe, wp_bind, wp_get, wp_lift, wp_attempt, wp_modify, wp_pure]
  refine ⟨fun peers _ => ⟨fun files _ => ⟨fun _ => trivial, fun _ herr => by cases herr⟩,
    fun err herr => ?_⟩, fun err herr => by cases herr⟩
  obtain ⟨files, hfiles⟩ := s.attachmentsOf_ok orders peers
  cases hfiles.symm.trans herr

theorem Covered.visible (h : s.Covered) : s.Visible where
  covered := h
  peers orders := by
    have hpeers : s.peers none orders = .ok _ := rfl
    exact ⟨_, hpeers, nodup_peers hpeers, fun key =>
      (mem_peers hpeers key).trans h.conversation_iff.symm⟩
  preview _ _ _ hpreview := h.wipePreview_eq hpreview
  previews := h.wipePreview_ok
  wipe := h.wp_wipe
  wipes := s.succeeds_wipe

end Store

end

/-- Whatever tables there were, whatever is called on them, wherever a call fails or the process
ends: when a store is open, all it holds is in sight. -/
theorem no_conversation_is_invisible (tables : Store) (calls : List DatabaseCall) :
    let db := run Database.step ⟨tables, false⟩ calls
    db.isOpen = true → db.tables.Visible := by
  intro db hopen
  have hcovered : db.isOpen = true → db.tables.Covered :=
    run_invariant Database.covered_step (fun h => by cases h) calls
  exact (hcovered hopen).visible

namespace Sample

open Core.Sample

/-- Tables from before there were contacts. -/
def uncontacted : Store :=
  { Store.fresh (key 1) with
    ops := .insertOrIgnore ⟨key 2, 1, 5⟩ (key 2, .file ⟨key 2, 1, 5⟩ "cat.png" 3 (key 0)) .empty }

/-- The file gets its place; a word of 3 fails between its two rows; the process ends in the
middle of a room, and comes up again. -/
def interrupted : List DatabaseCall :=
  [.reopen .ok (key 1), .access (.setFilePath .ok ⟨key 2, 1, 5⟩ "/files/cat.png"),
    .access (.record (fun n => if n = 1 then some "disk full" else none) (key 3)
      (.chat ⟨key 3, 1, 6⟩ "hi" none)),
    .access (.saveRoom (fun n => if n = 1 then some "killed" else none) kitchenRoom.id kitchen),
    .reopen .ok (key 1)]

end Sample

open Core.Sample Sample in
theorem no_conversation_is_invisible_interrupted :
    let db := run Database.step ⟨uncontacted, false⟩ interrupted
    db.tables.takes = (3, 1, 1) ∧ db.tables.Visible :=
  ⟨by decide +kernel, no_conversation_is_invisible uncontacted interrupted (by decide +kernel)⟩

end Wicara.Client
