import Wicara.Client.SealedStore
import Wicara.Lib.Refinement

namespace Wicara.Client

open Wicara.Core Lib Lib.Fallible Lib.Refinement Lib.Run

section Reveal

variable (A : Cipher) (D : Decoders)

def revealOp (vault : VaultKey) (row : Key × List UInt8) : Key × Frame :=
  (row.1, (openOp A D vault row.2).toOption.getD (.hello ""))

def revealLog (vault : VaultKey) (log : List UInt8) : List RoomEntry :=
  (openLog A D vault log).toOption.getD []

def revealText (vault : VaultKey) (sealed : List UInt8) : String :=
  (openText A vault sealed).toOption.getD ""

namespace SealedStore

/-- The store that is under the seals. -/
def reveal (s : SealedStore) : Store where
  me := s.me
  counter := s.counter
  ops := s.ops.mapValues (revealOp A D s.vault)
  rooms := s.rooms.mapValues (revealLog A D s.vault)
  settings := s.settings.mapValues (revealText A s.vault)
  contacts := s.contacts

def revealRow (s : SealedStore) (row : SealedRow) : OpRow := (row.1, revealOp A D s.vault row.2)

/-- All that is in the tables was sealed under the key. -/
structure Intact (s : SealedStore) : Prop where
  ops : ∀ row ∈ s.ops.rows, ∃ frame, openOp A D s.vault row.2.2 = .ok frame
  rooms : ∀ row ∈ s.rooms.rows, ∃ log, openLog A D s.vault row.2 = .ok log
  settings : ∀ row ∈ s.settings.rows, ∃ text, openText A s.vault row.2 = .ok text

/-- What an access starts from and comes to: tables sealed under one key. -/
def Under (vault : VaultKey) (s : SealedStore) : Prop := s.Intact A D ∧ s.vault = vault

end SealedStore

/-- The rows in the table that some rows are the revealed ones of. -/
def SealedStore.concealed (s : SealedStore) (rows : List OpRow) : List SealedRow :=
  rows.filterMap fun r => (s.ops.get r.1).map (Prod.mk r.1)

/-- The order in which the revealed rows come when the sealed rows come in theirs. -/
def SealedOrders.revealed (s : SealedStore) (orders : SealedOrders) : Orders where
  ops l :=
    if (s.concealed l).map (s.revealRow A D) = l then
      (orders.ops (s.concealed l)).map (s.revealRow A D)
    else l
  ops_perm l := by
    split
    case isTrue h =>
      refine ((orders.ops_perm _).map _).trans ?_
      rw [h]
    case isFalse h => exact .refl l
  contacts := orders.contacts
  contacts_perm := orders.contacts_perm
  reactions := orders.reactions
  reactions_perm := orders.reactions_perm

end Reveal

section Opening

variable {A : Cipher} {D : Decoders} {vault : VaultKey} {nonce : Nonce} {sealed : List UInt8}

theorem openOp_of_sealWith (hA : A.Lawful) {frame : Frame}
    (hread : D.frame frame.toStdvec = .ok frame)
    (h : vault.sealWith A nonce frame.toStdvec = .ok sealed) :
    openOp A D vault sealed = .ok frame := by
  rw [openOp, VaultKey.openWith_of_sealWith hA h]
  exact hread

theorem openLog_of_sealWith (hA : A.Lawful) {log : List RoomEntry}
    (hread : D.log (logToStdvec log) = .ok log)
    (h : vault.sealWith A nonce (logToStdvec log) = .ok sealed) :
    openLog A D vault sealed = .ok log := by
  rw [openLog, VaultKey.openWith_of_sealWith hA h]
  exact hread

theorem openText_of_sealWith (hA : A.Lawful) {text : String}
    (h : vault.sealWith A nonce (utf8 text) = .ok sealed) : openText A vault sealed = .ok text := by
  rw [openText, VaultKey.openWith_of_sealWith hA h]
  exact congrArg Except.ok (fromUtf8Lossy_utf8 text)

end Opening

/-- A loop that does not fail is a loop that cannot. -/
theorem foldlM_eq_ok {ε α β : Type} {f : β → α → Except ε β} {g : β → α → β} {l : List α}
    (h : ∀ a ∈ l, ∀ b, f b a = .ok (g b a)) (b : β) : l.foldlM f b = .ok (l.foldl g b) := by
  induction l generalizing b with
  | nil => rfl
  | cons a l ih =>
    rw [List.foldlM_cons, h a List.mem_cons_self]
    exact ih (fun a' ha' => h a' (.tail _ ha')) _

namespace SealedStore

variable {A : Cipher} {D : Decoders} {s : SealedStore} {vault : VaultKey}

section Reading

theorem setting_reveal (h : s.Intact A D) (io : Option String) (key : String) :
    s.setting A io key = (s.reveal A D).setting io key := by
  cases io with
  | some err => rfl
  | none =>
    rw [setting, Store.setting, reveal, Table.get_mapValues]
    cases hget : s.settings.get key with
    | none => rfl
    | some sealed =>
      obtain ⟨text, htext⟩ := h.settings _ (Table.get_eq_some.mp hget)
      simp only [htext, Option.map_some, revealText, Except.toOption, Option.getD_some]
      rfl

/-- Only a file asks the settings. -/
theorem op_empty {me : Key} {settings : Table String String} {fold : Fold} {id : MessageId}
    {peer : Key} {frame : Frame} (h : ∀ id name size hash, frame ≠ .file id name size hash) :
    fold.op me .empty (id, peer, frame) = fold.op me settings (id, peer, frame) := by
  cases frame with
  | file id name size hash => exact absurd rfl (h id name size hash)
  | _ => rfl

theorem foldRow_reveal (h : s.Intact A D) {row : SealedRow} (hrow : row ∈ s.ops.rows)
    (fold : Fold) :
    s.foldRow A D fold row = .ok (fold.op s.me (s.reveal A D).settings (s.revealRow A D row)) := by
  obtain ⟨id, peer, payload⟩ := row
  obtain ⟨frame, hframe⟩ := h.ops _ hrow
  have hreveal : s.revealRow A D (id, peer, payload) = (id, peer, frame) := by
    simp only [revealRow, revealOp, hframe, Except.toOption, Option.getD_some]
  rw [hreveal, foldRow, hframe]
  cases frame with
  | file _ name size hash =>
    change (do
      let path ← s.setting A none (fileKey id)
      pure (fold.push (Fold.message s.me id name none (some ⟨name, size, hash, path⟩)))) = _
    rw [setting_reveal h]
    rfl
  | _ => exact congrArg Except.ok (op_empty (by simp))

theorem concealed_map {rows : List SealedRow} (h : ∀ row ∈ rows, row ∈ s.ops.rows) :
    s.concealed (rows.map (s.revealRow A D)) = rows := by
  rw [concealed, List.filterMap_map]
  refine (List.filterMap_congr fun row hrow => ?_).trans (List.filterMap_some ..)
  have hget : s.ops.get row.1 = some row.2 := Table.get_eq_some.mpr (h row hrow)
  simp only [Function.comp_apply, revealRow, hget, Option.map_some]

theorem ops_revealed (orders : SealedOrders) {rows : List SealedRow}
    (h : ∀ row ∈ rows, row ∈ s.ops.rows) :
    (orders.revealed A D s).ops (rows.map (s.revealRow A D)) =
      (orders.ops rows).map (s.revealRow A D) := by
  simp only [SealedOrders.revealed, concealed_map h, if_true]

theorem conversation_reveal (orders : SealedOrders) (peer : Key) :
    (s.reveal A D).conversation (orders.revealed A D s) peer =
      (s.conversation orders peer).map (s.revealRow A D) := by
  have hfilter : ((s.reveal A D).ops.rows.filter fun r => r.2.1 = peer) =
      (s.ops.rows.filter fun r => r.2.1 = peer).map (s.revealRow A D) := by
    rw [reveal, Table.rows_mapValues, List.filter_map]
    rfl
  rw [Store.conversation, hfilter, ops_revealed orders fun row hrow => (List.mem_filter.mp hrow).1]
  exact (List.map_insertionSort SealedRow.before OpRow.before (s.revealRow A D) _
    fun _ _ _ _ => Iff.rfl).symm

theorem messages_reveal (h : s.Intact A D) (orders : SealedOrders) (peer : Key) :
    s.messages A D orders peer = .ok ((s.reveal A D).messages (orders.revealed A D s) peer) := by
  have hmem : ∀ row ∈ s.conversation orders peer, row ∈ s.ops.rows := by
    intro row hrow
    rw [conversation, List.mem_insertionSort, (orders.ops_perm _).mem_iff] at hrow
    exact (List.mem_filter.mp hrow).1
  rw [messages, foldlM_eq_ok (fun row hrow fold => foldRow_reveal h (hmem row hrow) fold),
    Store.messages, conversation_reveal, List.foldl_map]
  rfl

/-- What is read is what is under the seals. -/
theorem history_reveal (h : s.Intact A D) (io : Option String) (orders : SealedOrders) (peer : Key)
    (limit : Option Nat) :
    s.history A D io orders peer limit =
      (s.reveal A D).history io (orders.revealed A D s) peer limit := by
  cases io with
  | some err => rfl
  | none =>
    rw [history, messages_reveal h]
    rfl

theorem lastOp_reveal (peer : Key) : (s.reveal A D).lastOp peer = s.lastOp peer := by
  rw [Store.lastOp, lastOp, reveal, Table.rows_mapValues, List.filter_map, List.map_map]
  rfl

theorem peers_reveal (io : Option String) (orders : SealedOrders) :
    s.peers io orders = (s.reveal A D).peers io (orders.revealed A D s) := by
  cases io with
  | some err => rfl
  | none =>
    rw [peers, Store.peers]
    simp only [lastOp_reveal]
    rfl

theorem attachmentsOf_reveal (h : s.Intact A D) (io : Option String) (orders : SealedOrders)
    (peers : List Key) :
    s.attachmentsOf A D io orders peers =
      (s.reveal A D).attachmentsOf io (orders.revealed A D s) peers := by
  induction peers with
  | nil => rfl
  | cons peer peers ih => rw [attachmentsOf, Store.attachmentsOf, ih, history_reveal h]

theorem roomLogs_reveal (h : s.Intact A D) (io : Option String) :
    s.roomLogs A D io = match io with
      | some err => .error err
      | none => .ok (s.reveal A D).rooms.rows := by
  have hopen : ∀ rows ⊆ s.rooms.rows, openRooms A D s.vault rows =
      .ok (rows.map fun r => (r.1, revealLog A D s.vault r.2)) := by
    intro rows hrows
    induction rows with
    | nil => rfl
    | cons row rows ih =>
      obtain ⟨log, hlog⟩ := h.rooms row (hrows List.mem_cons_self)
      rw [openRooms, ih (List.subset_of_cons_subset hrows), hlog, List.map_cons, revealLog, hlog]
      rfl
  cases io with
  | some err => rfl
  | none => exact hopen _ (List.Subset.refl _)

end Reading

end SealedStore

end Wicara.Client
