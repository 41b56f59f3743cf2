import Wicara.Client.Store
import Wicara.Core.RoomLaws

namespace Wicara.Client

open Wicara.Core Lib

/-- What an op is the attachment of: the path is looked up under the key of its id. -/
def OpRow.attachment (settings : Table String String) : OpRow → Option Attachment
  | (id, _, .file _ name size hash) => some ⟨name, size, hash, settings.get (fileKey id)⟩
  | _ => none

/-- Where the file of an op is, if it is an attachment that has a place. -/
def OpRow.path (settings : Table String String) (row : OpRow) : Option String :=
  (row.attachment settings).bind Attachment.path

namespace Fold

/-- The attachments of a conversation, one after another. -/
def attachments (fold : Fold) : List Attachment := fold.messages.filterMap Message.attachment

theorem filterMap_modify {α β : Type*} {f : α → Option β} {g : α → α} (h : ∀ a, f (g a) = f a)
    (l : List α) (i : Nat) : (l.modify i g).filterMap f = l.filterMap f := by
  induction l generalizing i with
  | nil => simp
  | cons a l ih =>
    cases i with
    | zero => simp [List.filterMap_cons, h]
    | succ i => simp [List.filterMap_cons, ih]

theorem attachments_update {f : Message → Message} (h : ∀ m, (f m).attachment = m.attachment)
    (target : MessageId) (fold : Fold) : (fold.update target f).attachments = fold.attachments := by
  unfold update attachments
  split
  · exact filterMap_modify h _ _
  · rfl

theorem attachments_push (m : Message) (fold : Fold) :
    (fold.push m).attachments = fold.attachments ++ m.attachment.toList := by
  cases h : m.attachment <;> simp [push, attachments, h]

/-- An op adds its own attachment and does nothing to the others. -/
theorem attachments_op (me : Key) (settings : Table String String) (fold : Fold) (row : OpRow) :
    (fold.op me settings row).attachments =
      fold.attachments ++ (row.attachment settings).toList := by
  obtain ⟨id, peer, frame⟩ := row
  cases frame with
  | chat _ body replyTo => exact attachments_push _ _
  | file _ name size hash => exact attachments_push _ _
  | edit _ target body =>
    simp only [op, OpRow.attachment, Option.toList_none, List.append_nil]
    split
    · exact attachments_update (by intros; rfl) _ _
    · rfl
  | delete _ target =>
    simp only [op, OpRow.attachment, Option.toList_none, List.append_nil]
    split
    · exact attachments_update (by intros; rfl) _ _
    · rfl
  | _ => simp [op, OpRow.attachment, attachments]

theorem attachments_foldl_op (me : Key) (settings : Table String String) (rows : List OpRow)
    (fold : Fold) :
    (rows.foldl (op me settings) fold).attachments =
      fold.attachments ++ rows.filterMap (OpRow.attachment settings) := by
  induction rows generalizing fold with
  | nil => simp
  | cons row rows ih =>
    rw [List.foldl_cons, ih, attachments_op, List.append_assoc]
    cases h : row.attachment settings <;> simp [h]

theorem attachments_react (me : Key) (fold : Fold) (r : (MessageId × String × Key) × Bool) :
    (fold.react me r).attachments = fold.attachments := by
  obtain ⟨⟨target, emoji, reactor⟩, on⟩ := r
  cases on with
  | false => rfl
  | true => exact attachments_update (by intros; rfl) _ _

theorem attachments_foldl_react (me : Key) (rs : List ((MessageId × String × Key) × Bool))
    (fold : Fold) : (rs.foldl (react me) fold).attachments = fold.attachments := by
  induction rs generalizing fold with
  | nil => rfl
  | cons r rs ih => rw [List.foldl_cons, ih, attachments_react]

end Fold

namespace Store

theorem attachments_messages (orders : Orders) (peer : Key) (s : Store) :
    (s.messages orders peer).filterMap Message.attachment =
      (s.conversation orders peer).filterMap (OpRow.attachment s.settings) := by
  have hsort : ∀ m : Message, m.sortReactions.attachment = m.attachment := fun _ => rfl
  simp only [messages, List.filterMap_map, Function.comp_def, hsort]
  change Fold.attachments _ = _
  rw [Fold.attachments_foldl_react, Fold.attachments_foldl_op]
  rfl

/-- The paths of a conversation are those of its ops, in the order of the conversation. -/
theorem attachmentPaths_messages (orders : Orders) (peer : Key) (s : Store) :
    attachmentPaths (s.messages orders peer) =
      (s.conversation orders peer).filterMap (OpRow.path s.settings) := by
  have h := congrArg (List.filterMap Attachment.path) (s.attachments_messages orders peer)
  rwa [List.filterMap_filterMap, List.filterMap_filterMap] at h

theorem mem_conversation {orders : Orders} {peer : Key} {s : Store} {row : OpRow} :
    row ∈ s.conversation orders peer ↔ row ∈ s.ops.rows ∧ row.2.1 = peer := by
  rw [conversation, List.mem_insertionSort, (orders.ops_perm _).mem_iff]
  simp

theorem history_eq_ok {io : Option String} {orders : Orders} {peer : Key} {s : Store}
    {msgs : List Message} :
    s.history io orders peer none = .ok msgs ↔ io = none ∧ msgs = s.messages orders peer := by
  cases io with
  | some err => simp [history]
  | none => simp [history, eq_comm]

theorem mem_paths {orders : Orders} {peer : Key} {s : Store} {path : String} :
    path ∈ attachmentPaths (s.messages orders peer) ↔
      ∃ row ∈ s.ops.rows, row.2.1 = peer ∧ OpRow.path s.settings row = some path := by
  simp only [attachmentPaths_messages, List.mem_filterMap, mem_conversation, and_assoc]

/-- The paths `wipe` collects are those of the conversations it goes through. -/
theorem mem_attachmentsOf {io : Option String} {orders : Orders} {s : Store} {peers : List Key}
    {files : List String} (h : s.attachmentsOf io orders peers = .ok files) {path : String} :
    path ∈ files ↔ ∃ row ∈ s.ops.rows, row.2.1 ∈ peers ∧ OpRow.path s.settings row = some path := by
  induction peers generalizing files with
  | nil =>
    cases h
    simp
  | cons peer peers ih =>
    simp only [attachmentsOf, bind_eq_ok, pure, Except.pure, Except.ok.injEq] at h
    obtain ⟨msgs, hmsgs, rest, hrest, rfl⟩ := h
    obtain ⟨-, rfl⟩ := history_eq_ok.mp hmsgs
    simp only [List.mem_append, mem_paths, ih hrest, List.mem_cons, or_and_right, and_or_left,
      exists_or]

end Store

end Wicara.Client
