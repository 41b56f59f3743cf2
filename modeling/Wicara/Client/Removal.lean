import Wicara.Client.Convergence
import Wicara.Client.Provenance

namespace Wicara.Client

open Wicara.Core Lib Lib.Fallible

/-- The two ways to take one conversation off this machine, as `dispatch` calls them. -/
inductive Removal
  | clear
  | forget
  deriving DecidableEq

namespace Removal

/-- The settings that go beside those of the messages. -/
def names : Removal → Key → List String
  | .clear, _ => []
  | .forget, peer => [nickKey peer, aliasKey peer]

def run (io : Sqlite) (orders : Orders) (peer : Key) : Removal → EStateM String Store (List String)
  | .clear => Store.clear io orders peer
  | .forget => Store.forget io orders peer [nickKey peer, aliasKey peer]

end Removal

/-- An op shows up in `history` as a message. -/
def OpRow.posts (row : OpRow) : Bool :=
  match row.2.2 with
  | .chat _ _ _ | .file _ _ _ _ => true
  | _ => false

/-- The other conversation is as it was, none of its files is given up, and every other contact
has the names it had. -/
structure Untouched (orders : Orders) (peer other : Key) (s s' : Store) (files : List String) :
    Prop where
  history : ∀ io limit, s'.history io orders other limit = s.history io orders other limit
  files : ∀ io limit msgs, s.history io orders other limit = .ok msgs →
    ∀ path ∈ attachmentPaths msgs, path ∉ files
  names : ∀ contact ∈ s.contacts.keys, contact ≠ peer →
    s'.settings.get (nickKey contact) = s.settings.get (nickKey contact) ∧
      s'.settings.get (aliasKey contact) = s.settings.get (aliasKey contact)

/-- The two conversations have nothing under one name: no attachment of the other has a path
under the display of a message of this one, or the path of an attachment of this one; and if names
are removed, no other contact has them by the same first bytes. -/
structure Removal.Apart (r : Removal) (peer other : Key) (s : Store) : Prop where
  displays : ∀ row ∈ s.ops.rows, row.2.1 = peer → OpRow.posts row = true →
    ∀ row' ∈ s.ops.rows, row'.2.1 = other → OpRow.path s.settings row' ≠ none →
      row.1.display ≠ row'.1.display
  paths : ∀ row ∈ s.ops.rows, row.2.1 = peer → ∀ path, OpRow.path s.settings row = some path →
    ∀ row' ∈ s.ops.rows, row'.2.1 = other → OpRow.path s.settings row' ≠ some path
  names : ∀ contact ∈ s.contacts.keys, contact ≠ peer → short contact = short peer →
    ∀ name ∈ r.names peer, s.settings.get name = none

theorem fileKey_inj {id id' : MessageId} : fileKey id = fileKey id' ↔ id.display = id'.display :=
  String.append_right_inj _

theorem nickKey_inj {k k' : Key} : nickKey k = nickKey k' ↔ short k = short k' :=
  String.append_right_inj _

theorem aliasKey_inj {k k' : Key} : aliasKey k = aliasKey k' ↔ short k = short k' :=
  String.append_right_inj _

theorem nickKey_ne_aliasKey (k k' : Key) : nickKey k ≠ aliasKey k' := by
  intro h
  have := congrArg (fun s => s.toList.head?) h
  simp [nickKey, aliasKey] at this

theorem OpRow.posts_eq (me : Key) (settings : Table String String) (row : OpRow) :
    row.posts = (row.posted me settings).isSome := by
  obtain ⟨id, peer, frame⟩ := row
  cases frame <;> rfl

/-- A conversation shows one message for each op that posts one, in their order. -/
theorem ids_content (me : Key) (settings : Table String String) (rows : List OpRow) :
    (content me settings rows).map Message.id = (rows.filter OpRow.posts).map Prod.fst := by
  induction rows with
  | nil => rfl
  | cons row rows ih =>
    rw [content, List.map_append, ih, List.filter_cons, row.posts_eq me settings]
    cases hposted : row.posted me settings with
    | none => rfl
    | some m => simp [OpRow.id_posted hposted]

namespace Store

variable {s s' : Store} {orders : Orders} {peer other : Key}

theorem ids_messages (orders : Orders) (peer : Key) (s : Store) :
    (s.messages orders peer).map Message.id =
      ((s.conversation orders peer).filter OpRow.posts).map Prod.fst := by
  rw [← ids_content s.me s.settings, messages_eq, List.map_map]
  rfl

/-- The ids of the messages that are shown are those of the ops that post one. -/
theorem id_mem_messages {id : MessageId} :
    id ∈ (s.messages orders peer).map Message.id ↔
      ∃ row ∈ s.ops.rows, row.2.1 = peer ∧ OpRow.posts row = true ∧ row.1 = id := by
  rw [ids_messages]
  simp only [List.mem_map, List.mem_filter, mem_conversation, and_assoc]

theorem op_eq_of_attachment {me : Key} {settings settings' : Table String String} {row : OpRow}
    (h : row.attachment settings = row.attachment settings') (fold : Fold) :
    fold.op me settings row = fold.op me settings' row := by
  obtain ⟨id, peer, frame⟩ := row
  cases frame with
  | file id' name size hash =>
    simp only [OpRow.attachment, Option.some.injEq, Attachment.mk.injEq] at h
    simp [Fold.op, h]
  | _ => rfl

theorem filterMap_inj_of_isSome {α β : Type*} {f g : α → Option β}
    (hsome : ∀ a, (f a).isSome = (g a).isSome) {l : List α}
    (h : l.filterMap f = l.filterMap g) : ∀ a ∈ l, f a = g a := by
  induction l with
  | nil => simp
  | cons a l ih =>
    have ha := hsome a
    rw [List.filterMap_cons, List.filterMap_cons] at h
    cases hf : f a with
    | none =>
      have hg : g a = none := by simpa [hf] using ha.symm
      rw [hf, hg] at h
      exact List.forall_mem_cons.mpr ⟨hf.trans hg.symm, ih h⟩
    | some b =>
      obtain ⟨b', hg⟩ := Option.isSome_iff_exists.mp (ha.symm.trans (by rw [hf]; rfl))
      rw [hf, hg] at h
      obtain ⟨rfl, htail⟩ := List.cons.inj h
      exact List.forall_mem_cons.mpr ⟨hf.trans hg.symm, ih htail⟩

/-- With the same ops in it, a conversation is the same exactly when its attachments are where
they were. -/
theorem messages_eq_iff_attachment (hme : s'.me = s.me)
    (hconversation : s'.conversation orders other = s.conversation orders other) :
    s'.messages orders other = s.messages orders other ↔
      ∀ row ∈ s.ops.rows, row.2.1 = other →
        OpRow.attachment s'.settings row = OpRow.attachment s.settings row := by
  constructor
  · intro h row hrow hpeer
    have hattachments := congrArg (List.filterMap Message.attachment) h
    rw [attachments_messages, attachments_messages, hconversation] at hattachments
    refine filterMap_inj_of_isSome (fun row => ?_) hattachments row
      (mem_conversation.mpr ⟨hrow, hpeer⟩)
    unfold OpRow.attachment
    split <;> rfl
  · intro h
    have hfold : (s'.conversation orders other).foldl (Fold.op s'.me s'.settings) .empty =
        (s.conversation orders other).foldl (Fold.op s.me s.settings) .empty := by
      rw [hconversation, hme]
      refine List.foldl_ext _ _ _ fun fold row hrow => op_eq_of_attachment ?_ fold
      exact h row (mem_conversation.mp hrow).1 (mem_conversation.mp hrow).2
    rw [messages, messages, hfold, hme]

theorem conversation_deleteWhere (hops : s'.ops = s.ops.deleteWhere fun _ row => row.1 = peer)
    (h : other ≠ peer) : s'.conversation orders other = s.conversation orders other := by
  have hrows : (s'.ops.rows.filter fun row => row.2.1 = other) =
      s.ops.rows.filter fun row => row.2.1 = other := by
    rw [hops, Table.deleteWhere, List.filter_filter]
    refine List.filter_congr fun row _ => ?_
    by_cases hrow : row.2.1 = other
    · simp [hrow, h]
    · simp [hrow]
  rw [conversation, conversation, hrows]

end Store

/-- What a removal that goes through makes of the store. -/
structure Removal.Carried (r : Removal) (orders : Orders) (peer : Key) (s s' : Store)
    (files : List String) : Prop where
  me : s'.me = s.me
  ops : s'.ops = s.ops.deleteWhere fun _ row => row.1 = peer
  settings : ∀ key, s'.settings.get key = (s.settings.get key).filter fun _ =>
    !decide (key ∈ (s.messages orders peer).map (fun m => fileKey m.id) ∨ key ∈ r.names peer)
  files : files = attachmentPaths (s.messages orders peer)

namespace Removal

variable {r : Removal} {io : Sqlite} {orders : Orders} {peer other : Key} {s s' : Store}
  {files : List String}

/-- A removal goes through, or leaves everything as it was. -/
theorem wp_run (r : Removal) (io : Sqlite) (orders : Orders) (peer : Key) (s : Store) :
    wp (r.run io orders peer) (fun files s' => r.Carried orders peer s s' files)
      (fun _ s' => s' = s) s := by
  cases r with
  | clear =>
    simp only [run, Store.clear, wp_bind, wp_get, wp_lift, wp_attempt, wp_modify, wp_pure]
    refine ⟨fun msgs hmsgs => ⟨fun _ => ?_, fun _ _ => trivial⟩, fun _ _ => trivial⟩
    obtain ⟨-, rfl⟩ := Store.history_eq_ok.mp hmsgs
    exact ⟨rfl, rfl, fun key => by simp [Store.cleared, Table.get_deleteWhere, names], rfl⟩
  | forget =>
    simp only [run, Store.forget, wp_bind, wp_get, wp_lift, wp_attempt, wp_modify, wp_pure]
    refine ⟨fun msgs hmsgs => ⟨fun _ => ?_, fun _ _ => trivial⟩, fun _ _ => trivial⟩
    obtain ⟨-, rfl⟩ := Store.history_eq_ok.mp hmsgs
    exact ⟨rfl, rfl, fun key => by simp [Store.forgotten, Table.get_deleteWhere, names], rfl⟩

theorem Carried.get_eq_iff (h : r.Carried orders peer s s' files) (key : String) :
    s'.settings.get key = s.settings.get key ↔ s.settings.get key = none ∨
      key ∉ (s.messages orders peer).map (fun m => fileKey m.id) ∧ key ∉ r.names peer := by
  rw [h.settings]
  cases s.settings.get key with
  | none => simp
  | some value => simp [Option.filter_eq_some_iff]

theorem fileKey_not_mem_names (id : MessageId) : fileKey id ∉ r.names peer := by
  cases r with
  | clear => exact List.not_mem_nil
  | forget =>
    simp only [names, List.mem_cons, List.not_mem_nil, or_false, not_or]
    exact ⟨fileKey_ne_key id (.nick peer), fileKey_ne_key id (.aliased peer)⟩

theorem key_not_mem_files (key : NameKey) (msgs : List Message) :
    key.key ∉ msgs.map fun m => fileKey m.id := by
  intro hmem
  obtain ⟨m, -, hm⟩ := List.mem_map.mp hmem
  exact fileKey_ne_key m.id key hm

theorem Carried.attachment_eq_iff (h : r.Carried orders peer s s' files) (row : OpRow) :
    row.attachment s'.settings = row.attachment s.settings ↔
      (row.path s.settings ≠ none → ∀ id ∈ (s.messages orders peer).map Message.id,
        id.display ≠ row.1.display) := by
  obtain ⟨id, conversation, frame⟩ := row
  cases frame with
  | file _ name size hash =>
    have hget := h.get_eq_iff (fileKey id)
    have hmem : fileKey id ∈ (s.messages orders peer).map (fun m => fileKey m.id) ↔
        ∃ id' ∈ (s.messages orders peer).map Message.id, id'.display = id.display := by
      simp [List.mem_map, fileKey_inj]
    rw [hmem, and_iff_left (fileKey_not_mem_names id)] at hget
    simp only [OpRow.attachment, OpRow.path, Option.bind_some, Option.some.injEq,
      Attachment.mk.injEq, true_and, hget, or_iff_not_imp_left, not_exists, not_and, ne_eq]
  | _ => simp [OpRow.attachment, OpRow.path]

theorem history_eq_iff {s s' : Store} {orders : Orders} {other : Key} :
    (∀ io limit, s'.history io orders other limit = s.history io orders other limit) ↔
      s'.messages orders other = s.messages orders other := by
  constructor
  · intro hsame
    simpa [Store.history] using hsame none none
  · intro hsame io limit
    simp only [Store.history, hsame]

theorem Carried.history_iff (h : r.Carried orders peer s s' files) (hne : other ≠ peer) :
    (∀ io limit, s'.history io orders other limit = s.history io orders other limit) ↔
      ∀ row ∈ s.ops.rows, row.2.1 = peer → OpRow.posts row = true →
        ∀ row' ∈ s.ops.rows, row'.2.1 = other → OpRow.path s.settings row' ≠ none →
          row.1.display ≠ row'.1.display := by
  rw [history_eq_iff,
    Store.messages_eq_iff_attachment h.me (Store.conversation_deleteWhere h.ops hne)]
  simp only [h.attachment_eq_iff, Store.id_mem_messages]
  constructor
  · intro hsame row hrow hpeer hposts row' hrow' hother hpath
    exact hsame row' hrow' hother hpath row.1 ⟨row, hrow, hpeer, hposts, rfl⟩
  · rintro hapart row' hrow' hother hpath _ ⟨row, hrow, hpeer, hposts, rfl⟩
    exact hapart row hrow hpeer hposts row' hrow' hother hpath

theorem Carried.files_iff (h : r.Carried orders peer s s' files) :
    (∀ io limit msgs, s.history io orders other limit = .ok msgs →
      ∀ path ∈ attachmentPaths msgs, path ∉ files) ↔
      ∀ row ∈ s.ops.rows, row.2.1 = peer → ∀ path, OpRow.path s.settings row = some path →
        ∀ row' ∈ s.ops.rows, row'.2.1 = other → OpRow.path s.settings row' ≠ some path := by
  rw [h.files]
  constructor
  · intro hkept row hrow hpeer path hpath row' hrow' hother hpath'
    refine hkept none none _ (Store.history_eq_ok.mpr ⟨rfl, rfl⟩) path ?_ ?_
    · exact Store.mem_paths.mpr ⟨row', hrow', hother, hpath'⟩
    · exact Store.mem_paths.mpr ⟨row, hrow, hpeer, hpath⟩
  · intro hapart io limit msgs hmsgs path hpath hgiven
    have hshown : path ∈ attachmentPaths (s.messages orders other) := by
      cases io with
      | some err => cases hmsgs
      | none =>
        cases hmsgs
        exact ((List.drop_sublist _ _).filterMap _).subset hpath
    obtain ⟨row', hrow', hother, hpath'⟩ := Store.mem_paths.mp hshown
    obtain ⟨row, hrow, hpeer, hpath⟩ := Store.mem_paths.mp hgiven
    exact hapart row hrow hpeer path hpath row' hrow' hother hpath'

theorem Carried.names_iff (h : r.Carried orders peer s s' files) (contact : Key) :
    (s'.settings.get (nickKey contact) = s.settings.get (nickKey contact) ∧
      s'.settings.get (aliasKey contact) = s.settings.get (aliasKey contact)) ↔
      (short contact = short peer → ∀ name ∈ r.names peer, s.settings.get name = none) := by
  have hnick : nickKey contact ∉ (s.messages orders peer).map (fun m => fileKey m.id) :=
    key_not_mem_files (.nick contact) _
  have halias : aliasKey contact ∉ (s.messages orders peer).map (fun m => fileKey m.id) :=
    key_not_mem_files (.aliased contact) _
  rw [h.get_eq_iff, h.get_eq_iff, and_iff_right hnick, and_iff_right halias]
  cases r with
  | clear => simp [names]
  | forget =>
    have hshort : nickKey contact ∈ names .forget peer ↔ short contact = short peer := by
      simp [names, nickKey_inj, nickKey_ne_aliasKey]
    have hshort' : aliasKey contact ∈ names .forget peer ↔ short contact = short peer := by
      simp [names, aliasKey_inj, (nickKey_ne_aliasKey _ _).symm]
    rw [hshort, hshort']
    by_cases heq : short contact = short peer
    · simp [names, heq, nickKey_inj.mpr heq, aliasKey_inj.mpr heq]
    · simp [heq]

/-- A removal that goes through leaves another conversation alone exactly when the two have
nothing under one name; one that does not changes nothing. -/
theorem untouched_iff_apart (r : Removal) (io : Sqlite) (orders : Orders) {peer other : Key}
    (hne : other ≠ peer) (s : Store) :
    wp (r.run io orders peer)
      (fun files s' => Untouched orders peer other s s' files ↔ r.Apart peer other s)
      (fun _ s' => s' = s) s := by
  refine wp_mono (fun files s' h => ?_) (fun _ _ h => h) (wp_run r io orders peer s)
  constructor
  · intro hkept
    exact ⟨(h.history_iff hne).mp hkept.history, h.files_iff.mp hkept.files,
      fun contact hcontact hother => (h.names_iff contact).mp (hkept.names contact hcontact hother)⟩
  · intro hapart
    exact ⟨(h.history_iff hne).mpr hapart.displays, h.files_iff.mpr hapart.paths,
      fun contact hcontact hother =>
        (h.names_iff contact).mpr (hapart.names contact hcontact hother)⟩

end Removal

namespace Sample

open Core.Sample

/-- A key that begins as 3's does. -/
def twin : Key := ⟨List.replicate 5 3 ++ List.replicate 27 0, rfl⟩

def cat : String := "/home/user/.local/share/wicara/files/03030303-7-cat.png"

/-- 1 has sent one photo to 2 and to 3, 3 has said something, and the twin, whom 1 calls Carol,
has sent a picture. -/
def mingled : Store :=
  after (do
    let _ ← Store.record .ok (key 2) (.file ⟨key 1, 1, 5⟩ "photo.jpg" 4 (crypto.blake3 bytes))
    Store.setFilePath .ok ⟨key 1, 1, 5⟩ photo
    let _ ← Store.record .ok (key 3) (.file ⟨key 1, 2, 6⟩ "photo.jpg" 4 (crypto.blake3 bytes))
    Store.setFilePath .ok ⟨key 1, 2, 6⟩ photo
    let _ ← Store.record .ok (key 3) (.chat ⟨key 3, 7, 8⟩ "nice" none)
    let _ ← Store.record .ok twin (.file ⟨twin, 7, 9⟩ "cat.png" 4 (crypto.blake3 bytes))
    Store.setFilePath .ok ⟨twin, 7, 9⟩ cat
    Store.setSetting .ok (aliasKey twin) "Carol") (Store.fresh (key 1))

end Sample

open Core.Sample Sample in
/-- Forgetting 3 gives up the file that the conversation with 2 shows, and takes the picture and
the name from the twin. -/
theorem forgetting_one_touches_two :
    let s' := after (Removal.forget.run .ok .asStored (key 3)) mingled
    (Removal.forget.run .ok .asStored (key 3)).run mingled = .ok [photo] s' ∧
    attachmentPaths (mingled.messages .asStored (key 2)) = [photo] ∧
    attachmentPaths (mingled.messages .asStored twin) = [cat] ∧
    attachmentPaths (s'.messages .asStored twin) = [] ∧
    mingled.settings.get (aliasKey twin) = some "Carol" ∧
    s'.settings.get (aliasKey twin) = none ∧
    ¬Untouched .asStored (key 3) (key 2) mingled s' [photo] ∧
    ¬Untouched .asStored (key 3) twin mingled s' [photo] := by
  have hsent : attachmentPaths (mingled.messages .asStored (key 2)) = [photo] := by decide +kernel
  have hgiven : attachmentPaths (mingled.messages .asStored (key 3)) = [photo] := by decide +kernel
  have hbefore : mingled.settings.get (aliasKey twin) = some "Carol" := by decide +kernel
  have hafter : (after (Removal.forget.run .ok .asStored (key 3)) mingled).settings.get
      (aliasKey twin) = none := by
    decide +kernel
  have hruns : Fallible.succeeds (Removal.forget.run .ok .asStored (key 3)) mingled = true := by
    decide +kernel
  have hcarried := Removal.wp_run .forget .ok .asStored (key 3) mingled
  refine ⟨?_, hsent, by decide +kernel, by decide +kernel, hbefore, hafter, fun h => ?_,
    fun h => ?_⟩
  · unfold wp at hcarried
    unfold Fallible.succeeds at hruns
    unfold after
    cases hrun : (Removal.forget.run .ok .asStored (key 3)).run mingled with
    | ok files s' =>
      rw [hrun] at hcarried
      rw [hcarried.files, hgiven]
    | error err s' => simp [hrun] at hruns
  · refine h.files none none _ (Store.history_eq_ok.mpr ⟨rfl, rfl⟩) photo ?_ (.head _)
    rw [hsent]
    exact .head _
  · have hname := (h.names twin (by decide +kernel) (by decide +kernel)).2
    rw [hbefore, hafter] at hname
    cases hname

open Core.Sample Sample in
/-- The conversation with 2 has nothing in common with that of the twin. -/
theorem untouched_iff_apart_twin :
    wp (Removal.clear.run .ok .asStored twin)
      (fun files s' => Untouched .asStored twin (key 2) mingled s' files ↔
        Removal.clear.Apart twin (key 2) mingled)
      (fun _ s' => s' = mingled) mingled :=
  Removal.untouched_iff_apart .clear .ok .asStored (by decide +kernel) mingled

end Wicara.Client
