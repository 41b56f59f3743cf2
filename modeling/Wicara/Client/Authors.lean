import Wicara.Client.Convergence
import Wicara.Core.Sample

namespace Wicara.Client

open Wicara.Core Lib Lib.Arrange

/-- What only the author of a message can say: all of it but the reactions and where on this
machine an attachment is. -/
structure Authored where
  id : MessageId
  body : String
  deleted : Bool
  replyTo : Option MessageId
  attachment : Option (String × UInt64 × Bytes 32)
  deriving DecidableEq

def Message.authored (m : Message) : Authored where
  id := m.id
  body := m.body
  deleted := m.deleted
  replyTo := m.replyTo
  attachment := m.attachment.map fun a => (a.name, a.size, a.hash)

namespace OpRow

theorem authored_posted (me me' : Key) (settings settings' : Table String String)
    (row : OpRow) : (row.posted me settings).map Message.authored =
      (row.posted me' settings').map Message.authored := by
  unfold posted
  split <;> rfl

theorem authored_revise {m m' : Message} (h : m.authored = m'.authored) (row : OpRow) :
    (revise m row).authored = (revise m' row).authored := by
  have hid : m.id = m'.id := congrArg Authored.id h
  simp only [Message.authored, Authored.mk.injEq] at h
  obtain ⟨-, hbody, hdeleted, hreply, hattachment⟩ := h
  unfold revise
  split
  · rw [hid]
    split <;> simp [Message.authored, hid, hbody, hdeleted, hreply, hattachment]
  · rw [hid]
    split <;> simp [Message.authored, hid, hbody, hdeleted, hreply, hattachment]
  · simp [Message.authored, hid, hbody, hdeleted, hreply, hattachment]

theorem authored_foldl_revise {m m' : Message} (h : m.authored = m'.authored)
    (rows : List OpRow) :
    (rows.foldl revise m).authored = (rows.foldl revise m').authored := by
  induction rows generalizing m m' with
  | nil => exact h
  | cons row rows ih => exact ih (authored_revise h row)

end OpRow

theorem authored_content (me me' : Key) (settings settings' : Table String String)
    (rows : List OpRow) :
    (content me settings rows).map Message.authored =
      (content me' settings' rows).map Message.authored := by
  induction rows with
  | nil => rfl
  | cons row rows ih =>
    have hposted := OpRow.authored_posted me me' settings settings' row
    rw [content, content, List.map_append, List.map_append, ih]
    congr 1
    cases h : row.posted me settings with
    | none =>
      rw [h] at hposted
      rw [Option.map_eq_none_iff.mp hposted.symm]
    | some m =>
      rw [h] at hposted
      obtain ⟨m', hm', heq⟩ := Option.map_eq_some_iff.mp hposted.symm
      rw [hm']
      simp [OpRow.authored_foldl_revise heq.symm rows]

/-- Who reacts to a message with an emoji, as the reactions stand. -/
def reactors (id : MessageId) (emoji : String) (rs : List ((MessageId × String × Key) × Bool)) :
    List Key :=
  (rs.filter fun r => r.1.1 = id ∧ r.1.2.1 = emoji ∧ r.2 = true).map fun r => r.1.2.2

/-- The slot of an emoji that these have reacted with. -/
def slotOf (me : Key) (ks : List Key) : Option (Nat × Bool) :=
  if ks = [] then none else some (ks.length, ks.any fun k => k = me)

theorem tallySlot_slotOf (me : Key) (id : MessageId) (emoji : String) (ks : List Key)
    (r : (MessageId × String × Key) × Bool) :
    tallySlot me id emoji (slotOf me ks) r = slotOf me (ks ++ reactors id emoji [r]) := by
  obtain ⟨⟨target, emoji', reactor⟩, on⟩ := r
  cases on with
  | false => simp [tallySlot, reactors]
  | true =>
    by_cases h : id = target ∧ emoji = emoji'
    · obtain ⟨rfl, rfl⟩ := h
      have hme : decide (reactor = me) = decide (me = reactor) := decide_eq_decide.mpr eq_comm
      cases ks <;> simp [tallySlot, reactors, slotOf, hme, Bool.or_assoc]
    · have h' : ¬(target = id ∧ emoji' = emoji) := fun h' => h ⟨h'.1.symm, h'.2.symm⟩
      simp [tallySlot, reactors, h, h']

theorem foldl_tallySlot (me : Key) (id : MessageId) (emoji : String)
    (rs : List ((MessageId × String × Key) × Bool)) (ks : List Key) :
    rs.foldl (tallySlot me id emoji) (slotOf me ks) = slotOf me (ks ++ reactors id emoji rs) := by
  induction rs generalizing ks with
  | nil => simp [reactors]
  | cons r rs ih =>
    rw [List.foldl_cons, tallySlot_slotOf, ih, List.append_assoc]
    simp only [reactors, ← List.map_append, ← List.filter_append, List.singleton_append]

theorem slotOf_perm (me : Key) {ks ks' : List Key} (h : ks.Perm ks') :
    slotOf me ks = slotOf me ks' := by
  have hnil : ks = [] ↔ ks' = [] := by rw [← List.length_eq_zero_iff, h.length_eq,
    List.length_eq_zero_iff]
  simp only [slotOf, hnil, h.length_eq, h.any_eq]

theorem mem_reactors {id : MessageId} {emoji : String}
    {rs : List ((MessageId × String × Key) × Bool)} {reactor : Key} :
    reactor ∈ reactors id emoji rs ↔ ((id, emoji, reactor), true) ∈ rs := by
  simp only [reactors, List.mem_map, List.mem_filter, decide_eq_true_eq]
  constructor
  · rintro ⟨⟨⟨id', emoji', reactor'⟩, on⟩, ⟨hr, rfl, rfl, rfl⟩, rfl⟩
    exact hr
  · exact fun hr => ⟨_, ⟨hr, rfl, rfl, rfl⟩, rfl⟩

theorem nodup_reactors {id : MessageId} {emoji : String}
    {rs : List ((MessageId × String × Key) × Bool)} (h : (rs.map Prod.fst).Nodup) :
    (reactors id emoji rs).Nodup := by
  refine List.Nodup.map_on ?_ (h.of_map.filter _)
  rintro ⟨⟨id', emoji', reactor'⟩, on⟩ hr ⟨⟨id'', emoji'', reactor''⟩, on'⟩ hr' hreactor
  simp only [List.mem_filter, decide_eq_true_eq] at hr hr'
  obtain ⟨-, rfl, rfl, rfl⟩ := hr
  obtain ⟨-, rfl, rfl, rfl⟩ := hr'
  obtain rfl : reactor' = reactor'' := hreactor
  rfl

namespace Store

variable {s s' : Store} {orders orders' : Orders} {peer sender : Key}

theorem authored_messages (orders : Orders) (peer : Key) (s : Store) :
    (s.messages orders peer).map Message.authored =
      (content s.me s.settings (s.conversation orders peer)).map Message.authored := by
  rw [messages_eq, List.map_map]
  rfl

theorem filter_authored (author : Key) (msgs : List Message) :
    (msgs.map Message.authored).filter (fun m => m.id.sender = author) =
      (msgs.filter fun m => m.id.sender = author).map Message.authored := by
  rw [List.filter_map]
  rfl

/-- An author's messages are what its own ops say. -/
theorem SameOf.authored (h : s.SameOf peer sender s') :
    ((s.messages orders peer).filter fun m => m.id.sender = sender).map Message.authored =
      ((s'.messages orders' peer).filter fun m => m.id.sender = sender).map Message.authored := by
  have hsame : ((s.conversation orders peer).filter fun row => row.1.sender = sender) =
      (s'.conversation orders' peer).filter fun row => row.1.sender = sender :=
    h.filter_conversation
  rw [← filter_authored, ← filter_authored, authored_messages, authored_messages,
    filter_authored, filter_authored, filter_content, filter_content, hsame]
  exact authored_content _ _ _ _ _

/-- A reactor's entries are what its own ops say. -/
theorem SameOf.entry (h : s.SameOf peer sender s') (id : MessageId) (emoji : String) :
    (s.reactions orders peer).get (id, emoji, sender) =
      (s'.reactions orders' peer).get (id, emoji, sender) := by
  have hsame : ((s.conversation orders peer).filter fun row => row.1.sender = sender) =
      (s'.conversation orders' peer).filter fun row => row.1.sender = sender :=
    h.filter_conversation
  rw [get_reactions, get_reactions, ← foldl_settle_filter, hsame]
  exact foldl_settle_filter _ _ _

/-- What there is of the reactions to a message before they are sorted. -/
theorem exists_tallied {m : Message} (hm : m ∈ s.messages orders peer) :
    ∃ slots : List (String × Nat × Bool), (slots.map Prod.fst).Nodup ∧
      m.reactions = slots.insertionSort (fun a b => a.1 ≤ b.1) ∧
      ∀ emoji, slots.lookup emoji =
        slotOf s.me (reactors m.id emoji (orders.reactions (s.reactions orders peer).rows)) := by
  rw [messages_eq, List.mem_map] at hm
  obtain ⟨m, hm, rfl⟩ := hm
  have hnone := reactions_of_mem_content hm
  refine ⟨_, nodup_foldl_tally _ ?_, rfl, fun emoji => ?_⟩
  · rw [hnone]
    exact List.nodup_nil
  · rw [hnone, lookup_foldl_tally]
    exact foldl_tallySlot s.me m.id emoji _ []

theorem mem_reactors_iff_entry {id : MessageId} {emoji : String} {reactor : Key} :
    reactor ∈ reactors id emoji (orders.reactions (s.reactions orders peer).rows) ↔
      (s.reactions orders peer).get (id, emoji, reactor) = some true := by
  rw [Table.get_eq_some, mem_reactors]
  exact (orders.reactions_perm _).mem_iff

theorem nodup_reactors_reactions (id : MessageId) (emoji : String) :
    (reactors id emoji (orders.reactions (s.reactions orders peer).rows)).Nodup :=
  nodup_reactors (((orders.reactions_perm _).map Prod.fst).nodup_iff.mpr
    (s.reactions orders peer).nodup)

/-- The entries of a message are all there is to the reactions it shows. -/
theorem reactions_eq_of_entries {m m' : Message} (hm : m ∈ s.messages orders peer)
    (hm' : m' ∈ s'.messages orders' peer) (hid : m.id = m'.id) (hme : s.me = s'.me)
    (hentries : ∀ emoji reactor, (s.reactions orders peer).get (m.id, emoji, reactor) =
      (s'.reactions orders' peer).get (m.id, emoji, reactor)) : m.reactions = m'.reactions := by
  obtain ⟨slots, hnodup, hm, hlookup⟩ := exists_tallied hm
  obtain ⟨slots', hnodup', hm', hlookup'⟩ := exists_tallied hm'
  rw [hm, hm']
  refine insertionSort_eq_of_lookup hnodup hnodup' fun emoji => ?_
  rw [hlookup, hlookup', ← hid, ← hme]
  refine slotOf_perm s.me ?_
  rw [List.perm_ext_iff_of_nodup (nodup_reactors_reactions m.id emoji)
    (nodup_reactors_reactions m.id emoji)]
  intro reactor
  rw [mem_reactors_iff_entry, mem_reactors_iff_entry, hentries]

/-- Next to an emoji a message shows those whose entries are on. -/
theorem exists_reactors {m : Message} (hm : m ∈ s.messages orders peer) (emoji : String) :
    ∃ ks : List Key, ks.Nodup ∧
      (∀ reactor, reactor ∈ ks ↔
        (s.reactions orders peer).get (m.id, emoji, reactor) = some true) ∧
      m.reactions.lookup emoji = slotOf s.me ks := by
  obtain ⟨slots, hnodup, hreactions, hlookup⟩ := exists_tallied hm
  refine ⟨_, nodup_reactors_reactions m.id emoji, fun _ => mem_reactors_iff_entry, ?_⟩
  rw [hreactions, lookup_insertionSort hnodup, hlookup]

end Store

/-- Whatever ops of others there are or are not, a message says what its author's ops make it say;
an op of another gets at it through the entries of its own sender among the reactions, and a
message shows how many have reacted with an emoji and whether this endpoint has. -/
theorem only_the_author_alters_a_message {s s' : Store} {orders orders' : Orders} {peer : Key}
    {msgs msgs' : List Message} (h : s.history none orders peer none = .ok msgs)
    (h' : s'.history none orders' peer none = .ok msgs') :
    (∀ author, s.SameOf peer author s' →
      (msgs.filter fun m => m.id.sender = author).map Message.authored =
        (msgs'.filter fun m => m.id.sender = author).map Message.authored) ∧
    (∀ reactor, s.SameOf peer reactor s' → ∀ id emoji,
      (s.reactions orders peer).get (id, emoji, reactor) =
        (s'.reactions orders' peer).get (id, emoji, reactor)) ∧
    (s.me = s'.me → ∀ m ∈ msgs, ∀ m' ∈ msgs', m.id = m'.id →
      (∀ emoji reactor, (s.reactions orders peer).get (m.id, emoji, reactor) =
        (s'.reactions orders' peer).get (m.id, emoji, reactor)) → m.reactions = m'.reactions) ∧
    ∀ m ∈ msgs, ∀ emoji, ∃ ks : List Key, ks.Nodup ∧
      (∀ reactor, reactor ∈ ks ↔
        (s.reactions orders peer).get (m.id, emoji, reactor) = some true) ∧
      m.reactions.lookup emoji = slotOf s.me ks := by
  obtain ⟨-, rfl⟩ := Store.history_eq_ok.mp h
  obtain ⟨-, rfl⟩ := Store.history_eq_ok.mp h'
  refine ⟨fun author hsame => hsame.authored, fun reactor hsame => hsame.entry, ?_, ?_⟩
  · exact fun hme m hm m' hm' hid => Store.reactions_eq_of_entries hm hm' hid hme
  · exact fun m hm => Store.exists_reactors hm

namespace Sample

open Core.Sample

/-- In the kitchen, 2 says hello … -/
def hello : Frame := .chat ⟨key 2, 1, 10⟩ "hello" none

/-- … and 3 would have it say something else, and then nothing, and reacts to it. -/
def meddling : List Frame :=
  [.edit ⟨key 3, 1, 20⟩ ⟨key 2, 1, 10⟩ "goodbye", .delete ⟨key 3, 2, 21⟩ ⟨key 2, 1, 10⟩,
    .react ⟨key 3, 3, 22⟩ ⟨key 2, 1, 10⟩ "+1" true]

def overheard (frames : List Frame) : Store :=
  frames.foldl (entered kitchenRoom.id) (Store.fresh (key 1))

end Sample

open Core.Sample Sample in
theorem only_the_author_alters_hello :
    let msgs := (overheard (hello :: meddling)).messages .asStored kitchenRoom.id
    let msgs' := (overheard [hello]).messages .asStored kitchenRoom.id
    msgs.map (fun m => (m.body, m.deleted, m.reactions)) = [("hello", false, [("+1", 1, false)])] ∧
    (msgs.filter fun m => m.id.sender = key 2).map Message.authored =
      (msgs'.filter fun m => m.id.sender = key 2).map Message.authored := by
  have hrows : (overheard (hello :: meddling)).ops.rows =
      (overheard [hello]).ops.rows ++ meddling.filterMap fun frame =>
        frame.id.map fun id => (id, kitchenRoom.id, frame) := by
    decide +kernel
  have hsame : (overheard (hello :: meddling)).SameOf kitchenRoom.id (key 2)
      (overheard [hello]) := by
    intro row _ hsender
    rw [hrows, List.mem_append, or_iff_left]
    intro hmem
    obtain ⟨frame, hframe, id, hid, rfl⟩ : ∃ frame ∈ meddling, ∃ id, frame.id = some id ∧
        (id, kitchenRoom.id, frame) = row := by
      simpa [List.mem_filterMap, Option.map_eq_some_iff] using hmem
    have hthree : ∀ frame ∈ meddling, (frame.id.map MessageId.sender) = some (key 3) := by
      decide +kernel
    have hother := hthree frame hframe
    rw [hid] at hother
    exact absurd (hsender.symm.trans (Option.some.inj hother)) (by decide)
  have hshown (s : Store) : s.history none .asStored kitchenRoom.id none =
      .ok (s.messages .asStored kitchenRoom.id) := Store.history_eq_ok.mpr ⟨rfl, rfl⟩
  exact ⟨by decide +kernel,
    (only_the_author_alters_a_message (hshown _) (hshown _)).1 (key 2) hsame⟩

end Wicara.Client
