import Wicara.Client.Convergence

namespace Wicara.Client

open Wicara.Core Lib Lib.Arrange

/-- The order of an author's own count. -/
def bySeq (a b : MessageId) : Prop := a.seq < b.seq

/-- The order of the columns that a conversation is sorted by. -/
def byClock (a b : MessageId) : Prop :=
  OpRow.signed a.tsMs < OpRow.signed b.tsMs ∨
    OpRow.signed a.tsMs = OpRow.signed b.tsMs ∧ OpRow.signed a.seq < OpRow.signed b.seq

instance : DecidableRel bySeq := fun a b => inferInstanceAs (Decidable (a.seq < b.seq))

instance : DecidableRel byClock := fun _ _ => inferInstanceAs (Decidable (_ ∨ _ ∧ _))

theorem byClock_iff {a b : OpRow} : byClock a.1 b.1 ↔ ¬b.before a := by
  rw [OpRow.before_iff, byClock]
  omega

theorem not_byClock_self (row : OpRow) : ¬byClock row.1 row.1 := by
  rw [byClock]
  omega

namespace OpRow

/-- What an op writes into the message of an id, if it is its author's. -/
def edit (id : MessageId) (row : OpRow) : Option String :=
  match row.2.2 with
  | .edit _ target body => if row.1.sender = id.sender ∧ target = id then some body else none
  | _ => none

/-- The op takes the message of an id back, and is its author's. -/
def deletes (id : MessageId) (row : OpRow) : Bool :=
  match row.2.2 with
  | .delete _ target => row.1.sender = id.sender ∧ target = id
  | _ => false

/-- What an op makes of the text of a message: its author's edits replace it, and its author's
deletes empty it. -/
def writes (id : MessageId) (row : OpRow) : Option String :=
  if row.deletes id = true then some "" else row.edit id

/-- What an op says about one reaction. -/
def reacts (key : MessageId × String × Key) (row : OpRow) : Option Bool :=
  match row.2.2 with
  | .react _ target emoji on => if key = (target, emoji, row.1.sender) then some on else none
  | _ => none

/-- The text that a message is posted with. -/
def text (row : OpRow) : String :=
  match row.2.2 with
  | .chat _ body _ => body
  | .file _ name _ _ => name
  | _ => ""

variable {id : MessageId} {row : OpRow}

theorem sender_of_edit (h : row.edit id ≠ none) : row.1.sender = id.sender := by
  unfold edit at h
  split at h
  · split at h
    · rename_i hauthor
      exact hauthor.1
    · exact absurd rfl h
  · exact absurd rfl h

theorem sender_of_deletes (h : row.deletes id = true) : row.1.sender = id.sender := by
  unfold deletes at h
  split at h
  · exact (of_decide_eq_true h).1
  · cases h

theorem sender_of_reacts {key : MessageId × String × Key} (h : row.reacts key ≠ none) :
    row.1.sender = key.2.2 := by
  unfold reacts at h
  split at h
  · split at h
    · rename_i hkey
      rw [hkey]
    · exact absurd rfl h
  · exact absurd rfl h

theorem settle_eq (key : MessageId × String × Key) (state : Option Bool) (row : OpRow) :
    settle key state row = ((row.reacts key).map some).getD state := by
  obtain ⟨id, peer, frame⟩ := row
  cases frame with
  | react _ target emoji on =>
    simp only [settle, reacts]
    split <;> rfl
  | _ => rfl

theorem text_posted {me : Key} {settings : Table String String} {m : Message}
    (h : row.posted me settings = some m) : m.body = row.text ∧ m.deleted = false := by
  obtain ⟨id, peer, frame⟩ := row
  cases frame with
  | chat _ body replyTo =>
    cases h
    exact ⟨rfl, rfl⟩
  | file _ name size hash =>
    cases h
    exact ⟨rfl, rfl⟩
  | _ => cases h

theorem deleted_revise (m : Message) (row : OpRow) :
    (revise m row).deleted = (m.deleted || row.deletes m.id) := by
  obtain ⟨id, peer, frame⟩ := row
  cases frame with
  | delete _ target =>
    by_cases h : target.sender = id.sender ∧ m.id = target
    · obtain ⟨hauthor, rfl⟩ := h
      simp [revise, deletes, hauthor]
    · have hother : ¬(id.sender = m.id.sender ∧ target = m.id) := by
        rintro ⟨hauthor, rfl⟩
        exact h ⟨hauthor.symm, rfl⟩
      simp [revise, deletes, h, hother]
  | edit _ target body =>
    simp only [revise, deletes, Bool.or_false]
    split <;> rfl
  | _ => simp [revise, deletes]

theorem body_revise (m : Message) (row : OpRow) :
    (revise m row).body = (row.writes m.id).getD m.body := by
  obtain ⟨id, peer, frame⟩ := row
  have hauthor (target : MessageId) : (target.sender = id.sender ∧ m.id = target) ↔
      id.sender = m.id.sender ∧ target = m.id := by
    constructor
    · rintro ⟨hsender, rfl⟩
      exact ⟨hsender.symm, rfl⟩
    · rintro ⟨hsender, rfl⟩
      exact ⟨hsender.symm, rfl⟩
  cases frame with
  | delete _ target =>
    simp only [revise, writes, deletes, edit, hauthor, decide_eq_true_eq]
    split <;> rfl
  | edit _ target body =>
    simp only [revise, writes, deletes, edit, hauthor]
    split <;> simp
  | _ => rfl

theorem deleted_foldl_revise (m : Message) (rows : List OpRow) :
    (rows.foldl revise m).deleted = true ↔
      m.deleted = true ∨ ∃ row ∈ rows, row.deletes m.id = true := by
  induction rows generalizing m with
  | nil => simp
  | cons row rows ih =>
    rw [List.foldl_cons, ih, id_revise, deleted_revise]
    simp [or_assoc]

theorem body_foldl_revise (m : Message) (rows : List OpRow) :
    (rows.foldl revise m).body =
      rows.foldl (fun body row => (row.writes m.id).getD body) m.body := by
  induction rows generalizing m with
  | nil => rfl
  | cons row rows ih => rw [List.foldl_cons, List.foldl_cons, ih, id_revise, body_revise]

end OpRow

/-- How a message stands if its author's ops count in the order `lt`: taken back by what comes
after it, and else with the text that comes last. -/
structure Stands (lt : MessageId → MessageId → Prop) (rows : List OpRow) (m : Message) : Prop where
  deleted : m.deleted = true ↔ ∃ row ∈ rows, row.deletes m.id = true ∧ lt m.id row.1
  body : m.deleted = false → ∃ own ∈ rows, own.1 = m.id ∧
    LastValue (fun a b => lt a.1 b.1) (OpRow.edit m.id) own.text {row | row ∈ rows ∧ lt m.id row.1}
      m.body

/-- The state of a reaction if its reactor's ops count in the order `lt`. -/
def Settles (lt : MessageId → MessageId → Prop) (rows : List OpRow)
    (key : MessageId × String × Key) (state : Option Bool) : Prop :=
  LastValue (fun a b => lt a.1 b.1) (fun row => (row.reacts key).map some) none {row | row ∈ rows}
    state

namespace Store

variable {s : Store} {orders : Orders} {peer : Key}

/-- The ops of a conversation. -/
def recorded (peer : Key) (s : Store) : List OpRow := s.ops.rows.filter fun row => row.2.1 = peer

theorem mem_recorded (orders : Orders) {row : OpRow} :
    row ∈ s.recorded peer ↔ row ∈ s.conversation orders peer :=
  conversation_perm.mem_iff.symm

/-- Of an author's ops, what comes later in the conversation is what its clock puts later. -/
theorem mem_after {before after : List OpRow} {row later : OpRow}
    (hsplit : s.conversation orders peer = before ++ row :: after)
    (hsender : later.1.sender = row.1.sender) :
    later ∈ after ↔ later ∈ s.recorded peer ∧ byClock row.1 later.1 := by
  have hsorted : (before ++ row :: after).Pairwise OpRow.before :=
    hsplit ▸ List.pairwise_insertionSort OpRow.before _
  have hnodup : ((before ++ row :: after).map Prod.fst).Nodup := hsplit ▸ nodup_conversation _ _ _
  rw [mem_recorded orders, hsplit, byClock_iff]
  rw [List.pairwise_append, List.pairwise_cons] at hsorted
  constructor
  · intro hafter
    refine ⟨by simp [hafter], fun hbefore => ?_⟩
    have hid := OpRow.id_eq_of_before hsender hbefore (hsorted.2.1.1 later hafter)
    rw [List.map_append, List.map_cons, List.nodup_append, List.nodup_cons] at hnodup
    exact hnodup.2.1.1 (hid ▸ List.mem_map_of_mem hafter)
  · rintro ⟨hmem, hlater⟩
    obtain hbefore | hrow | hafter : later ∈ before ∨ later = row ∨ later ∈ after := by
      simpa using hmem
    · exact absurd (hsorted.2.2 later hbefore row (.head _)) hlater
    · subst hrow
      exact absurd (or_self_iff.mp (total_of OpRow.before later later)) hlater
    · exact hafter

/-- The ops after one come in the order of the columns. -/
theorem pairwise_after {before after : List OpRow} {row : OpRow}
    (hsplit : s.conversation orders peer = before ++ row :: after) :
    after.Pairwise fun a b => ¬byClock b.1 a.1 := by
  have hsorted : (before ++ row :: after).Pairwise OpRow.before :=
    hsplit ▸ List.pairwise_insertionSort OpRow.before _
  rw [List.pairwise_append, List.pairwise_cons] at hsorted
  exact hsorted.2.1.2.imp fun hab => by rwa [byClock_iff, not_not]

/-- What `history` shows of a message is what the later ops of its author leave of it. -/
theorem exists_own {m : Message} (hm : m ∈ s.messages orders peer) :
    ∃ before own after, s.conversation orders peer = before ++ own :: after ∧ own.1 = m.id ∧
      (m.deleted = true ↔ ∃ row ∈ after, row.deletes m.id = true) ∧
      m.body = after.foldl (fun body row => (row.writes m.id).getD body) own.text := by
  rw [messages_eq, List.mem_map] at hm
  obtain ⟨m, hm, rfl⟩ := hm
  obtain ⟨before, own, after, posted, hsplit, hposted, rfl⟩ := mem_content.mp hm
  have hid : posted.id = own.1 := OpRow.id_posted hposted
  have htext := OpRow.text_posted hposted
  have hdeleted := OpRow.deleted_foldl_revise posted after
  refine ⟨before, own, after, hsplit, ?_, ?_, ?_⟩
  · exact hid.symm.trans (OpRow.id_foldl_revise posted after).symm
  · change (after.foldl OpRow.revise posted).deleted = true ↔
      ∃ row ∈ after, row.deletes (after.foldl OpRow.revise posted).id = true
    rw [OpRow.id_foldl_revise, hdeleted, htext.2]
    simp
  · change (after.foldl OpRow.revise posted).body =
      after.foldl (fun body row => (row.writes (after.foldl OpRow.revise posted).id).getD body)
        own.text
    rw [OpRow.id_foldl_revise, ← htext.1]
    exact OpRow.body_foldl_revise posted after

/-- What `history` shows is how the messages stand by their authors' clocks. -/
theorem stands_byClock {m : Message} (hm : m ∈ s.messages orders peer) :
    Stands byClock (s.recorded peer) m := by
  obtain ⟨before, own, after, hsplit, hid, hdeleted, hbody⟩ := exists_own hm
  have hafter {row : OpRow} (hsender : row.1.sender = m.id.sender) :
      row ∈ after ↔ row ∈ s.recorded peer ∧ byClock m.id row.1 := by
    rw [← hid]
    exact mem_after hsplit (hsender.trans (by rw [hid]))
  constructor
  · rw [hdeleted]
    constructor
    · rintro ⟨row, hrow, hdeletes⟩
      have hlater := (hafter (OpRow.sender_of_deletes hdeletes)).mp hrow
      exact ⟨row, hlater.1, hdeletes, hlater.2⟩
    · rintro ⟨row, hrow, hdeletes, hlater⟩
      exact ⟨row, (hafter (OpRow.sender_of_deletes hdeletes)).mpr ⟨hrow, hlater⟩, hdeletes⟩
  · intro hnot
    refine ⟨own, (mem_recorded orders).mpr (by rw [hsplit]; simp), hid, ?_⟩
    have hedits : m.body = after.foldl (fun body row => (row.edit m.id).getD body) own.text := by
      rw [hbody]
      refine List.foldl_ext _ _ _ fun body row hrow => ?_
      rw [OpRow.writes, if_neg]
      intro hdeletes
      rw [hdeleted.mpr ⟨row, hrow, hdeletes⟩] at hnot
      cases hnot
    rw [hedits]
    refine (lastValue_foldl not_byClock_self (pairwise_after hsplit) own.text).of_mem_iff
      fun row hsome => ?_
    exact hafter (OpRow.sender_of_edit hsome)

/-- The state of a reaction is how it settles by its reactor's clock. -/
theorem settles_byClock (s : Store) (orders : Orders) (peer : Key)
    (key : MessageId × String × Key) :
    Settles byClock (s.recorded peer) key ((s.reactions orders peer).get key) := by
  have hsorted : (s.conversation orders peer).Pairwise fun a b => ¬byClock b.1 a.1 :=
    (List.pairwise_insertionSort OpRow.before _).imp fun hab => by rwa [byClock_iff, not_not]
  rw [get_reactions, funext fun state => funext (OpRow.settle_eq key state)]
  refine (lastValue_foldl not_byClock_self hsorted none).of_mem_iff fun row _ => ?_
  exact (mem_recorded orders).symm

theorem eq_of_id {a b : OpRow} (ha : a ∈ s.recorded peer) (hb : b ∈ s.recorded peer)
    (hid : a.1 = b.1) : a = b :=
  List.inj_on_of_nodup_map s.ops.nodup (List.mem_of_mem_filter ha) (List.mem_of_mem_filter hb) hid

/-- Of one author's ops no two have one place on its clock. -/
theorem byClock_tie {a b : OpRow} (ha : a ∈ s.recorded peer) (hb : b ∈ s.recorded peer)
    (hsender : a.1.sender = b.1.sender) (hab : ¬byClock a.1 b.1) (hba : ¬byClock b.1 a.1) :
    a = b := by
  rw [byClock_iff, not_not] at hab hba
  exact eq_of_id ha hb (OpRow.id_eq_of_before hsender hba hab)

end Store

/-- An author's clock tells of a message what its count tells: whether it is taken back, and if
not, which text it has. -/
structure ClockAgrees (rows : List OpRow) (id : MessageId) : Prop where
  deletes : (∃ row ∈ rows, row.deletes id = true ∧ bySeq id row.1) ↔
    ∃ row ∈ rows, row.deletes id = true ∧ byClock id row.1
  edits : (∀ row ∈ rows, row.deletes id = true → ¬bySeq id row.1) →
    ∃ own ∈ rows, own.1 = id ∧ ∃ text,
      LastValue (fun a b => bySeq a.1 b.1) (OpRow.edit id) own.text
        {row | row ∈ rows ∧ bySeq id row.1} text ∧
      LastValue (fun a b => byClock a.1 b.1) (OpRow.edit id) own.text
        {row | row ∈ rows ∧ byClock id row.1} text

/-- A reactor's clock tells of a reaction what its count tells. -/
def ClockAgreesOn (rows : List OpRow) (key : MessageId × String × Key) : Prop :=
  ∃ state, Settles bySeq rows key state ∧ Settles byClock rows key state

section

variable {s : Store} {orders : Orders} {peer : Key}

theorem stands_bySeq_iff {m : Message} (hm : m ∈ s.messages orders peer) :
    Stands bySeq (s.recorded peer) m ↔ ClockAgrees (s.recorded peer) m.id := by
  have hclock := Store.stands_byClock hm
  constructor
  · intro hseq
    refine ⟨hseq.deleted.symm.trans hclock.deleted, fun hnone => ?_⟩
    have hnot : m.deleted = false := by
      rw [Bool.eq_false_iff, ne_eq, hseq.deleted]
      rintro ⟨row, hrow, hdeletes, hlater⟩
      exact hnone row hrow hdeletes hlater
    obtain ⟨own, hown, hid, hlast⟩ := hseq.body hnot
    obtain ⟨own', hown', hid', hlast'⟩ := hclock.body hnot
    obtain rfl : own = own' := Store.eq_of_id hown hown' (hid.trans hid'.symm)
    exact ⟨own, hown, hid, m.body, hlast, hlast'⟩
  · intro hagrees
    refine ⟨hclock.deleted.trans hagrees.deletes.symm, fun hnot => ?_⟩
    have hnone : ∀ row ∈ s.recorded peer, row.deletes m.id = true → ¬bySeq m.id row.1 := by
      intro row hrow hdeletes hlater
      rw [hclock.deleted.mpr (hagrees.deletes.mp ⟨row, hrow, hdeletes, hlater⟩)] at hnot
      cases hnot
    obtain ⟨own, hown, hid, text, hlast, hlast'⟩ := hagrees.edits hnone
    obtain ⟨own', hown', hid', hbody⟩ := hclock.body hnot
    obtain rfl : own = own' := Store.eq_of_id hown hown' (hid.trans hid'.symm)
    have htext : text = m.body := hlast'.unique hbody fun a ha b hb hsome hsome' hab hba =>
      Store.byClock_tie ha.1 hb.1
        ((OpRow.sender_of_edit hsome).trans (OpRow.sender_of_edit hsome').symm) hab hba
    exact ⟨own, hown, hid, htext ▸ hlast⟩

theorem settles_bySeq_iff (key : MessageId × String × Key) :
    Settles bySeq (s.recorded peer) key ((s.reactions orders peer).get key) ↔
      ClockAgreesOn (s.recorded peer) key := by
  have hclock := Store.settles_byClock s orders peer key
  constructor
  · exact fun hseq => ⟨_, hseq, hclock⟩
  · rintro ⟨state, hseq, hstate⟩
    have hsender {row : OpRow} (hsome : (row.reacts key).map some ≠ none) :
        row.1.sender = key.2.2 := OpRow.sender_of_reacts (by simpa using hsome)
    have hsame := hstate.unique hclock fun a ha b hb hsome hsome' hab hba =>
      Store.byClock_tie ha hb ((hsender hsome).trans (hsender hsome').symm) hab hba
    exact hsame ▸ hseq

end

/-- A conversation is folded in the order of its clocks.  What its authors' counts say of a
message or of a reaction is shown exactly where the clocks say the same. -/
theorem history_follows_seq_iff (s : Store) (orders : Orders) (peer : Key) :
    (∀ limit msgs, s.history none orders peer limit = .ok msgs → ∀ m ∈ msgs,
      (Stands bySeq (s.recorded peer) m ↔ ClockAgrees (s.recorded peer) m.id)) ∧
    ∀ key, Settles bySeq (s.recorded peer) key ((s.reactions orders peer).get key) ↔
      ClockAgreesOn (s.recorded peer) key := by
  refine ⟨fun limit msgs hmsgs m hm => ?_, settles_bySeq_iff⟩
  cases hmsgs
  have hshown : m ∈ s.messages orders peer := List.mem_of_mem_drop hm
  exact stands_bySeq_iff hshown

/-- An author's clock that is never set back, in columns that no value wraps around in. -/
structure Steady (rows : List OpRow) (author : Key) : Prop where
  distinct : ∀ a ∈ rows, ∀ b ∈ rows, a.1.sender = author → b.1.sender = author →
    a.1.seq = b.1.seq → a.1 = b.1
  forward : ∀ a ∈ rows, ∀ b ∈ rows, a.1.sender = author → b.1.sender = author →
    a.1.seq < b.1.seq → a.1.tsMs ≤ b.1.tsMs
  seq_nonneg : ∀ a ∈ rows, a.1.sender = author → 0 ≤ OpRow.signed a.1.seq
  tsMs_nonneg : ∀ a ∈ rows, a.1.sender = author → 0 ≤ OpRow.signed a.1.tsMs

/-- A steady clock orders its author's ops as their count does. -/
theorem Steady.byClock_iff {rows : List OpRow} {author : Key} (h : Steady rows author)
    {a b : OpRow} (ha : a ∈ rows) (hb : b ∈ rows) (hauthor : a.1.sender = author)
    (hauthor' : b.1.sender = author) : byClock a.1 b.1 ↔ bySeq a.1 b.1 := by
  rw [byClock, bySeq, OpRow.signed_of_nonneg (h.seq_nonneg a ha hauthor),
    OpRow.signed_of_nonneg (h.seq_nonneg b hb hauthor'),
    OpRow.signed_of_nonneg (h.tsMs_nonneg a ha hauthor),
    OpRow.signed_of_nonneg (h.tsMs_nonneg b hb hauthor')]
  have hab := h.forward a ha b hb hauthor hauthor'
  have hba := h.forward b hb a ha hauthor' hauthor
  have hsame := h.distinct a ha b hb hauthor hauthor'
  simp only [UInt64.lt_iff_toNat_lt, UInt64.le_iff_toNat_le] at hab hba ⊢
  obtain hlt | heq | hgt := Nat.lt_trichotomy a.1.seq.toNat b.1.seq.toNat
  · have hts := hab hlt
    omega
  · rw [hsame (UInt64.toNat_inj.mp heq)]
    simp
  · have hts := hba hgt
    omega

/-- Where an author's clock is steady, its messages are shown as its count says. -/
theorem stands_bySeq_of_steady {s : Store} {orders : Orders} {peer : Key} {m : Message}
    (hm : m ∈ s.messages orders peer) (hsteady : Steady (s.recorded peer) m.id.sender) :
    Stands bySeq (s.recorded peer) m := by
  have hclock := Store.stands_byClock hm
  obtain ⟨before, own, after, hsplit, hid, -⟩ := Store.exists_own hm
  have hown : own ∈ s.recorded peer := (Store.mem_recorded orders).mpr (by rw [hsplit]; simp)
  have hlater {row : OpRow} (hrow : row ∈ s.recorded peer) (hsender : row.1.sender = m.id.sender) :
      byClock m.id row.1 ↔ bySeq m.id row.1 := by
    rw [← hid]
    exact hsteady.byClock_iff hown hrow (by rw [hid]) hsender
  constructor
  · rw [hclock.deleted]
    refine exists_congr fun row => and_congr_right fun hrow => and_congr_right fun hdeletes => ?_
    exact hlater hrow (OpRow.sender_of_deletes hdeletes)
  · intro hnot
    obtain ⟨own, hown, hid, hlast⟩ := hclock.body hnot
    refine ⟨own, hown, hid, hlast.congr (fun row hsome => ?_) fun a ha b hb hsome hsome' => ?_⟩
    · exact and_congr_right fun hrow => hlater hrow (OpRow.sender_of_edit hsome)
    · exact (hsteady.byClock_iff ha.1 hb.1 (OpRow.sender_of_edit hsome)
        (OpRow.sender_of_edit hsome')).mpr

/-- Where a reactor's clock is steady, its reactions are settled as its count says. -/
theorem settles_bySeq_of_steady {s : Store} {orders : Orders} {peer : Key}
    {key : MessageId × String × Key} (hsteady : Steady (s.recorded peer) key.2.2) :
    Settles bySeq (s.recorded peer) key ((s.reactions orders peer).get key) := by
  refine (Store.settles_byClock s orders peer key).congr (fun _ _ => Iff.rfl) ?_
  intro a ha b hb hsome hsome'
  exact (hsteady.byClock_iff ha hb (OpRow.sender_of_reacts (by simpa using hsome))
    (OpRow.sender_of_reacts (by simpa using hsome'))).mpr

namespace Sample

open Wicara.Core.Sample

/-- 2's clock is set back by ten milliseconds before it corrects what it has written. -/
def written : Frame := .chat ⟨key 2, 1, 20⟩ "teh" none

def corrected : Frame := .edit ⟨key 2, 2, 10⟩ ⟨key 2, 1, 20⟩ "the"

def steppedBack : Store := [written, corrected].foldl (entered (key 2)) (Store.fresh (key 1))

def uncorrected : Message where
  id := ⟨key 2, 1, 20⟩
  body := "teh"
  outbound := false
  deleted := false
  replyTo := none
  reactions := []
  attachment := none

theorem history_steppedBack :
    steppedBack.history none .asStored (key 2) none = .ok [uncorrected] := by decide +kernel

theorem recorded_steppedBack : steppedBack.recorded (key 2) =
    [(⟨key 2, 1, 20⟩, key 2, written), (⟨key 2, 2, 10⟩, key 2, corrected)] := by decide +kernel

end Sample

open Sample in
theorem history_follows_seq_iff_of_correction :
    Stands bySeq (steppedBack.recorded (Core.Sample.key 2)) uncorrected ↔
      ClockAgrees (steppedBack.recorded (Core.Sample.key 2)) uncorrected.id :=
  (history_follows_seq_iff steppedBack .asStored (Core.Sample.key 2)).1 none [uncorrected]
    history_steppedBack uncorrected (.head _)

open Sample in
theorem set_back_clock_hides_edit :
    ¬∀ (s : Store) (orders : Orders) (peer : Key),
      (∀ limit msgs, s.history none orders peer limit = .ok msgs → ∀ m ∈ msgs,
        Stands bySeq (s.recorded peer) m) ∧
      ∀ key, Settles bySeq (s.recorded peer) key ((s.reactions orders peer).get key) := by
  intro h
  have hstands := (h steppedBack .asStored (Core.Sample.key 2)).1 none _ history_steppedBack
    uncorrected (.head _)
  have hcorrected : ((⟨Core.Sample.key 2, 2, 10⟩, Core.Sample.key 2, corrected) : OpRow) ∈
      {row | row ∈ steppedBack.recorded (Core.Sample.key 2) ∧ bySeq uncorrected.id row.1} := by
    rw [recorded_steppedBack]
    exact ⟨.tail _ (.head _), by decide⟩
  obtain ⟨own, -, -, ⟨row, hrow, htext, -⟩ | ⟨-, hnone⟩⟩ := hstands.body rfl
  · rw [recorded_steppedBack] at hrow
    obtain ⟨hmem, hlater⟩ := hrow
    obtain rfl | rfl : row = _ ∨ row = _ := by simpa using hmem
    · exact absurd hlater (by decide)
    · exact absurd htext (by decide)
  · exact absurd (hnone _ hcorrected) (by decide)

end Wicara.Client
