import Wicara.Client.Clock

namespace Wicara.Client

open Wicara.Core Lib Lib.Arrange

/-- The author's delete of a message comes after it in the conversation. -/
def TakenBack (rows : List OpRow) (id : MessageId) : Prop :=
  ∃ row ∈ rows, row.deletes id = true ∧ byClock id row.1

instance (rows : List OpRow) (id : MessageId) : Decidable (TakenBack rows id) :=
  inferInstanceAs (Decidable (∃ row ∈ rows, row.deletes id = true ∧ byClock id row.1))

/-- Of what the author made of a message, the last puts a text into it. -/
def WrittenOver (rows : List OpRow) (id : MessageId) : Prop :=
  ∃ row ∈ rows, ∃ text, row.edit id = some text ∧ text ≠ "" ∧
    ∀ later ∈ rows, later.writes id ≠ none → ¬byClock row.1 later.1

theorem byClock_trans {a b c : MessageId} (hab : byClock a b) (hbc : byClock b c) :
    byClock a c := by
  unfold byClock at *
  omega

/-- What does not come before something comes after all that does. -/
theorem byClock_of_not {a b c : MessageId} (hab : byClock a b) (hcb : ¬byClock c b) :
    byClock a c := by
  unfold byClock at *
  omega

namespace OpRow

variable {id : MessageId} {row : OpRow}

theorem deletes_of_edit (h : row.edit id ≠ none) : row.deletes id = false := by
  obtain ⟨_, peer, frame⟩ := row
  cases frame with
  | delete => exact absurd rfl h
  | _ => rfl

theorem writes_of_edit {text : String} (h : row.edit id = some text) :
    row.writes id = some text := by
  rw [writes, deletes_of_edit (by simp [h]), if_neg Bool.false_ne_true, h]

theorem sender_of_writes (h : row.writes id ≠ none) : row.1.sender = id.sender := by
  unfold writes at h
  split at h
  · rename_i hdeletes
    exact sender_of_deletes hdeletes
  · exact sender_of_edit h

end OpRow

namespace Store

variable {s : Store} {orders : Orders} {peer : Key} {m : Message}

/-- The text of a message is what its author wrote last about it, deletes included. -/
theorem lastValue_body (hm : m ∈ s.messages orders peer) :
    ∃ own ∈ s.recorded peer, own.1 = m.id ∧
      LastValue (fun a b => byClock a.1 b.1) (OpRow.writes m.id) own.text
        {row | row ∈ s.recorded peer ∧ byClock m.id row.1} m.body := by
  obtain ⟨before, own, after, hsplit, hid, -, hbody⟩ := exists_own hm
  refine ⟨own, (mem_recorded orders).mpr (by rw [hsplit]; simp), hid, ?_⟩
  rw [hbody]
  refine (lastValue_foldl not_byClock_self (pairwise_after hsplit) own.text).of_mem_iff
    fun row hsome => ?_
  rw [← hid]
  exact mem_after hsplit ((OpRow.sender_of_writes hsome).trans (by rw [hid]))

theorem body_eq_empty_iff (hm : m ∈ s.messages orders peer)
    (hdelete : TakenBack (s.recorded peer) m.id) :
    m.body = "" ↔ ¬WrittenOver (s.recorded peer) m.id := by
  obtain ⟨delete, hmem, hdeletes, hlater⟩ := hdelete
  have hwrites : delete.writes m.id = some "" := by rw [OpRow.writes, if_pos hdeletes]
  obtain ⟨own, -, -, hlast⟩ := lastValue_body hm
  obtain ⟨last, ⟨hrow, hafter⟩, hbody, hmax⟩ | ⟨-, hnone⟩ := hlast
  · have hsome : last.writes m.id ≠ none := by simp [hbody]
    constructor
    · rintro hempty ⟨edited, hedited, text, hedit, htext, hlatest⟩
      have hnot : ¬byClock edited.1 last.1 := hlatest last hrow hsome
      have hedited' : byClock m.id edited.1 :=
        byClock_of_not hlater (hlatest delete hmem (by simp [hwrites]))
      have hwrites' := OpRow.writes_of_edit hedit
      have hsome' : edited.writes m.id ≠ none := by simp [hwrites']
      have hnot' : ¬byClock last.1 edited.1 := hmax edited ⟨hedited, hedited'⟩ hsome'
      have hsender : last.1.sender = edited.1.sender :=
        (OpRow.sender_of_writes hsome).trans (OpRow.sender_of_writes hsome').symm
      obtain rfl := byClock_tie hrow hedited hsender hnot' hnot
      rw [hbody, hempty] at hwrites'
      exact htext (Option.some.inj hwrites').symm
    · intro hnot
      by_contra hempty
      refine hnot ⟨last, hrow, m.body, ?_, hempty, fun later hmem' hlatest hbefore => ?_⟩
      · unfold OpRow.writes at hbody
        split at hbody
        · exact absurd (Option.some.inj hbody).symm hempty
        · exact hbody
      · exact hmax later ⟨hmem', byClock_trans hafter hbefore⟩ hlatest hbefore
  · have := hnone delete ⟨hmem, hlater⟩
    rw [hwrites] at this
    cases this

theorem mem_messages_of_history {io : Option String} {limit : Option Nat} {msgs : List Message}
    (h : s.history io orders peer limit = .ok msgs) (hm : m ∈ msgs) :
    m ∈ s.messages orders peer := by
  cases io with
  | some err => cases h
  | none =>
    cases h
    exact List.mem_of_mem_drop hm

end Store

/-- A message that its author has taken back is shown as taken back and empty exactly if its
author has not put a text into it afterwards. -/
theorem deleted_stays_empty_iff {s : Store} {io : Option String} {orders : Orders} {peer : Key}
    {limit : Option Nat} {msgs : List Message} (h : s.history io orders peer limit = .ok msgs)
    {m : Message} (hm : m ∈ msgs) (hdelete : TakenBack (s.recorded peer) m.id) :
    (m.deleted = true ∧ m.body = "") ↔ ¬WrittenOver (s.recorded peer) m.id := by
  have hshown := Store.mem_messages_of_history h hm
  have hdeleted : m.deleted = true := (Store.stands_byClock hshown).deleted.mpr hdelete
  rw [Store.body_eq_empty_iff hshown hdelete]
  exact ⟨fun h => h.2, fun h => ⟨hdeleted, h⟩⟩

namespace Sample

open Core.Sample

def blurted : Frame := .chat ⟨key 2, 1, 10⟩ "secret" none

def unsaid : Frame := .delete ⟨key 2, 2, 20⟩ ⟨key 2, 1, 10⟩

/-- Sent before the delete was seen, or by a client that does not mind. -/
def blurtedAgain : Frame := .edit ⟨key 2, 3, 30⟩ ⟨key 2, 1, 10⟩ "secret!"

def keptBy1 (frames : List Frame) : Store := frames.foldl (entered (key 2)) (Store.fresh (key 1))

def shownAs (body : String) : Message where
  id := ⟨key 2, 1, 10⟩
  body := body
  outbound := false
  deleted := true
  replyTo := none
  reactions := []
  attachment := none

end Sample

open Core.Sample Sample in
theorem deleted_stays_empty_iff_unsaid :
    ((shownAs "").deleted = true ∧ (shownAs "").body = "") ↔
      ¬WrittenOver ((keptBy1 [blurted, unsaid]).recorded (key 2)) ⟨key 2, 1, 10⟩ := by
  have hhistory : (keptBy1 [blurted, unsaid]).history none .asStored (key 2) none =
      .ok [shownAs ""] := by decide +kernel
  have hdelete : TakenBack ((keptBy1 [blurted, unsaid]).recorded (key 2)) (shownAs "").id := by
    decide +kernel
  exact deleted_stays_empty_iff hhistory (.head _) hdelete

open Core.Sample Sample in
/-- The edit fills in the text of a message that stays marked as taken back. -/
theorem edit_fills_deleted :
    (keptBy1 [blurted, unsaid, blurtedAgain]).history none .asStored (key 2) none =
      .ok [shownAs "secret!"] ∧
    ¬∀ (s : Store) (peer : Key) (limit : Option Nat) (msgs : List Message),
      s.history none .asStored peer limit = .ok msgs → ∀ m ∈ msgs,
        TakenBack (s.recorded peer) m.id → m.deleted = true ∧ m.body = "" := by
  have hhistory : (keptBy1 [blurted, unsaid, blurtedAgain]).history none .asStored (key 2) none =
      .ok [shownAs "secret!"] := by decide +kernel
  refine ⟨hhistory, fun h => ?_⟩
  exact absurd (h _ _ _ _ hhistory _ (.head _) (by decide +kernel)).2 (by decide)

end Wicara.Client
