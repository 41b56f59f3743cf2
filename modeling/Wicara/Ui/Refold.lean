import Wicara.Client.App
import Wicara.Ui.Pending

namespace Wicara.Client

open Wicara.Core Lib Lib.Run

namespace Ui

variable {ui : Ui} {key : Key}

/-- The peer that `peer_mut` finds. -/
def peerOf (ui : Ui) (key : Key) : Option Peer := (ui.index.get key).bind (ui.peers[·]?)

/-- The message that the chat cursor of a conversation is on. -/
def underCursor (ui : Ui) (key : Key) : Option MessageId := do
  let p ← ui.peerOf key
  let entry ← p.log[p.cursor]?
  pure entry.id

theorem peerOf_peerMut (h : ∀ i ∈ ui.index.get key, i < ui.peers.length) (f : Peer → Peer) :
    ∃ ui', ui.peerMut key f = some ui' ∧
      ui'.peerOf key = some (f ((ui.peerOf key).getD (.new key))) := by
  rw [peerMut]
  cases hi : ui.index.get key with
  | none =>
    refine ⟨_, rfl, ?_⟩
    simp [peerOf, hi]
  | some i =>
    have hlt := h i hi
    refine ⟨_, if_pos hlt, ?_⟩
    simp [peerOf, hi, hlt]

/-- A refolded log takes the place of the one there was. -/
theorem peerOf_apply_log (h : ∀ i ∈ ui.index.get key, i < ui.peers.length) (now : UInt64)
    (entries : List Entry) :
    ∃ ui', ui.apply now (.log key entries) = some ui' ∧ ui'.peerOf key =
      some (((ui.peerOf key).getD (.new key)).setLog entries (ui.selectedKey = some key)) := by
  obtain ⟨ui', hrun, hpeer⟩ :=
    peerOf_peerMut h (Peer.setLog entries (decide (ui.selectedKey = some key)))
  simp only [apply, hrun, Option.map_some]
  refine ⟨_, rfl, ?_⟩
  rw [← hpeer]
  split <;> rfl

theorem lt_of_peerOf {p : Peer} (h : ui.peerOf key = some p) :
    ∀ i ∈ ui.index.get key, i < ui.peers.length := by
  intro i hi
  rw [peerOf, hi, Option.bind_some] at h
  exact (List.getElem?_eq_some_iff.mp h).1

end Ui

namespace Peer

@[simp] theorem log_setLog (entries : List Entry) (selected : Bool) (p : Peer) :
    (p.setLog entries selected).log = entries := by
  simp only [setLog]
  split
  · rfl
  · rfl

/-- What the cursor is on afterwards, if it was not on the last message: what has come to stand at
its place, or else the last one. -/
theorem cursor_setLog {p : Peer} (h : p.cursor + 1 < p.log.length) (entries : List Entry)
    (selected : Bool) :
    (p.setLog entries selected).cursor = min p.cursor (entries.length - 1) := by
  have hcursor : ¬p.log.length ≤ p.cursor + 1 := by omega
  simp only [setLog, if_neg hcursor]
  split
  · rfl
  · rfl

end Peer

/-- The chat cursor stays on its message exactly if as many messages stand before that as did
before, or the log ends with it sooner. -/
theorem cursor_stays_on_its_message_iff (ui : Ui) (now : UInt64) (key : Key)
    (entries : List Entry) {p : Peer} (hp : ui.peerOf key = some p)
    (hlast : p.cursor + 1 < p.log.length) :
    (∃ ui', ui.apply now (.log key entries) = some ui' ∧
      ui'.underCursor key = ui.underCursor key) ↔
    ∃ l e r, entries = l ++ e :: r ∧ ui.underCursor key = some e.id ∧
      (l.length = p.cursor ∨ r = [] ∧ l.length < p.cursor) := by
  obtain ⟨ui', hrun, hpeer⟩ := Ui.peerOf_apply_log (Ui.lt_of_peerOf hp) now entries
  have hcursor := Peer.cursor_setLog hlast entries (ui.selectedKey = some key)
  have hcursor_lt : p.cursor < p.log.length := by omega
  obtain ⟨id, hid⟩ : ∃ id, ui.underCursor key = some id :=
    ⟨p.log[p.cursor].id, by simp [Ui.underCursor, hp, List.getElem?_eq_getElem hcursor_lt]⟩
  have hunder : (∃ ui', ui.apply now (.log key entries) = some ui' ∧
      ui'.underCursor key = some id) ↔
      ∃ e, entries[min p.cursor (entries.length - 1)]? = some e ∧ e.id = id := by
    simp [hrun, Ui.underCursor, hpeer, hp, hcursor, Option.bind_eq_some_iff]
  rw [hid, hunder]
  constructor
  · rintro ⟨e, he, rfl⟩
    obtain ⟨hlt, rfl⟩ := List.getElem?_eq_some_iff.mp he
    have hsplit := List.take_append_drop (min p.cursor (entries.length - 1)) entries
    rw [List.drop_eq_getElem_cons hlt] at hsplit
    refine ⟨_, _, _, hsplit.symm, rfl, ?_⟩
    rw [List.length_take, List.drop_eq_nil_iff]
    omega
  · rintro ⟨l, e, r, rfl, he, hplace⟩
    have hlen : min p.cursor ((l ++ e :: r).length - 1) = l.length := by
      rw [List.length_append, List.length_cons]
      obtain hsame | ⟨rfl, hless⟩ := hplace
      · omega
      · rw [List.length_nil]
        omega
    have hat : (l ++ e :: r)[l.length]? = some e := by simp
    exact ⟨e, by rw [hlen, hat], (Option.some.inj he).symm⟩

namespace Sample

open Core.Sample

/-- What 2 has written as its message of this number. -/
def theirs (seq : UInt64) : Entry :=
  ⟨⟨key 2, seq, 10 * seq⟩, "hello", false, false, none, [], none⟩

def refolded (seqs : List UInt64) : Input := .event 0 (.log (key 2) (seqs.map theirs))

/-- 2 has written its messages 1, 3 and 4, and the chat cursor is on 3. -/
def picking : List Input :=
  [.event 0 (.known (key 2) none none), refolded [1, 3, 4], press .tab, press .tab, press .up]

def shown (inputs : List Input) : Ui := (run (Session.step plain) (.start "mykey" "me") inputs).ui

end Sample

open Core.Sample Sample in
theorem cursor_stays_on_its_message_appended :
    ∃ ui, (shown picking).apply 0 (.log (key 2) ([1, 3, 4, 5].map theirs)) = some ui ∧
      ui.underCursor (key 2) = (shown picking).underCursor (key 2) :=
  (cursor_stays_on_its_message_iff (shown picking) 0 (key 2) _
    (Option.some_get (by decide +kernel)).symm (by decide +kernel)).mpr
    ⟨[theirs 1], theirs 3, [theirs 4, theirs 5], rfl, by decide +kernel, .inl (by decide +kernel)⟩

open Core.Sample Sample in
/-- Then 2 comes out of the mailbox, and the reaction that was meant for 3 goes to it. -/
theorem cursor_slides_to_another :
    let late := picking ++ [refolded [1, 2, 3, 4]]
    (shown picking).underCursor (key 2) = some (theirs 3).id ∧
      (shown late).underCursor (key 2) = some (theirs 2).id ∧
      (shown (late ++ [press (.char '1')])).commands =
        [.react (key 2) (theirs 2).id "👍" true] := by
  decide +kernel

end Wicara.Client
