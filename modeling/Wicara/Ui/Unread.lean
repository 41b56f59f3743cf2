import Wicara.Ui.Refold

namespace Wicara.Client

open Wicara.Core Lib Lib.Run

/-- `b` stands behind `a` in every conversation that has both. -/
def Behind (a b : MessageId) : Prop :=
  a.tsMs.toInt64 < b.tsMs.toInt64 ∨
    a.tsMs.toInt64 = b.tsMs.toInt64 ∧ a.seq.toInt64 < b.seq.toInt64

instance (a b : MessageId) : Decidable (Behind a b) := inferInstanceAs (Decidable (_ ∨ _ ∧ _))

/-- What `send_log` sends of a conversation. -/
def newest (conversation : List Message) : List Message :=
  conversation.drop (conversation.length - historyOnStart)

theorem sendLog_eq (io : Io) (h : io.history = none) (peer : Key) (app : App) :
    sendLog io peer app =
      .ok .unit { app with
        events := app.events ++ [.log peer (newest (app.store.messages io.orders peer))] } := by
  simp only [sendLog, Store.history, h]
  rfl

theorem length_newest_le (conversation : List Message) :
    (newest conversation).length ≤ historyOnStart := by
  rw [newest, List.length_drop]
  omega

/-- The messages that are behind everything there was. -/
def arrivals (log entries : List Entry) : List MessageId :=
  (entries.filter fun e => ∀ old ∈ log, Behind old.id e.id).map Message.id

/-- Where the first of these messages is. -/
def firstOf (ids : List MessageId) (log : List Entry) : Nat := log.findIdx (·.id ∈ ids)

/-- A UI, the messages of a conversation that came in behind everything there was and that nobody
has looked at since, and the ones that came in last. -/
structure Watch where
  ui : Ui
  unseen : List MessageId
  news : List MessageId

namespace Watch

def start (ui : Ui) : Watch := ⟨ui, [], []⟩

variable (key : Key) (w : Watch)

def peer : Peer := (w.ui.peerOf key).getD (.new key)

/-- The conversation is refolded and sent. -/
def step (sent : UInt64 × List Message) : Watch :=
  let entries := newest sent.2
  let news := arrivals (w.peer key).log entries
  { ui := (w.ui.apply sent.1 (.log key entries)).getD w.ui
    unseen := w.unseen ++ news
    news := news }

/-- News is counted, and the mark is above the first message that has not been seen. -/
def Marked : Prop :=
  w.news ≠ [] → 0 < (w.peer key).unread ∧
    (w.peer key).unreadFrom = some (firstOf w.unseen (w.peer key).log)

/-- If there is news, the first message that has not been seen is where the mark is, or, without
one, where the log ended. -/
def InPlace (sent : UInt64 × List Message) : Prop :=
  let p := w.peer key
  let news := arrivals p.log (newest sent.2)
  news ≠ [] → firstOf (w.unseen ++ news) (newest sent.2) = p.unreadFrom.getD p.log.length

/-- Another conversation is selected, and what is marked in this one is counted. -/
structure Aside : Prop where
  sound : w.ui.Sound
  elsewhere : ∃ other, other ≠ key ∧ w.ui.selectedKey = some other
  counted : (w.peer key).unreadFrom ≠ none → 0 < (w.peer key).unread

instance : Decidable (w.Marked key) := inferInstanceAs (Decidable (_ → _))

instance (sent : UInt64 × List Message) : Decidable (w.InPlace key sent) :=
  inferInstanceAs (Decidable (_ → _))

variable {key w}

theorem Aside.ne (h : w.Aside key) : w.ui.selectedKey ≠ some key := by
  obtain ⟨other, hne, hsel⟩ := h.elsewhere
  rw [hsel]
  exact fun heq => hne (Option.some.inj heq)

theorem news_step (sent : UInt64 × List Message) :
    (w.step key sent).news = arrivals (w.peer key).log (newest sent.2) := by
  rw [step]

theorem unseen_step (sent : UInt64 × List Message) : (w.step key sent).unseen =
    w.unseen ++ arrivals (w.peer key).log (newest sent.2) := by
  rw [step]

/-- The log is replaced and nothing else happens to the conversation. -/
theorem Aside.peer_step (h : w.Aside key) (sent : UInt64 × List Message) :
    w.ui.apply sent.1 (.log key (newest sent.2)) = some (w.step key sent).ui ∧
      (w.step key sent).peer key = (w.peer key).setLog (newest sent.2) false := by
  have hlt : ∀ i ∈ w.ui.index.get key, i < w.ui.peers.length := by
    intro i hi
    rw [← Ui.length_keys]
    exact (List.getElem?_eq_some_iff.mp ((h.sound.index key i).mp hi)).1
  obtain ⟨ui', hrun, hpeer⟩ := Ui.peerOf_apply_log hlt sent.1 (newest sent.2)
  simp only [decide_eq_false h.ne] at hpeer
  simp only [step, peer, hrun, hpeer, Option.getD_some, and_self]

end Watch

namespace Peer

variable {p : Peer} {entries : List Entry}

/-- A log that has grown is counted and marked if nobody looks. -/
theorem setLog_of_lt (h : p.log.length < entries.length) :
    (p.setLog entries false).unread = p.unread + 1 ∧
      (p.setLog entries false).unreadFrom = some (p.unreadFrom.getD p.log.length) := by
  simp [setLog, h]

theorem setLog_of_le (h : entries.length ≤ p.log.length) :
    (p.setLog entries false).unread = p.unread ∧
      (p.setLog entries false).unreadFrom = p.unreadFrom := by
  simp [setLog, h.not_gt]

end Peer

namespace Watch

variable {key : Key} {w : Watch}

theorem Aside.step (h : w.Aside key) (sent : UInt64 × List Message) :
    (w.step key sent).Aside key := by
  obtain ⟨hrun, hpeer⟩ := h.peer_step sent
  obtain ⟨ui', hrun', heffect⟩ := Ui.effect_apply h.sound sent.1 (.log key (newest sent.2))
  obtain rfl := Option.some.inj (hrun.symm.trans hrun')
  refine ⟨heffect.sound h.sound, ?_, ?_⟩
  · obtain ⟨other, hne, hsel⟩ := h.elsewhere
    exact ⟨other, hne, heffect.selectedKey h.sound hsel id⟩
  · rw [hpeer]
    obtain hlt | hle := lt_or_ge (w.peer key).log.length (newest sent.2).length
    · rw [(Peer.setLog_of_lt hlt).1]
      exact fun _ => Nat.succ_pos _
    · rw [(Peer.setLog_of_le hle).1, (Peer.setLog_of_le hle).2]
      exact h.counted

theorem firstOf_lt_of_news {log entries : List Entry} (unseen : List MessageId)
    (h : arrivals log entries ≠ []) :
    firstOf (unseen ++ arrivals log entries) entries < entries.length := by
  rw [firstOf, List.findIdx_lt_length]
  obtain ⟨id, hid⟩ := List.exists_mem_of_ne_nil _ h
  obtain ⟨e, he, rfl⟩ := List.mem_map.mp hid
  exact ⟨e, (List.mem_filter.mp he).1, decide_eq_true (List.mem_append_right _ hid)⟩

/-- What is new is marked exactly if it is in place. -/
theorem marked_step_iff (h : w.Aside key) (sent : UInt64 × List Message) :
    (w.step key sent).Marked key ↔ w.InPlace key sent := by
  obtain ⟨-, hpeer⟩ := h.peer_step sent
  simp only [Marked, InPlace, news_step, unseen_step, hpeer, Peer.log_setLog]
  refine forall_congr' fun hnews => ?_
  have hfirst := firstOf_lt_of_news w.unseen hnews
  obtain hlt | hle := lt_or_ge (w.peer key).log.length (newest sent.2).length
  · obtain ⟨hcount, hmark⟩ := Peer.setLog_of_lt hlt
    simp [hcount, hmark, eq_comm]
  · rw [(Peer.setLog_of_le hle).1, (Peer.setLog_of_le hle).2]
    -- The log has not grown, so there is a mark already if it stands within the log.
    cases hfrom : (w.peer key).unreadFrom with
    | none =>
      refine iff_of_false (by simp) ?_
      simp only [Option.getD_none]
      omega
    | some i =>
      have hpos := h.counted (by simp [hfrom])
      simp [hpos, eq_comm]

end Watch

/-- Another conversation is selected, and nothing of this one is unread. -/
structure Ui.ReadUp (ui : Ui) (key : Key) : Prop where
  sound : ui.Sound
  elsewhere : ∃ other, other ≠ key ∧ ui.selectedKey = some other
  read : ∀ p ∈ ui.peerOf key, p.unread = 0 ∧ p.unreadFrom = none

section

variable {ui : Ui} {key : Key}

theorem Ui.ReadUp.start (h : ui.ReadUp key) :
    ((Watch.start ui).peer key).unread = 0 ∧ ((Watch.start ui).peer key).unreadFrom = none := by
  rw [Watch.peer, Watch.start]
  cases hp : ui.peerOf key with
  | none => exact ⟨rfl, rfl⟩
  | some p => exact h.read p hp

theorem Ui.ReadUp.aside (h : ui.ReadUp key) : (Watch.start ui).Aside key :=
  ⟨h.sound, h.elsewhere, fun hmark => absurd h.start.2 hmark⟩

/-- In a conversation that is not selected news is always counted, and the mark above the first of
it that nobody has seen, exactly if there are always as many messages before that one as there were
when the log first grew. -/
theorem news_is_marked_iff (h : ui.ReadUp key) (sent : List (UInt64 × List Message)) :
    (∀ n, (run (Watch.step key) (.start ui) (sent.take n)).Marked key) ↔
      Along (Watch.step key) (Watch.InPlace key) (.start ui) sent :=
  Along.iff_throughout (I := Watch.Aside key) (fun _ s hw => hw.step s)
    (fun _ s hw _ => Watch.marked_step_iff hw s) h.aside (fun hnews => absurd rfl hnews)

/-- Once a conversation fills the window that is sent of it, its news is never counted again. -/
theorem full_window_is_never_marked (h : ui.ReadUp key)
    (hfull : historyOnStart ≤ ((Watch.start ui).peer key).log.length)
    {sent : List (UInt64 × List Message)} (hsent : Along (Watch.step key)
      (fun _ s => historyOnStart ≤ s.2.length) (.start ui) sent) :
    ((run (Watch.step key) (.start ui) sent).peer key).unread = 0 := by
  have hstep (w : Watch) (s : UInt64 × List Message)
      (hw : w.Aside key ∧ historyOnStart ≤ (w.peer key).log.length ∧ (w.peer key).unread = 0)
      (hs : historyOnStart ≤ s.2.length) : (w.step key s).Aside key ∧
        historyOnStart ≤ ((w.step key s).peer key).log.length ∧
          ((w.step key s).peer key).unread = 0 := by
    obtain ⟨haside, hlong, hzero⟩ := hw
    have hle := (length_newest_le s.2).trans hlong
    refine ⟨haside.step s, ?_, ?_⟩
    · rw [(haside.peer_step s).2, Peer.log_setLog, newest, List.length_drop]
      omega
    · rw [(haside.peer_step s).2, (Peer.setLog_of_le hle).1, hzero]
  exact (hsent.invariant hstep ⟨h.aside, hfull, h.start.1⟩).2.2

theorem Watch.not_marked {w : Watch} {id : MessageId} (hnew : id ∈ w.news)
    (hzero : (w.peer key).unread = 0) : ¬w.Marked key := by
  intro hmarked
  have hpos := (hmarked (List.ne_nil_of_mem hnew)).1
  omega

/-- Each log has the messages of the one before it, and then only such as stand behind them. -/
def Watch.Continues (key : Key) (w : Watch) (sent : UInt64 × List Message) : Prop :=
  ((newest sent.2).map Message.id).Pairwise Behind ∧
    (w.peer key).log.map Message.id <+: (newest sent.2).map Message.id

theorem behind_irrefl (id : MessageId) : ¬Behind id id := by
  rintro (hts | ⟨-, hseq⟩)
  · exact Int64.lt_irrefl hts
  · exact Int64.lt_irrefl hseq

/-- What a log has more than the one it continues is news. -/
theorem arrivals_of_continued {log entries : List Entry} {more : List MessageId}
    (hsorted : (entries.map Message.id).Pairwise Behind)
    (hmore : log.map Message.id ++ more = entries.map Message.id) :
    arrivals log entries = more := by
  have harrivals : arrivals log entries =
      (entries.map Message.id).filter fun id => ∀ old ∈ log.map Message.id, Behind old id := by
    simp [arrivals, List.filter_map, Function.comp_def]
  rw [← hmore, List.pairwise_append] at hsorted
  rw [harrivals, ← hmore, List.filter_append, List.filter_eq_nil_iff.mpr, List.nil_append,
    List.filter_eq_self]
  · exact fun id hid => decide_eq_true fun old hold => hsorted.2.2 old hold id hid
  · intro id hid hbehind
    exact behind_irrefl id (of_decide_eq_true hbehind id hid)

theorem firstOf_eq {entries : List Entry} {seen rest : List MessageId}
    (h : entries.map Message.id = seen ++ rest) (hno : ∀ id ∈ seen, id ∉ rest) (hne : rest ≠ []) :
    firstOf rest entries = seen.length := by
  have hids : firstOf rest entries = (entries.map Message.id).findIdx (· ∈ rest) := by
    rw [List.findIdx_map]
    rfl
  obtain ⟨id, more, rfl⟩ := List.exists_cons_of_ne_nil hne
  have hseen : ¬seen.findIdx (· ∈ id :: more) < seen.length := by
    rw [List.findIdx_lt_length]
    rintro ⟨x, hx, hmem⟩
    exact hno x hx (of_decide_eq_true hmem)
  rw [hids, h, List.findIdx_append, if_neg hseen, List.findIdx_cons]
  simp

/-- What has been seen of the log comes first, and the mark is where it ends. -/
def Watch.Split (key : Key) (w : Watch) : Prop :=
  ∃ seen, (w.peer key).log.map Message.id = seen ++ w.unseen ∧
    seen.length = (w.peer key).unreadFrom.getD (w.peer key).log.length

namespace Watch

variable {w : Watch} {s : UInt64 × List Message}

theorem Split.step (h : w.Split key) (haside : w.Aside key) (hcont : w.Continues key s) :
    (w.step key s).Split key := by
  obtain ⟨seen, hseen, hplace⟩ := h
  obtain ⟨hsorted, more, hmore⟩ := hcont
  refine ⟨seen, ?_, ?_⟩
  · rw [(haside.peer_step s).2, Peer.log_setLog, unseen_step, arrivals_of_continued hsorted hmore,
      ← hmore, hseen, List.append_assoc]
  · have hlen := congrArg List.length hmore
    rw [List.length_append, List.length_map, List.length_map] at hlen
    rw [(haside.peer_step s).2, Peer.log_setLog, hplace]
    obtain hlt | hle := lt_or_ge (w.peer key).log.length (newest s.2).length
    · rw [(Peer.setLog_of_lt hlt).2, Option.getD_some]
    · rw [(Peer.setLog_of_le hle).2, show (newest s.2).length = (w.peer key).log.length by omega]

theorem Split.inPlace (h : w.Split key) (hcont : w.Continues key s) : w.InPlace key s := by
  obtain ⟨seen, hseen, hplace⟩ := h
  obtain ⟨hsorted, more, hmore⟩ := hcont
  intro hnews
  rw [arrivals_of_continued hsorted hmore] at hnews ⊢
  have hids : (newest s.2).map Message.id = seen ++ (w.unseen ++ more) := by
    rw [← hmore, hseen, List.append_assoc]
  rw [hids] at hsorted
  rw [← hplace]
  refine firstOf_eq hids (fun id hid hrest => ?_) (by simp [hnews])
  exact behind_irrefl id ((List.pairwise_append.mp hsorted).2.2 id hid id hrest)

end Watch

/-- Where every log continues the one before it, news is where it should be. -/
theorem continued_logs_are_in_place (h : ui.ReadUp key) {sent : List (UInt64 × List Message)}
    (hsent : Along (Watch.step key) (Watch.Continues key) (.start ui) sent) :
    Along (Watch.step key) (Watch.InPlace key) (.start ui) sent := by
  have hstart : (Watch.start ui).Split key :=
    ⟨_, (List.append_nil _).symm, by rw [h.start.2, Option.getD_none, List.length_map]⟩
  have hstep (w : Watch) (s : UInt64 × List Message) (hw : w.Aside key ∧ w.Split key)
      (hcont : w.Continues key s) : (w.step key s).Aside key ∧ (w.step key s).Split key :=
    ⟨hw.1.step s, hw.2.step hw.1 hcont⟩
  exact hsent.of_invariant hstep (fun _ _ hw hcont => hw.2.inPlace hcont) ⟨h.aside, hstart⟩

end

namespace Sample

open Core.Sample

/-- What 2 has written so far. -/
def wrote (n : Nat) : List Message := (List.range n).map fun i => theirs (.ofNat (i + 1))

/-- The first messages of 2 are looked at, and then 1 is selected. -/
def lookedAt (n : Nat) : Ui :=
  shown [.event 0 (.known (key 1) none none), .event 0 (.known (key 2) none none), press .tab,
    press .down, .event 0 (.log (key 2) (newest (wrote n))), press .up]

theorem readUp_lookedAt {n : Nat} (hsel : (lookedAt n).selectedKey = some (key 1))
    (hread : ∀ p ∈ (lookedAt n).peerOf (key 2), p.unread = 0 ∧ p.unreadFrom = none) :
    (lookedAt n).ReadUp (key 2) where
  sound := Session.sound_run plain _ _ _
  elsewhere := ⟨key 1, by decide, hsel⟩
  read := hread

end Sample

open Core.Sample Sample in
theorem news_is_marked_twice :
    (run (Watch.step (key 2)) (.start (lookedAt 3)) [(0, wrote 4), (0, wrote 6)]).Marked (key 2) :=
  (news_is_marked_iff (readUp_lookedAt (n := 3) (by decide +kernel) (by decide +kernel))
    [(0, wrote 4), (0, wrote 6)]).mpr (by decide +kernel) 2

open Core.Sample Sample in
/-- One message more comes when the window is full. -/
theorem full_window_hides_news :
    let w := run (Watch.step (key 2)) (.start (lookedAt 200)) [(0, wrote 201)]
    (theirs 201).id ∈ w.news ∧ (w.peer (key 2)).unread = 0 ∧ ¬w.Marked (key 2) := by
  have hread : (lookedAt 200).ReadUp (key 2) :=
    readUp_lookedAt (by decide +kernel) (by decide +kernel)
  have hzero : ((run (Watch.step (key 2)) (.start (lookedAt 200)) [(0, wrote 201)]).peer
      (key 2)).unread = 0 :=
    full_window_is_never_marked hread (by decide +kernel) ⟨by decide +kernel, trivial⟩
  have hnew : (theirs 201).id ∈
      (run (Watch.step (key 2)) (.start (lookedAt 200)) [(0, wrote 201)]).news := by
    rw [run_cons, run_nil, Watch.news_step]
    exact List.mem_map.mpr ⟨theirs 201, List.mem_filter.mpr (by decide +kernel), rfl⟩
  exact ⟨hnew, hzero, Watch.not_marked hnew hzero⟩

end Wicara.Client
