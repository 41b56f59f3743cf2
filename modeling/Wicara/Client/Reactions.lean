import Mathlib.Data.Finset.Card
import Wicara.Client.Authors
import Wicara.Client.Clock

namespace Wicara.Client

open Wicara.Core Lib Lib.Arrange

/-- The last that a reactor has said about one reaction is that it is on. -/
def LastOn (rows : List OpRow) (key : MessageId × String × Key) : Prop :=
  ∃ row ∈ rows, row.reacts key = some true ∧
    ∀ row' ∈ rows, row'.reacts key ≠ none → ¬byClock row.1 row'.1

instance (rows : List OpRow) (key : MessageId × String × Key) : Decidable (LastOn rows key) :=
  inferInstanceAs (Decidable (∃ row ∈ rows, _ ∧ ∀ row' ∈ rows, _ → _))

/-- The reactions that a message shows are the last words of the reactors, added up: each emoji
once, in order, with how many of them there are and whether `me` is one. -/
structure Totals (me : Key) (rows : List OpRow) (m : Message) : Prop where
  sorted : (m.reactions.map Prod.fst).Pairwise (· < ·)
  counted : ∀ emoji n mine, (emoji, n, mine) ∈ m.reactions ↔
    ∃ who : Finset Key, (∀ reactor, reactor ∈ who ↔ LastOn rows (m.id, emoji, reactor)) ∧
      who.Nonempty ∧ who.card = n ∧ (mine = true ↔ me ∈ who)

/-- There is only one way to add up. -/
theorem Totals.reactions_eq {me : Key} {rows rows' : List OpRow} {m m' : Message}
    (h : Totals me rows m) (h' : Totals me rows' m') (hid : m.id = m'.id)
    (hlast : ∀ emoji reactor,
      LastOn rows (m.id, emoji, reactor) ↔ LastOn rows' (m.id, emoji, reactor)) :
    m.reactions = m'.reactions := by
  have hsorted := List.pairwise_map.mp h.sorted
  have hsorted' := List.pairwise_map.mp h'.sorted
  refine eq_of_perm_of_sorted ?_ (fun a _ b _ hab hba => absurd hba (lt_asymm hab)) hsorted hsorted'
  rw [List.perm_ext_iff_of_nodup (hsorted.imp fun hlt heq => hlt.ne (congrArg Prod.fst heq))
    (hsorted'.imp fun hlt heq => hlt.ne (congrArg Prod.fst heq))]
  rintro ⟨emoji, n, mine⟩
  rw [h.counted, h'.counted, ← hid]
  simp only [hlast]

/-- The slot of an emoji says how many have reacted with it, if none is listed twice. -/
theorem slotOf_eq_some {me : Key} {ks : List Key} (hks : ks.Nodup) {n : Nat} {mine : Bool} :
    slotOf me ks = some (n, mine) ↔
      ks.toFinset.Nonempty ∧ ks.toFinset.card = n ∧ (mine = true ↔ me ∈ ks.toFinset) := by
  have hmine : (ks.any fun k => k = me) = mine ↔ (mine = true ↔ me ∈ ks) := by
    rw [Bool.eq_iff_iff]
    simp only [List.any_eq_true, decide_eq_true_eq, exists_eq_right]
    exact iff_comm
  rw [List.toFinset_nonempty_iff, List.toFinset_card_of_nodup hks, List.mem_toFinset, ← hmine,
    slotOf]
  by_cases hnil : ks = []
  · simp [hnil]
  · rw [if_neg hnil, Option.some.injEq, Prod.mk.injEq]
    exact (and_iff_right hnil).symm

namespace Store

variable {s : Store} {orders : Orders} {peer : Key}

/-- What stands among the reactions of a conversation is each reactor's last word. -/
theorem get_reactions_iff_lastOn (key : MessageId × String × Key) :
    (s.reactions orders peer).get key = some true ↔ LastOn (s.recorded peer) key := by
  have hclock := settles_byClock s orders peer key
  constructor
  · intro hget
    obtain ⟨row, hrow, hon, hlast⟩ | ⟨hnone, -⟩ := hclock
    · rw [hget, Option.map_eq_some_iff] at hon
      obtain ⟨_, hon, heq⟩ := hon
      refine ⟨row, hrow, hon.trans heq, fun row' hrow' hsome => hlast row' hrow' ?_⟩
      simpa using hsome
    · rw [hget] at hnone
      cases hnone
  · rintro ⟨row, hrow, hon, hlast⟩
    have hsettles : Settles byClock (s.recorded peer) key (some true) :=
      .inl ⟨row, hrow, congrArg (Option.map some) hon,
        fun row' hrow' hsome => hlast row' hrow' (by simpa using hsome)⟩
    have hsender {row : OpRow} (hsome : (row.reacts key).map some ≠ none) :
        row.1.sender = key.2.2 := OpRow.sender_of_reacts (by simpa using hsome)
    exact hclock.unique hsettles fun a ha b hb hsome hsome' hab hba =>
      byClock_tie ha hb ((hsender hsome).trans (hsender hsome').symm) hab hba

/-- Each emoji has one slot, and the slots are sorted. -/
theorem sorted_reactions {m : Message} (hm : m ∈ s.messages orders peer) :
    (m.reactions.map Prod.fst).Pairwise (· < ·) := by
  obtain ⟨slots, hnodup, hreactions, -⟩ := exists_tallied hm
  have hsorted : m.reactions.Pairwise fun a b => a.1 ≤ b.1 := by
    rw [hreactions]
    exact List.pairwise_insertionSort _ slots
  have hnodup' : (m.reactions.map Prod.fst).Nodup := by
    rw [hreactions]
    exact ((List.perm_insertionSort _ slots).map Prod.fst).nodup_iff.mpr hnodup
  exact ((List.pairwise_map.mpr hsorted).and hnodup').imp fun h => lt_of_le_of_ne h.1 h.2

theorem totals_messages {m : Message} (hm : m ∈ s.messages orders peer) :
    Totals s.me (s.recorded peer) m := by
  have hsorted := sorted_reactions hm
  refine ⟨hsorted, fun emoji n mine => ?_⟩
  obtain ⟨ks, hks, hentry, hlookup⟩ := exists_reactors hm emoji
  have hmem (reactor : Key) : reactor ∈ ks.toFinset ↔
      LastOn (s.recorded peer) (m.id, emoji, reactor) := by
    rw [List.mem_toFinset, hentry, get_reactions_iff_lastOn]
  rw [← Table.lookup_eq_some (hsorted.imp ne_of_lt), hlookup, slotOf_eq_some hks]
  refine ⟨fun h => ⟨ks.toFinset, hmem, h⟩, ?_⟩
  rintro ⟨who, hwho, h⟩
  have heq : who = ks.toFinset := Finset.ext fun reactor => by rw [hwho, hmem]
  exact heq ▸ h

end Store

/-- Next to every message stands, once and in order, each emoji that is somebody's last word on it,
with how many reactors' last word it is and whether this endpoint is one.  The same ops give the
same list, however they are stored and in whatever order a `HashMap` is gone through. -/
theorem reactions_total_the_last_words {s : Store} {orders : Orders} {peer : Key}
    {limit : Option Nat} {msgs : List Message} (h : s.history none orders peer limit = .ok msgs) :
    (∀ m ∈ msgs, Totals s.me (s.recorded peer) m) ∧
    ∀ (s' : Store) orders' limit' msgs', s'.me = s.me →
      (∀ row, row ∈ s.recorded peer ↔ row ∈ s'.recorded peer) →
      s'.history none orders' peer limit' = .ok msgs' →
      ∀ m ∈ msgs, ∀ m' ∈ msgs', m.id = m'.id → m.reactions = m'.reactions := by
  have htotals {s : Store} {orders : Orders} {limit : Option Nat} {msgs : List Message}
      (h : s.history none orders peer limit = .ok msgs) {m : Message} (hm : m ∈ msgs) :
      Totals s.me (s.recorded peer) m := by
    cases h
    exact Store.totals_messages (List.mem_of_mem_drop hm)
  refine ⟨fun m hm => htotals h hm, fun s' orders' limit' msgs' hme hrows h' m hm m' hm' hid => ?_⟩
  refine (htotals h hm).reactions_eq (hme ▸ htotals h' hm') hid fun emoji reactor => ?_
  simp only [LastOn, hrows]

namespace Sample

open Core.Sample

/-- 3's reaction sorts before what it is about, and 4 thinks better of one of its two. -/
def applause : List Frame :=
  [.chat ⟨key 2, 1, 20⟩ "done" none, .react ⟨key 3, 1, 10⟩ ⟨key 2, 1, 20⟩ "+1" true,
    .react ⟨key 1, 1, 30⟩ ⟨key 2, 1, 20⟩ "+1" true, .react ⟨key 4, 1, 40⟩ ⟨key 2, 1, 20⟩ "+1" true,
    .react ⟨key 4, 2, 41⟩ ⟨key 2, 1, 20⟩ "!" true, .react ⟨key 4, 3, 50⟩ ⟨key 2, 1, 20⟩ "+1" false]

def applauded (frames : List Frame) : Store :=
  frames.foldl (entered (key 2)) (Store.fresh (key 1))

end Sample

open Core.Sample Sample in
theorem reactions_total_applause :
    let msgs := (applauded applause).messages .asStored (key 2)
    let msgs' := (applauded applause.reverse).messages .asStored (key 2)
    msgs.map (fun m => m.reactions) = [[("!", 1, false), ("+1", 2, true)]] ∧
    (∀ m ∈ msgs, Totals (key 1) ((applauded applause).recorded (key 2)) m) ∧
    ∀ m ∈ msgs, ∀ m' ∈ msgs', m.id = m'.id → m.reactions = m'.reactions := by
  have hshown (s : Store) : s.history none .asStored (key 2) none =
      .ok (s.messages .asStored (key 2)) := Store.history_eq_ok.mpr ⟨rfl, rfl⟩
  have hrows : (applauded applause).recorded (key 2) =
      ((applauded applause.reverse).recorded (key 2)).reverse := by
    decide +kernel
  have htotals := reactions_total_the_last_words (hshown (applauded applause))
  refine ⟨by decide +kernel, htotals.1, htotals.2 _ .asStored none _ rfl (fun row => ?_) (hshown _)⟩
  rw [hrows, List.mem_reverse]

end Wicara.Client
