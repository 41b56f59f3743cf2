import Wicara.Client.Clock
import Wicara.Client.Removal

namespace Wicara.Client

open Wicara.Core Lib Lib.Arrange

/-- A signed column takes the two for numbers of one sign. -/
def SameSign (a b : UInt64) : Prop := a.toNat < 2 ^ 63 ↔ b.toNat < 2 ^ 63

/-- `ts_ms` or else `seq` tells the two ids apart, and does so in the signed column as well. -/
def Apart (a b : MessageId) : Prop :=
  a.tsMs ≠ b.tsMs ∧ SameSign a.tsMs b.tsMs ∨
    a.tsMs = b.tsMs ∧ a.seq ≠ b.seq ∧ SameSign a.seq b.seq

section

variable {a b : MessageId}

theorem sortKey_lt_iff : SortKey.lt a.sortKey b.sortKey ↔
    a.tsMs.toNat < b.tsMs.toNat ∨ a.tsMs.toNat = b.tsMs.toNat ∧
      (a.seq.toNat < b.seq.toNat ∨ a.seq.toNat = b.seq.toNat ∧ a.sender < b.sender) := by
  simp only [SortKey.lt, MessageId.sortKey, UInt64.lt_iff_toNat_lt, UInt64.toNat_inj]

theorem sortKey_asymm (hab : SortKey.lt a.sortKey b.sortKey) :
    ¬SortKey.lt b.sortKey a.sortKey := by
  rw [sortKey_lt_iff] at hab ⊢
  rintro (hba | ⟨hts, hba | ⟨hseq, hba⟩⟩)
  · omega
  · omega
  · obtain hab | ⟨-, hab | ⟨-, hab⟩⟩ := hab
    · omega
    · omega
    · exact lt_asymm hba hab

end

namespace OpRow

variable {a b : OpRow}

theorem signed_lt_iff {x y : UInt64} (h : SameSign x y) : signed x < signed y ↔ x < y := by
  rw [UInt64.lt_iff_toNat_lt]
  unfold SameSign at h
  by_cases hx : x.toNat < 2 ^ 63
  · rw [signed_of_lt hx, signed_of_lt (h.mp hx), Int.ofNat_lt]
  · have hy : ¬y.toNat < 2 ^ 63 := fun hy => hx (h.mpr hy)
    rw [signed_of_ge (by omega), signed_of_ge (by omega)]
    omega

/-- Of two numbers of different sign the columns take the smaller one for the greater. -/
theorem signed_lt_of_not {x y : UInt64} (h : ¬SameSign x y) (hlt : x.toNat < y.toNat) :
    signed y < signed x := by
  have hy := y.toNat_lt
  unfold SameSign at h
  rw [signed_of_ge (by omega), signed_of_lt (by omega)]
  omega

theorem sortKey_lt_of_apart (h : Apart a.1 b.1) (hab : a.before b) :
    SortKey.lt a.1.sortKey b.1.sortKey := by
  rw [before_iff] at hab
  obtain ⟨hne, hsign⟩ | ⟨heq, hne, hsign⟩ := h
  · left
    change a.1.tsMs < b.1.tsMs
    rw [← signed_lt_iff hsign]
    have := mt signed_inj.mp hne
    omega
  · right
    refine ⟨heq, .inl ?_⟩
    change a.1.seq < b.1.seq
    rw [← signed_lt_iff hsign]
    have := mt signed_inj.mp hne
    rw [heq] at hab
    omega

/-- Where the columns order two ops as `sort_key` does, whichever of them comes first. -/
theorem apart_of_sortKey_lt (hab : a.before b → SortKey.lt a.1.sortKey b.1.sortKey)
    (hba : b.before a → SortKey.lt b.1.sortKey a.1.sortKey) : Apart a.1 b.1 := by
  simp only [before_iff, sortKey_lt_iff] at hab hba
  by_cases hts : a.1.tsMs = b.1.tsMs
  · by_cases hseq : a.1.seq = b.1.seq
    · have hasymm := @sortKey_asymm a.1 b.1
      simp only [sortKey_lt_iff, hts, hseq] at hasymm hab hba
      exact absurd (hba (by simp)) (hasymm (hab (by simp)))
    · refine .inr ⟨hts, hseq, ?_⟩
      by_contra hsign
      have hne : a.1.seq.toNat ≠ b.1.seq.toNat := mt UInt64.toNat_inj.mp hseq
      rcases Nat.lt_or_gt_of_ne hne with hlt | hgt
      · have := signed_lt_of_not hsign hlt
        rw [hts] at hba
        have := hba (.inr ⟨rfl, by omega⟩)
        omega
      · have := signed_lt_of_not (fun h => hsign h.symm) hgt
        rw [hts] at hab
        have := hab (.inr ⟨rfl, by omega⟩)
        omega
  · refine .inl ⟨hts, ?_⟩
    by_contra hsign
    have hne : a.1.tsMs.toNat ≠ b.1.tsMs.toNat := mt UInt64.toNat_inj.mp hts
    rcases Nat.lt_or_gt_of_ne hne with hlt | hgt
    · have := signed_lt_of_not hsign hlt
      have := hba (.inl this)
      omega
    · have := signed_lt_of_not (fun h => hsign h.symm) hgt
      have := hab (.inl this)
      omega

end OpRow

/-- Orders in which the database gives out `l` as `rows`. -/
def Orders.giving {l rows : List OpRow} (h : rows.Perm l) : Orders :=
  { Orders.asStored with
    ops := fun k => if k = l then rows else k
    ops_perm := fun k => by
      split
      · rename_i hk
        rwa [hk]
      · exact .refl k }

theorem Orders.ops_giving {l rows : List OpRow} (h : rows.Perm l) : (giving h).ops l = rows :=
  if_pos rfl

namespace Store

theorem nodup_recorded (s : Store) (peer : Key) : (s.recorded peer).Nodup :=
  s.ops.nodup.of_map.filter _

/-- The rows may come in any order, and this is all that `ORDER BY` leaves open. -/
theorem forall_orders_iff {P : List OpRow → Prop} (s : Store) (peer : Key) :
    (∀ orders, P (s.conversation orders peer)) ↔
      ∀ rows : List OpRow, rows.Perm (s.recorded peer) → P (rows.insertionSort OpRow.before) := by
  constructor
  · intro h rows hperm
    have horders := h (.giving hperm)
    unfold conversation at horders
    rwa [show (s.ops.rows.filter fun r => r.2.1 = peer) = s.recorded peer from rfl,
      Orders.ops_giving] at horders
  · exact fun h orders => h _ (orders.ops_perm _)

end Store

/-- Messages of a conversation are in the order of `sort_key`, however SQL is free to give them. -/
def Displays (s : Store) (peer : Key) : Prop :=
  ∀ orders msgs, s.history none orders peer none = .ok msgs →
    (msgs.map Message.id).Pairwise fun a b => SortKey.lt a.sortKey b.sortKey

theorem displays_iff (s : Store) (peer : Key) :
    Displays s peer ↔ ∀ a ∈ s.recorded peer, ∀ b ∈ s.recorded peer, a.posts = true →
      b.posts = true → a ≠ b → Apart a.1 b.1 := by
  have hids (orders : Orders) :
      (∀ msgs, s.history none orders peer none = .ok msgs →
        (msgs.map Message.id).Pairwise fun a b => SortKey.lt a.sortKey b.sortKey) ↔
      (s.conversation orders peer).Pairwise fun a b =>
        a.posts = true → b.posts = true → SortKey.lt a.1.sortKey b.1.sortKey := by
    simp only [Store.history_eq_ok, true_and, forall_eq]
    rw [Store.ids_messages, List.pairwise_map, List.pairwise_filter]
  rw [Displays, forall_congr' hids]
  rw [Store.forall_orders_iff (P := fun rows => rows.Pairwise fun a b =>
    a.posts = true → b.posts = true → SortKey.lt a.1.sortKey b.1.sortKey),
    forall_sorted_iff (s.nodup_recorded peer)]
  constructor
  · intro h a ha b hb hpa hpb hne
    exact OpRow.apart_of_sortKey_lt (fun hab => h a ha b hb hne hab hpa hpb)
      fun hba => h b hb a ha hne.symm hba hpb hpa
  · exact fun h a ha b hb hne hab hpa hpb =>
      OpRow.sortKey_lt_of_apart (h a ha b hb hpa hpb hne) hab

/-- Those who have the same ops see the same order, if it is the order of `sort_key`. -/
theorem Displays.ids_eq {s s' : Store} {peer : Key} (h : Displays s peer) (h' : Displays s' peer)
    (hops : (s.recorded peer).Perm (s'.recorded peer)) (orders orders' : Orders) :
    (s.messages orders peer).map Message.id = (s'.messages orders' peer).map Message.id := by
  have hperm : ((s.messages orders peer).map Message.id).Perm
      ((s'.messages orders' peer).map Message.id) := by
    rw [Store.ids_messages, Store.ids_messages]
    exact (((Store.conversation_perm.trans hops).trans Store.conversation_perm.symm).filter _).map _
  exact eq_of_perm_of_sorted hperm (fun a _ b _ hab hba => absurd hba (sortKey_asymm hab))
    (h orders _ (Store.history_eq_ok.mpr ⟨rfl, rfl⟩))
    (h' orders' _ (Store.history_eq_ok.mpr ⟨rfl, rfl⟩))

/-- Messages are listed in the order of `sort_key`, in whatever order SQL gives the rows, exactly
if any two of them are told apart by `ts_ms` or `seq`, and so that the sign of the columns does not
matter.  All who have the same ops see them in one order then. -/
theorem history_in_sort_key_order_iff (s : Store) (peer : Key) :
    (Displays s peer ↔ ∀ a ∈ s.recorded peer, ∀ b ∈ s.recorded peer, a.posts = true →
      b.posts = true → a ≠ b → Apart a.1 b.1) ∧
    (Displays s peer → ∀ s' : Store, (s.recorded peer).Perm (s'.recorded peer) →
      ∀ orders orders',
        (s.messages orders peer).map Message.id = (s'.messages orders' peer).map Message.id) := by
  refine ⟨displays_iff s peer, fun h s' hops orders orders' => h.ids_eq ?_ hops orders orders'⟩
  rw [displays_iff] at h ⊢
  exact fun a ha b hb => h a (hops.mem_iff.mpr ha) b (hops.mem_iff.mpr hb)

namespace Sample

open Core.Sample

/-- The first time that a signed column takes for a negative one. -/
def farAhead : UInt64 := 9223372036854775808

/-- 1 and 2 write their first message in one millisecond, and 2 dates its second far ahead. -/
def tied : Store :=
  [.chat ⟨key 2, 1, 10⟩ "first" none, .chat ⟨key 1, 1, 10⟩ "first" none,
    .chat ⟨key 2, 2, farAhead⟩ "later" none].foldl (entered (key 2)) (Store.fresh (key 1))

end Sample

open Core.Sample Sample in
/-- The last is shown first, and the tie is broken by which of the two was recorded first. -/
theorem tie_and_sign_turn_history_around :
    (tied.messages .asStored (key 2)).map Message.id =
      [⟨key 2, 2, farAhead⟩, ⟨key 2, 1, 10⟩, ⟨key 1, 1, 10⟩] ∧
    ¬∀ (s : Store) (peer : Key), Displays s peer := by
  have hids : (tied.messages .asStored (key 2)).map Message.id =
      [⟨key 2, 2, farAhead⟩, ⟨key 2, 1, 10⟩, ⟨key 1, 1, 10⟩] := by
    decide +kernel
  refine ⟨hids, fun h => ?_⟩
  have hsorted := h tied (key 2) .asStored _ (Store.history_eq_ok.mpr ⟨rfl, rfl⟩)
  rw [hids] at hsorted
  have hfirst := List.rel_of_pairwise_cons hsorted (.head _)
  rw [sortKey_lt_iff] at hfirst
  exact absurd hfirst (by decide +kernel)

end Wicara.Client
