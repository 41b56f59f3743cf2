import Wicara.Client.Convergence

namespace Wicara.Client

open Wicara.Core Lib Lib.Fallible Lib.Arrange

/-- The same op in another conversation. -/
def OpRow.under (peer : Key) (row : OpRow) : OpRow := (row.1, peer, row.2.2)

/-- A reaction's slot but for whether it is one's own. -/
def blank (slot : String × Nat × Bool) : String × Nat × Bool := (slot.1, slot.2.1, false)

/-- What of a message is the same for all who have it: not who it is for whom one's own, nor where
the file is. -/
def Message.impersonal (m : Message) : Message where
  id := m.id
  body := m.body
  outbound := false
  deleted := m.deleted
  replyTo := m.replyTo
  reactions := m.reactions.map blank
  attachment := m.attachment.map fun a => { a with path := none }

/-- One holds of its conversation with `peer` what the other holds of the one with `peer'`. -/
def Store.SameTalk (s : Store) (peer : Key) (s' : Store) (peer' : Key) : Prop :=
  ∀ id op, s.ops.get id = some (peer, op) ↔ s'.ops.get id = some (peer', op)

section Reactions

variable {me me' : Key} {id : MessageId}

theorem map_blank_bump (emoji : String) (mine mine' : Bool)
    {slots slots' : List (String × Nat × Bool)} (h : slots.map blank = slots'.map blank) :
    (bump emoji mine slots).map blank = (bump emoji mine' slots').map blank := by
  induction slots generalizing slots' with
  | nil =>
    obtain rfl := List.map_eq_nil_iff.mp h.symm
    rfl
  | cons slot slots ih =>
    obtain ⟨slot', slots', rfl⟩ := List.exists_cons_of_length_pos (l := slots') (by
      have := congrArg List.length h
      simp only [List.length_map, List.length_cons] at this
      omega)
    rw [List.map_cons, List.map_cons, List.cons.injEq] at h
    obtain ⟨e, n, m⟩ := slot
    obtain ⟨e', n', m'⟩ := slot'
    obtain ⟨hslot, hrest⟩ := h
    simp only [blank, Prod.mk.injEq, and_true] at hslot
    obtain ⟨rfl, rfl⟩ := hslot
    rw [bump, bump]
    split
    · rw [List.map_cons, List.map_cons, hrest]
      rfl
    · rw [List.map_cons, List.map_cons, ih hrest]
      rfl

theorem map_blank_tally (r : (MessageId × String × Key) × Bool)
    {slots slots' : List (String × Nat × Bool)} (h : slots.map blank = slots'.map blank) :
    (tally me id slots r).map blank = (tally me' id slots' r).map blank := by
  obtain ⟨⟨target, emoji, reactor⟩, on⟩ := r
  cases on with
  | false => exact h
  | true =>
    rw [tally, tally]
    split
    · exact map_blank_bump _ _ _ h
    · exact h

theorem map_blank_foldl_tally (rs : List ((MessageId × String × Key) × Bool))
    {slots slots' : List (String × Nat × Bool)} (h : slots.map blank = slots'.map blank) :
    (rs.foldl (tally me id) slots).map blank = (rs.foldl (tally me' id) slots').map blank := by
  induction rs generalizing slots slots' with
  | nil => exact h
  | cons r rs ih => exact ih (map_blank_tally r h)

/-- Counting is the same for everyone, in whatever order. -/
theorem blank_sorted_tally (me me' : Key) (id : MessageId)
    {rs rs' : List ((MessageId × String × Key) × Bool)} (h : rs.Perm rs') :
    ((rs.foldl (tally me id) []).insertionSort fun a b => a.1 ≤ b.1).map blank =
      ((rs'.foldl (tally me' id) []).insertionSort fun a b => a.1 ≤ b.1).map blank := by
  have hsort (slots : List (String × Nat × Bool)) :
      (slots.insertionSort fun a b => a.1 ≤ b.1).map blank =
        (slots.map blank).insertionSort fun a b => a.1 ≤ b.1 :=
    List.map_insertionSort _ _ _ _ fun _ _ _ _ => Iff.rfl
  have hnodup : (([] : List (String × Nat × Bool)).map Prod.fst).Nodup := List.nodup_nil
  rw [sorted_tally_eq_of_perm me id h hnodup, hsort, hsort, map_blank_foldl_tally rs' rfl]

end Reactions

section Content

variable {me me' : Key} {settings settings' : Table String String}

theorem impersonal_posted (row : OpRow) (me me' : Key) (settings settings' : Table String String) :
    (row.posted me settings).map Message.impersonal =
    (row.posted me' settings').map Message.impersonal := by
  unfold OpRow.posted
  split <;> rfl

theorem impersonal_revise (m : Message) (row : OpRow) :
    (OpRow.revise m row).impersonal = OpRow.revise m.impersonal row := by
  unfold OpRow.revise
  split
  · rw [apply_ite Message.impersonal]
    rfl
  · rw [apply_ite Message.impersonal]
    rfl
  · rfl

theorem impersonal_foldl_revise (m : Message) (rows : List OpRow) :
    (rows.foldl OpRow.revise m).impersonal = rows.foldl OpRow.revise m.impersonal := by
  induction rows generalizing m with
  | nil => rfl
  | cons row rows ih => rw [List.foldl_cons, ih, impersonal_revise, List.foldl_cons]

/-- The content of a conversation is the same for everyone. -/
theorem impersonal_content (rows : List OpRow) (me me' : Key)
    (settings settings' : Table String String) :
    (content me settings rows).map Message.impersonal =
      (content me' settings' rows).map Message.impersonal := by
  have hhead (row : OpRow) (rows : List OpRow) (me : Key) (settings : Table String String) :
      (((row.posted me settings).map (rows.foldl OpRow.revise)).toList).map Message.impersonal =
        (((row.posted me settings).map Message.impersonal).map
          (rows.foldl OpRow.revise)).toList := by
    cases row.posted me settings with
    | none => rfl
    | some m => simp [impersonal_foldl_revise]
  induction rows with
  | nil => rfl
  | cons row rows ih =>
    rw [content, content, List.map_append, List.map_append, ih, hhead, hhead,
      impersonal_posted row me me' settings settings']

/-- Under which key it is kept says nothing of what a conversation is. -/
theorem content_under (peer : Key) (rows : List OpRow) :
    content me settings (rows.map (OpRow.under peer)) = content me settings rows := by
  have hrevise (rows : List OpRow) : (fun m => (rows.map (OpRow.under peer)).foldl OpRow.revise m) =
      fun m => rows.foldl OpRow.revise m := by
    funext m
    rw [List.foldl_map]
    rfl
  induction rows with
  | nil => rfl
  | cons row rows ih =>
    rw [List.map_cons, content, content, ih, hrevise]
    rfl

theorem foldl_settle_under (peer : Key) (key : MessageId × String × Key) (state : Option Bool)
    (rows : List OpRow) :
    (rows.map (OpRow.under peer)).foldl (OpRow.settle key) state =
      rows.foldl (OpRow.settle key) state := by
  rw [List.foldl_map]
  rfl

end Content

namespace Store

variable {s s' : Store} {peer peer' : Key} {orders orders' : Orders}

theorem SameTalk.symm (h : s.SameTalk peer s' peer') : s'.SameTalk peer' s peer :=
  fun id op => (h id op).symm

theorem SameTalk.mem_iff (h : s.SameTalk peer s' peer') (row : OpRow) :
    row ∈ s.conversation orders peer ↔
      row.2.1 = peer ∧ row.under peer' ∈ s'.conversation orders' peer' := by
  obtain ⟨id, conversation, op⟩ := row
  rw [mem_conversation, mem_conversation, ← Table.get_eq_some, ← Table.get_eq_some]
  refine ⟨?_, ?_⟩
  · rintro ⟨hrow, rfl⟩
    exact ⟨rfl, (h id op).mp hrow, rfl⟩
  · rintro ⟨rfl, hrow, -⟩
    exact ⟨(h id op).mpr hrow, rfl⟩

/-- Each sender's ops come in one order, in whose store ever. -/
theorem SameTalk.filter_conversation (h : s.SameTalk peer s' peer') (orders orders' : Orders)
    (sender : Key) :
    ((s.conversation orders peer).filter fun row => row.1.sender = sender) =
      ((s'.conversation orders' peer').map (OpRow.under peer)).filter
        fun row => row.1.sender = sender := by
  have hids : ((s'.conversation orders' peer').map (OpRow.under peer)).map Prod.fst =
      (s'.conversation orders' peer').map Prod.fst := by
    rw [List.map_map]
    rfl
  have hnodup : (((s'.conversation orders' peer').map (OpRow.under peer)).map Prod.fst).Nodup := by
    rw [hids]
    exact nodup_conversation _ _ _
  have hsorted : ((s'.conversation orders' peer').map (OpRow.under peer)).Pairwise
      OpRow.before := by
    rw [List.pairwise_map]
    exact List.pairwise_insertionSort OpRow.before _
  have hperm : ((s.conversation orders peer).filter fun row => row.1.sender = sender).Perm
      (((s'.conversation orders' peer').map (OpRow.under peer)).filter
        fun row => row.1.sender = sender) := by
    rw [List.perm_ext_iff_of_nodup ((nodup_conversation s orders peer).of_map.filter _)
      (hnodup.of_map.filter _)]
    intro row
    rw [List.mem_filter, List.mem_filter]
    refine and_congr_left fun _ => ?_
    rw [h.mem_iff, List.mem_map]
    constructor
    · rintro ⟨hpeer, hrow⟩
      exact ⟨_, hrow, by rw [← hpeer]; rfl⟩
    · rintro ⟨row', hrow, rfl⟩
      refine ⟨rfl, ?_⟩
      have hpeer := (mem_conversation.mp hrow).2
      rwa [show OpRow.under peer' (OpRow.under peer row') = row' by rw [← hpeer]; rfl]
  refine eq_of_perm_of_sorted hperm (fun a ha b hb hab hba => ?_)
    ((List.pairwise_insertionSort OpRow.before _).filter _) (hsorted.filter _)
  simp only [List.mem_filter, decide_eq_true_eq] at ha hb
  exact List.inj_on_of_nodup_map (nodup_conversation _ _ _) ha.1 hb.1
    (OpRow.id_eq_of_before (ha.2.trans hb.2.symm) hab hba)

theorem SameTalk.reactions_perm (h : s.SameTalk peer s' peer') :
    (s.reactions orders peer).rows.Perm (s'.reactions orders' peer').rows := by
  rw [List.perm_ext_iff_of_nodup (s.reactions orders peer).nodup.of_map
    (s'.reactions orders' peer').nodup.of_map]
  rintro ⟨key, on⟩
  rw [← Table.get_eq_some, ← Table.get_eq_some, get_reactions, get_reactions,
    ← foldl_settle_filter, h.filter_conversation orders orders', foldl_settle_filter,
    foldl_settle_under]

theorem SameTalk.content_perm (h : s.SameTalk peer s' peer') (me : Key)
    (settings : Table String String) :
    (content me settings (s.conversation orders peer)).Perm
      (content me settings (s'.conversation orders' peer')) := by
  rw [← content_under peer (s'.conversation orders' peer')]
  refine perm_of_filter (fun m => m.id.sender) fun sender => ?_
  rw [filter_content, filter_content, h.filter_conversation orders orders']

/-- What is told of a conversation does not depend on whose it is. -/
theorem impersonal_messages (s : Store) (orders : Orders) (peer : Key) (me' : Key)
    (settings' : Table String String) :
    (s.messages orders peer).map Message.impersonal =
      ((content me' settings' (s.conversation orders peer)).map Message.impersonal).map fun m =>
        { m with reactions := (((orders.reactions (s.reactions orders peer).rows).foldl
          (tally me' m.id) []).insertionSort fun a b => a.1 ≤ b.1).map blank } := by
  rw [messages_eq, ← impersonal_content _ s.me me' s.settings settings', List.map_map,
    List.map_map]
  refine List.map_congr_left fun m hm => ?_
  have hslots := blank_sorted_tally s.me me' m.id
    (List.Perm.refl (orders.reactions (s.reactions orders peer).rows))
  rw [← reactions_of_mem_content hm] at hslots
  exact congrArg (fun slots => { m.impersonal with reactions := slots })
    (hslots.trans (by rw [reactions_of_mem_content hm]))

/-- Those who hold the same ops of a conversation are shown the same, whoever they are and under
whichever key they keep it. -/
theorem SameTalk.messages_perm (h : s.SameTalk peer s' peer') :
    ((s.messages orders peer).map Message.impersonal).Perm
      ((s'.messages orders' peer').map Message.impersonal) := by
  rw [impersonal_messages s orders peer s.me s.settings,
    impersonal_messages s' orders' peer' s.me s.settings]
  have hcontent : (content s.me s.settings (s.conversation orders peer)).Perm
      (content s.me s.settings (s'.conversation orders' peer')) := h.content_perm _ _
  refine ((hcontent.map _).map _).trans (.of_eq ?_)
  refine List.map_congr_left fun m _ => ?_
  have hreactions : (orders.reactions (s.reactions orders peer).rows).Perm
      (orders'.reactions (s'.reactions orders' peer').rows) :=
    ((orders.reactions_perm _).trans h.reactions_perm).trans (orders'.reactions_perm _).symm
  rw [blank_sorted_tally _ _ _ hreactions]

end Store

end Wicara.Client
