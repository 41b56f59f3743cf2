import Mathlib.Data.String.Basic
import Wicara.Client.History
import Wicara.Lib.Arrange

namespace Wicara.Client

open Wicara.Core Lib Lib.Fallible Lib.Arrange

namespace OpRow

/-- The message that an op posts. -/
def posted (me : Key) (settings : Table String String) (row : OpRow) : Option Message :=
  match row.2.2 with
  | .chat _ body replyTo => some (Fold.message me row.1 body replyTo none)
  | .file _ name size hash =>
    some (Fold.message me row.1 name none (some ⟨name, size, hash, settings.get (fileKey row.1)⟩))
  | _ => none

/-- What an op makes of a message that is there. -/
def revise (m : Message) (row : OpRow) : Message :=
  match row.2.2 with
  | .edit _ target body =>
    if target.sender = row.1.sender ∧ m.id = target then { m with body := body } else m
  | .delete _ target =>
    if target.sender = row.1.sender ∧ m.id = target then { m with deleted := true, body := "" }
    else m
  | _ => m

/-- What an op makes of one reaction. -/
def settle (key : MessageId × String × Key) (state : Option Bool) (row : OpRow) : Option Bool :=
  match row.2.2 with
  | .react _ target emoji on => if key = (target, emoji, row.1.sender) then some on else state
  | _ => state

theorem id_posted {me : Key} {settings : Table String String} {row : OpRow} {m : Message}
    (h : row.posted me settings = some m) : m.id = row.1 := by
  unfold posted at h
  split at h
  · cases h
    rfl
  · cases h
    rfl
  · cases h

@[simp] theorem id_revise (m : Message) (row : OpRow) : (revise m row).id = m.id := by
  unfold revise
  split
  · split <;> rfl
  · split <;> rfl
  · rfl

/-- Ops change the text of a message and whether it is deleted, and nothing else. -/
theorem foldl_revise_eq {f : Message → α} (hbody : ∀ m body, f { m with body := body } = f m)
    (hdeleted : ∀ m, f { m with deleted := true, body := "" } = f m) (m : Message)
    (rows : List OpRow) : f (rows.foldl revise m) = f m := by
  induction rows generalizing m with
  | nil => rfl
  | cons row rows ih =>
    rw [List.foldl_cons, ih]
    unfold revise
    split
    · split
      · exact hbody _ _
      · rfl
    · split
      · exact hdeleted _
      · rfl
    · rfl

@[simp] theorem id_foldl_revise (m : Message) (rows : List OpRow) :
    (rows.foldl revise m).id = m.id :=
  foldl_revise_eq (f := Message.id) (fun _ _ => rfl) (fun _ => rfl) m rows

/-- Nobody revises what another has posted. -/
theorem revise_of_sender_ne {m : Message} {row : OpRow} (h : row.1.sender ≠ m.id.sender) :
    revise m row = m := by
  unfold revise
  split
  · rw [if_neg]
    rintro ⟨hsender, rfl⟩
    exact h hsender.symm
  · rw [if_neg]
    rintro ⟨hsender, rfl⟩
    exact h hsender.symm
  · rfl

/-- Nobody settles another's reaction. -/
theorem settle_of_sender_ne {key : MessageId × String × Key} {row : OpRow}
    (h : row.1.sender ≠ key.2.2) (state : Option Bool) : settle key state row = state := by
  unfold settle
  split
  · rw [if_neg]
    rintro rfl
    exact h rfl
  · rfl

end OpRow

open OpRow

/-- The messages of a conversation before any reaction is counted: each as those ops leave it
that come after it. -/
def content (me : Key) (settings : Table String String) : List OpRow → List Message
  | [] => []
  | row :: rows =>
    ((row.posted me settings).map (rows.foldl revise)).toList ++ content me settings rows

/-- What has a message is an op that posts it, and those after it that revise it. -/
theorem mem_content {me : Key} {settings : Table String String} {rows : List OpRow} {m : Message} :
    m ∈ content me settings rows ↔ ∃ before row after posted,
      rows = before ++ row :: after ∧ row.posted me settings = some posted ∧
        m = after.foldl OpRow.revise posted := by
  induction rows with
  | nil => simp [content]
  | cons row rows ih =>
    rw [content, List.mem_append, Option.mem_toList, Option.map_eq_some_iff, ih]
    constructor
    · rintro (⟨posted, hposted, rfl⟩ | ⟨before, row', after, posted, rfl, hposted, rfl⟩)
      · exact ⟨[], row, rows, posted, rfl, hposted, rfl⟩
      · exact ⟨row :: before, row', after, posted, rfl, hposted, rfl⟩
    · rintro ⟨before, row', after, posted, hrows, hposted, rfl⟩
      cases before with
      | nil =>
        cases hrows
        exact .inl ⟨posted, hposted, rfl⟩
      | cons _ before =>
        cases hrows
        exact .inr ⟨before, row', after, posted, rfl, hposted, rfl⟩

theorem reactions_posted {me : Key} {settings : Table String String} {row : OpRow} {m : Message}
    (h : row.posted me settings = some m) : m.reactions = [] := by
  unfold posted at h
  split at h
  · cases h
    rfl
  · cases h
    rfl
  · cases h

theorem reactions_foldl_revise (m : Message) (rows : List OpRow) :
    (rows.foldl revise m).reactions = m.reactions :=
  foldl_revise_eq (f := Message.reactions) (fun _ _ => rfl) (fun _ => rfl) m rows

theorem reactions_of_mem_content {me : Key} {settings : Table String String} {rows : List OpRow}
    {m : Message} (h : m ∈ content me settings rows) : m.reactions = [] := by
  induction rows with
  | nil => cases h
  | cons row rows ih =>
    rw [content, List.mem_append, Option.mem_toList, Option.map_eq_some_iff] at h
    obtain ⟨posted, hposted, rfl⟩ | h := h
    · rw [reactions_foldl_revise, reactions_posted hposted]
    · exact ih h

namespace Fold

/-- The slots say where the messages are. -/
structure Indexed (fold : Fold) : Prop where
  nodup : (fold.messages.map Message.id).Nodup
  slots : ∀ id i, fold.slots.get id = some i ↔ (fold.messages[i]?).map Message.id = some id

variable {fold : Fold} {f : Message → Message}

theorem Indexed.empty : Indexed .empty := ⟨List.nodup_nil, fun _ _ => by simp [Fold.empty]⟩

theorem Indexed.get_eq_none (h : fold.Indexed) {id : MessageId} :
    fold.slots.get id = none ↔ id ∉ fold.messages.map Message.id := by
  rw [Option.eq_none_iff_forall_ne_some, List.mem_iff_getElem?, not_exists]
  simp only [ne_eq, h.slots, List.getElem?_map]

/-- The slot finds the message of that id, and no other. -/
theorem Indexed.messages_update (h : fold.Indexed) (target : MessageId) :
    (fold.update target f).messages =
      fold.messages.map fun m => if m.id = target then f m else m := by
  unfold update
  split
  · rename_i i hi
    have hat := (h.slots target i).mp hi
    refine List.ext_getElem? fun j => ?_
    rw [List.getElem?_modify, List.getElem?_map]
    cases hj : fold.messages[j]? with
    | none => simp
    | some m =>
      by_cases hij : i = j
      · subst hij
        rw [hj] at hat
        simp [Option.some.inj hat]
      · have hne : m.id ≠ target := by
          rintro rfl
          have hslot := (h.slots m.id j).mpr (by rw [hj]; rfl)
          rw [hi] at hslot
          exact hij (Option.some.inj hslot)
        simp [hij, hne]
  · rename_i hnone
    rw [h.get_eq_none] at hnone
    have hsame : (fold.messages.map fun m => if m.id = target then f m else m) =
        fold.messages.map id :=
      List.map_congr_left fun m hm => if_neg fun heq : m.id = target =>
        hnone (heq ▸ List.mem_map_of_mem hm)
    rw [hsame, List.map_id]

theorem reactions_update (target : MessageId) :
    (fold.update target f).reactions = fold.reactions := by
  unfold update
  split <;> rfl

theorem Indexed.update (h : fold.Indexed) (hf : ∀ m, (f m).id = m.id) (target : MessageId) :
    (fold.update target f).Indexed := by
  have hids : (fold.update target f).messages.map Message.id = fold.messages.map Message.id := by
    rw [h.messages_update, List.map_map]
    refine List.map_congr_left fun m _ => ?_
    simp only [Function.comp_apply]
    split
    · exact hf m
    · rfl
  have hslots : (fold.update target f).slots = fold.slots := by
    unfold Fold.update
    split <;> rfl
  constructor
  · rw [hids]
    exact h.nodup
  · intro id i
    rw [hslots, ← List.getElem?_map, hids, List.getElem?_map]
    exact h.slots id i

theorem Indexed.push (h : fold.Indexed) {message : Message}
    (hnew : message.id ∉ fold.messages.map Message.id) : (fold.push message).Indexed := by
  constructor
  · simp only [Fold.push, List.map_append, List.map_cons, List.map_nil]
    exact List.Nodup.append h.nodup (List.nodup_singleton _) (by simpa using hnew)
  · intro id i
    simp only [Fold.push, Table.get_upsert, List.getElem?_append]
    by_cases hi : i < fold.messages.length
    · rw [if_pos hi]
      split
      · rename_i hid
        subst hid
        refine iff_of_false (fun heq => ?_) fun hat => hnew ?_
        · rw [Option.some.injEq] at heq
          omega
        · rw [← List.getElem?_map] at hat
          exact List.mem_of_getElem? hat
      · exact h.slots id i
    · rw [if_neg hi]
      split
      · rename_i hid
        subst hid
        obtain hlt | heq := (not_lt.mp hi).lt_or_eq
        · have hout : i - fold.messages.length ≠ 0 := by omega
          simp [hlt.ne, hout]
        · simp [heq]
      · rename_i hid
        rw [h.slots, List.getElem?_eq_none (not_lt.mp hi), List.getElem?_singleton]
        split <;> simp [Ne.symm hid]

variable {me : Key} {settings : Table String String} {row : OpRow} {rows : List OpRow}

/-- An op posts its message, or revises the one it targets. -/
theorem Indexed.op (h : fold.Indexed) (hnew : row.1 ∉ fold.messages.map Message.id) :
    (fold.op me settings row).Indexed ∧
      (fold.op me settings row).messages =
        fold.messages.map (revise · row) ++ (row.posted me settings).toList := by
  obtain ⟨id, peer, frame⟩ := row
  have hquiet (hrevise : ∀ m, revise m (id, peer, frame) = m) :
      fold.messages.map (revise · (id, peer, frame)) = fold.messages := by
    simp [hrevise]
  cases frame with
  | chat _ body replyTo =>
    exact ⟨h.push hnew, by rw [hquiet fun _ => rfl]; rfl⟩
  | file _ name size hash =>
    exact ⟨h.push hnew, by rw [hquiet fun _ => rfl]; rfl⟩
  | edit _ target body =>
    by_cases hauthor : target.sender = id.sender
    · simp only [Fold.op, revise, posted, hauthor, if_true, true_and, Option.toList_none,
        List.append_nil]
      exact ⟨h.update (by intros; rfl) target, h.messages_update target⟩
    · simp only [Fold.op, revise, posted, hauthor, if_false, false_and, Option.toList_none,
        List.append_nil, List.map_id']
      exact ⟨h, trivial⟩
  | delete _ target =>
    by_cases hauthor : target.sender = id.sender
    · simp only [Fold.op, revise, posted, hauthor, if_true, true_and, Option.toList_none,
        List.append_nil]
      exact ⟨h.update (by intros; rfl) target, h.messages_update target⟩
    · simp only [Fold.op, revise, posted, hauthor, if_false, false_and, Option.toList_none,
        List.append_nil, List.map_id']
      exact ⟨h, trivial⟩
  | react _ target emoji on =>
    exact ⟨⟨h.nodup, h.slots⟩, by rw [hquiet fun _ => rfl]; simp [Fold.op, posted]⟩
  | hello nickname => exact ⟨h, by rw [hquiet fun _ => rfl]; simp [Fold.op, posted]⟩
  | inRoom room op => exact ⟨h, by rw [hquiet fun _ => rfl]; simp [Fold.op, posted]⟩
  | roomUpdated room log => exact ⟨h, by rw [hquiet fun _ => rfl]; simp [Fold.op, posted]⟩

theorem Indexed.foldl_op (h : fold.Indexed) (hrows : (rows.map Prod.fst).Nodup)
    (hnew : ∀ row ∈ rows, row.1 ∉ fold.messages.map Message.id) :
    (rows.foldl (Fold.op me settings) fold).Indexed ∧
      (rows.foldl (Fold.op me settings) fold).messages =
        fold.messages.map (rows.foldl revise) ++ content me settings rows := by
  induction rows generalizing fold with
  | nil => exact ⟨h, by simp [content]⟩
  | cons row rows ih =>
    rw [List.map_cons, List.nodup_cons] at hrows
    obtain ⟨hop, hmessages⟩ : (fold.op me settings row).Indexed ∧
        (fold.op me settings row).messages =
          fold.messages.map (revise · row) ++ (row.posted me settings).toList :=
      h.op (hnew row List.mem_cons_self)
    have hlater : ∀ later ∈ rows,
        later.1 ∉ (fold.op me settings row).messages.map Message.id := by
      intro later hlater hmem
      rw [hmessages, List.map_append, List.mem_append, List.map_map] at hmem
      obtain hold | hposted := hmem
      · refine hnew later (List.mem_cons_of_mem _ hlater) ?_
        simpa only [Function.comp_def, id_revise] using hold
      · obtain ⟨m, hm, hid⟩ := List.mem_map.mp hposted
        rw [Option.mem_toList] at hm
        rw [id_posted hm] at hid
        exact hrows.1 (hid ▸ List.mem_map_of_mem hlater)
    obtain ⟨hfold, hrest⟩ := ih hop hrows.2 hlater
    refine ⟨hfold, hrest.trans ?_⟩
    rw [hmessages, List.map_append, List.map_map, List.append_assoc, content]
    cases row.posted me settings <;> simp [Function.comp_def]

/-- The states of the reactions, one by one. -/
theorem get_foldl_op (rows : List OpRow) (fold : Fold) (key : MessageId × String × Key) :
    (rows.foldl (Fold.op me settings) fold).reactions.get key =
      rows.foldl (settle key) (fold.reactions.get key) := by
  have hop (fold : Fold) (row : OpRow) :
      (fold.op me settings row).reactions.get key = settle key (fold.reactions.get key) row := by
    obtain ⟨id, peer, frame⟩ := row
    cases frame with
    | react _ target emoji on => exact Table.get_upsert _ _ _ _
    | edit _ target body =>
      simp only [Fold.op, settle]
      split
      · rw [reactions_update]
      · rfl
    | delete _ target =>
      simp only [Fold.op, settle]
      split
      · rw [reactions_update]
      · rfl
    | _ => rfl
  induction rows generalizing fold with
  | nil => rfl
  | cons row rows ih => rw [List.foldl_cons, ih, hop, List.foldl_cons]

end Fold

variable {me : Key} {settings : Table String String}

/-- What a sender has posted is what there is in a conversation with itself. -/
theorem filter_content (sender : Key) (rows : List OpRow) :
    ((content me settings rows).filter fun m => m.id.sender = sender) =
      content me settings (rows.filter fun row => row.1.sender = sender) := by
  induction rows with
  | nil => rfl
  | cons row rows ih =>
    rw [content, List.filter_append, ih]
    by_cases hsender : row.1.sender = sender
    · rw [List.filter_cons_of_pos (by simpa using hsender), content]
      congr 1
      cases hposted : row.posted me settings with
      | none => rfl
      | some m =>
        have hm : m.id.sender = sender := by rw [id_posted hposted, hsender]
        have hskip : (rows.filter fun row => row.1.sender = sender).foldl revise m =
            rows.foldl revise m := by
          refine foldl_filter_of_ignores (fun m : Message => m.id.sender = sender)
            (fun m row hm => by rwa [id_revise]) (fun m row hm hother => ?_) hm rows
          exact revise_of_sender_ne (by simpa [hm] using hother)
        simp [hskip, hm]
    · rw [List.filter_cons_of_neg (by simpa using hsender)]
      cases hposted : row.posted me settings with
      | none => rfl
      | some m =>
        have hm : m.id.sender ≠ sender := by rwa [id_posted hposted]
        simp [hm]

/-- The states of a reactor's reactions are settled by its own ops. -/
theorem foldl_settle_filter (key : MessageId × String × Key) (state : Option Bool)
    (rows : List OpRow) :
    (rows.filter fun row => row.1.sender = key.2.2).foldl (settle key) state =
      rows.foldl (settle key) state :=
  foldl_filter_of_ignores (fun _ => True) (fun _ _ _ => trivial)
    (fun state row _ hother => settle_of_sender_ne (by simpa using hother) state) trivial rows

/-- One reaction on a message's list, if it is on and on that message. -/
def tally (me : Key) (id : MessageId) (slots : List (String × Nat × Bool)) :
    (MessageId × String × Key) × Bool → List (String × Nat × Bool)
  | (_, false) => slots
  | ((target, emoji, reactor), true) =>
    if id = target then bump emoji (reactor = me) slots else slots

/-- What one reaction makes of the slot of an emoji. -/
def tallySlot (me : Key) (id : MessageId) (emoji : String) (slot : Option (Nat × Bool)) :
    (MessageId × String × Key) × Bool → Option (Nat × Bool)
  | (_, false) => slot
  | ((target, emoji', reactor), true) =>
    if id = target ∧ emoji = emoji' then
      some ((slot.map Prod.fst).getD 0 + 1, (slot.map Prod.snd).getD false || reactor = me)
    else slot

theorem Fold.Indexed.react {fold : Fold} (h : fold.Indexed)
    (r : (MessageId × String × Key) × Bool) :
    (fold.react me r).Indexed ∧
      (fold.react me r).messages =
        fold.messages.map fun m => { m with reactions := tally me m.id m.reactions r } := by
  obtain ⟨⟨target, emoji, reactor⟩, on⟩ := r
  cases on with
  | false => exact ⟨h, by simp [Fold.react, tally]⟩
  | true =>
    refine ⟨h.update (by intros; rfl) target, (h.messages_update target).trans ?_⟩
    refine List.map_congr_left fun m _ => ?_
    by_cases hid : m.id = target <;> simp [tally, hid]

theorem Fold.Indexed.foldl_react {fold : Fold} (h : fold.Indexed) (me : Key)
    (rs : List ((MessageId × String × Key) × Bool)) :
    (rs.foldl (Fold.react me) fold).messages =
      fold.messages.map fun m => { m with reactions := rs.foldl (tally me m.id) m.reactions } := by
  induction rs generalizing fold with
  | nil => simp
  | cons r rs ih =>
    obtain ⟨hreact, hmessages⟩ : (fold.react me r).Indexed ∧ (fold.react me r).messages =
        fold.messages.map fun m => { m with reactions := tally me m.id m.reactions r } := h.react r
    rw [List.foldl_cons, ih hreact, hmessages, List.map_map]
    rfl

theorem keys_bump (emoji : String) (mine : Bool) (slots : List (String × Nat × Bool)) :
    (bump emoji mine slots).map Prod.fst =
      if emoji ∈ slots.map Prod.fst then slots.map Prod.fst else slots.map Prod.fst ++ [emoji] := by
  induction slots with
  | nil => rfl
  | cons slot slots ih =>
    obtain ⟨e, n, m⟩ := slot
    rw [bump]
    by_cases he : e = emoji
    · simp [he]
    · simp only [he, if_false, List.map_cons, ih, List.mem_cons, Ne.symm he, false_or]
      split <;> rfl

theorem lookup_bump (emoji emoji' : String) (mine : Bool) (slots : List (String × Nat × Bool)) :
    (bump emoji' mine slots).lookup emoji =
      if emoji = emoji' then
        some (((slots.lookup emoji).map Prod.fst).getD 0 + 1,
          ((slots.lookup emoji).map Prod.snd).getD false || mine)
      else slots.lookup emoji := by
  induction slots with
  | nil =>
    by_cases h : emoji = emoji'
    · simp [bump, h]
    · have hb : (emoji == emoji') = false := beq_eq_false_iff_ne.mpr h
      simp [bump, List.lookup_cons, h, hb]
  | cons slot slots ih =>
    obtain ⟨e, n, m⟩ := slot
    rw [bump]
    by_cases he : e = emoji'
    · subst he
      by_cases h : emoji = e
      · simp [h]
      · have hb : (emoji == e) = false := beq_eq_false_iff_ne.mpr h
        simp [List.lookup_cons, h, hb]
    · rw [if_neg he, List.lookup_cons, List.lookup_cons, ih]
      by_cases h : emoji = e
      · simp [h, he]
      · have hb : (emoji == e) = false := beq_eq_false_iff_ne.mpr h
        simp [hb]

theorem nodup_tally {id : MessageId} {slots : List (String × Nat × Bool)}
    (h : (slots.map Prod.fst).Nodup) (r : (MessageId × String × Key) × Bool) :
    ((tally me id slots r).map Prod.fst).Nodup := by
  obtain ⟨⟨target, emoji, reactor⟩, on⟩ := r
  cases on with
  | false => exact h
  | true =>
    rw [tally]
    split
    · rw [keys_bump]
      split
      · exact h
      · rename_i hnew
        exact List.Nodup.append h (List.nodup_singleton _) (by simpa using hnew)
    · exact h

theorem lookup_tally (id : MessageId) (emoji : String) (slots : List (String × Nat × Bool))
    (r : (MessageId × String × Key) × Bool) :
    (tally me id slots r).lookup emoji = tallySlot me id emoji (slots.lookup emoji) r := by
  obtain ⟨⟨target, emoji', reactor⟩, on⟩ := r
  cases on with
  | false => rfl
  | true =>
    rw [tally, tallySlot]
    by_cases hid : id = target
    · simp only [hid, if_true, true_and, lookup_bump]
    · simp [hid]

theorem lookup_foldl_tally (id : MessageId) (emoji : String)
    (rs : List ((MessageId × String × Key) × Bool)) (slots : List (String × Nat × Bool)) :
    (rs.foldl (tally me id) slots).lookup emoji =
      rs.foldl (tallySlot me id emoji) (slots.lookup emoji) := by
  induction rs generalizing slots with
  | nil => rfl
  | cons r rs ih => rw [List.foldl_cons, ih, lookup_tally, List.foldl_cons]

theorem nodup_foldl_tally {id : MessageId} (rs : List ((MessageId × String × Key) × Bool))
    {slots : List (String × Nat × Bool)} (h : (slots.map Prod.fst).Nodup) :
    ((rs.foldl (tally me id) slots).map Prod.fst).Nodup := by
  induction rs generalizing slots with
  | nil => exact h
  | cons r rs ih => exact ih (nodup_tally h r)

/-- Reactions are counted, so that it is all the same in which order. -/
theorem tallySlot_comm (id : MessageId) (emoji : String) (slot : Option (Nat × Bool))
    (r r' : (MessageId × String × Key) × Bool) :
    tallySlot me id emoji (tallySlot me id emoji slot r) r' =
      tallySlot me id emoji (tallySlot me id emoji slot r') r := by
  obtain ⟨⟨target, e, reactor⟩, on⟩ := r
  obtain ⟨⟨target', e', reactor'⟩, on'⟩ := r'
  cases on with
  | false => rfl
  | true =>
    cases on' with
    | false => rfl
    | true =>
      simp only [tallySlot]
      by_cases h : id = target ∧ emoji = e
      · by_cases h' : id = target' ∧ emoji = e'
        · rw [if_pos h, if_pos h', if_pos h', if_pos h]
          simp [Bool.or_right_comm]
        · rw [if_neg h', if_pos h, if_neg h', if_pos h]
      · rw [if_neg h, if_neg h]

/-- The list of a message's reactions, sorted, is that of the reactions as a set. -/
theorem sorted_tally_eq_of_perm (me : Key) (id : MessageId)
    {rs rs' : List ((MessageId × String × Key) × Bool)} (h : rs.Perm rs')
    {slots : List (String × Nat × Bool)} (hslots : (slots.map Prod.fst).Nodup) :
    ((rs.foldl (tally me id) slots).insertionSort fun a b => a.1 ≤ b.1) =
      (rs'.foldl (tally me id) slots).insertionSort fun a b => a.1 ≤ b.1 := by
  refine insertionSort_eq_of_lookup (nodup_foldl_tally rs hslots) (nodup_foldl_tally rs' hslots) ?_
  intro emoji
  rw [lookup_foldl_tally, lookup_foldl_tally]
  exact h.foldl_eq' (fun r _ r' _ slot => tallySlot_comm id emoji slot r r') _

end Wicara.Client
