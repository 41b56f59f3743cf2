import Wicara.Hub.MailTasks

namespace Wicara.Hub

open Wicara.Core Lib Lib.Fallible Lib.Run Lib.Interleaving

variable (C : Crypto) (R : Readers)

/-- `get_mail` has returned this envelope to this recipient under this id. -/
def Served.Returned (s : Served) (recipient : Key) (id : Int) (e : Envelope) : Prop :=
  (recipient, id, e) ∈ s.returned

/-- The next section of the task sweeps this row away as too old. -/
def MailTask.Expires (t : MailTask) (row : MailRow) : Prop :=
  t.pc = .start ∧ t.call = .sweep ∧ row.receivedMs < MailStore.cutoff t.now

/-- The next section of the task deletes these ids for this endpoint. -/
def MailTask.Deletes (t : MailTask) (me : Key) (ids : List Int) : Prop :=
  t.pc = .start ∧ ∃ headers body, t.call = .delete headers body ∧
    authenticate C R t.now headers = .ok me ∧ R.ids body = .ok ids

/-- Every row that the step takes away was too old, or was deleted by its recipient once
this very envelope had been returned to them under this very id. -/
def MailTasks.Accounted (p : MailTasks) (i : Nat) : Prop :=
  ∀ id row, p.shared.store.mail.get id = some row →
    (p.step (MailTask.advance C R) i).shared.store.mail.get id ≠ some row →
    ∃ t ∈ p.tasks[i]?, t.Expires row ∨
      ∃ ids e, t.Deletes C R row.recipient ids ∧ id ∈ ids ∧ R.envelope row.blob = .ok e ∧
        p.shared.Returned row.recipient id e

/-- An id that is given to a new row is not one under which something else has been returned
to the same recipient, and an endpoint deletes only what has been returned to it. -/
structure MailTask.Careful (t : MailTask) (s : Served) : Prop where
  puts : ∀ envelope body, t.pc = .put envelope body → t.io 2 = none →
    (∃ e, s.Returned envelope.recipient s.store.nextId e) →
    s.Returned envelope.recipient s.store.nextId envelope
  deletes : ∀ me ids, t.Deletes C R me ids → ∀ id ∈ ids, ∃ e, s.Returned me id e

/-- A row's id names its envelope, to those to whom it names anything. -/
def Served.Named (s : Served) : Prop :=
  ∀ id row, s.store.mail.get id = some row → ∃ e, R.envelope row.blob = .ok e ∧
    ((∃ e', s.Returned row.recipient id e') → s.Returned row.recipient id e)

variable {C R}

/-- The step lemma. -/
theorem MailTask.Section.named {t : MailTask} {s s' : Served} {pc : MailPc}
    (h : t.Section C R s pc s') (hcareful : t.Careful C R s) (ht : t.pc.Read R)
    (hs : s.Named R) : s'.Named R := by
  cases h with
  | quiet leads => exact hs
  | returned =>
    rename_i me bytes
    intro id row hrow
    obtain ⟨e, hread, hnamed⟩ := hs id row hrow
    refine ⟨e, hread, ?_⟩
    rintro ⟨e', he'⟩
    rcases List.mem_append.mp he' with he' | he'
    · exact List.mem_append_left _ (hnamed ⟨e', he'⟩)
    · -- the row was among what has just been returned
      obtain ⟨_, hmem, heq⟩ := List.mem_map.mp he'
      simp only [Prod.mk.injEq] at heq
      refine List.mem_append_right _ (List.mem_map.mpr ⟨(id, e), ?_, by rw [heq.1]⟩)
      exact MailStore.mem_mailFor.mpr ⟨row, hrow, heq.1.symm, hread⟩
  | inserted hpc hio =>
    rename_i envelope body
    intro id row hrow
    rcases MailStore.get_inserted.mp hrow with hrow | ⟨rfl, rfl⟩
    · exact hs id row hrow
    · rw [hpc] at ht
      exact ⟨envelope, ht, hcareful.puts envelope body hpc hio⟩
  | removed hpc hcall hme hids =>
    intro id row hrow
    exact hs id row (MailStore.get_deleted.mp hrow).1
  | swept hpc hcall =>
    intro id row hrow
    exact hs id row (MailStore.get_swept.mp hrow).1

/-- What a section takes away it can account for. -/
theorem MailTask.Section.accounted {t : MailTask} {s s' : Served} {pc : MailPc}
    (h : t.Section C R s pc s') (hcareful : t.Careful C R s) (hs : s.Named R) {id : Int}
    {row : MailRow} (hrow : s.store.mail.get id = some row)
    (hgone : s'.store.mail.get id ≠ some row) :
    t.Expires row ∨ ∃ ids e, t.Deletes C R row.recipient ids ∧ id ∈ ids ∧
      R.envelope row.blob = .ok e ∧ s.Returned row.recipient id e := by
  cases h with
  | quiet leads => exact absurd hrow hgone
  | returned => exact absurd hrow hgone
  | inserted hpc hio => exact absurd (MailStore.get_inserted.mpr (.inl hrow)) hgone
  | removed hpc hcall hme hids =>
    rename_i headers body me ids
    right
    rw [Ne, MailStore.get_deleted, not_and_not_right] at hgone
    obtain ⟨hid, rfl⟩ := hgone hrow
    have hdeletes : t.Deletes C R row.recipient ids := ⟨hpc, headers, body, hcall, hme, hids⟩
    obtain ⟨e, hread, hnamed⟩ := hs id row hrow
    exact ⟨ids, e, hdeletes, hid, hread, hnamed (hcareful.deletes _ ids hdeletes id hid)⟩
  | swept hpc hcall =>
    left
    rw [Ne, MailStore.get_swept, not_and_not_right] at hgone
    exact ⟨hpc, hcall, hgone hrow⟩

variable (C R) in
/-- The next section of task `i` is careful. -/
def MailTasks.Careful (p : MailTasks) (i : Nat) : Prop :=
  ∀ t ∈ p.tasks[i]?, t.Careful C R p.shared

variable (R) in
/-- The invariant of careful runs. -/
abbrev MailTasks.Coherent (p : MailTasks) : Prop :=
  p.Holds (fun s => s.Named R) fun t _ => t.pc.Read R

theorem MailTasks.Coherent.step {p : MailTasks} (h : p.Coherent R) {i : Nat}
    (hi : p.Careful C R i) : MailTasks.Coherent R (p.step (MailTask.advance C R) i) := by
  refine Pool.Holds.step (P := fun t _ s => t.Careful C R s) ?_ ?_ h fun t _ _ ht _ => hi t ht
  · intro t s hcareful hs ht
    have hsection := t.section_advance C R s
    exact ⟨hsection.named hcareful ht hs, hsection.read ht⟩
  · exact fun _ _ _ _ hu => hu

theorem MailTasks.Coherent.accounted {p : MailTasks} (h : p.Coherent R) {i : Nat}
    (hi : p.Careful C R i) : p.Accounted C R i := by
  intro id row hrow hgone
  cases ht : p.tasks[i]? with
  | none =>
    rw [Pool.step_of_none ht] at hgone
    exact absurd hrow hgone
  | some t =>
    rw [Pool.step_of_some ht] at hgone
    exact ⟨t, rfl, (t.section_advance C R p.shared).accounted (hi t ht) h.shared hrow hgone⟩

theorem MailTasks.Coherent.start {tasks : List MailTask} (h : ∀ t ∈ tasks, t.pc = .start) :
    MailTasks.Coherent R (.start tasks) where
  shared := fun id row hrow => by cases hrow
  tasks i t ht := by
    rw [h t (List.mem_of_getElem? ht)]
    trivial

/-- A put that is not careful is one that can lose its envelope: the recipient has only to
name the id once more that it has had before. -/
theorem careless_put_loses_mail {p : MailTasks} {i j : Nat} {put delete : MailTask}
    {envelope e : Envelope} {body : List UInt8} (hij : i ≠ j) (hput : p.tasks[i]? = some put)
    (hpc : put.pc = .put envelope body) (hio : put.io 2 = none)
    (hread : R.envelope body = .ok envelope)
    (hreturned : p.shared.Returned envelope.recipient p.shared.store.nextId e)
    (hother : ¬p.shared.Returned envelope.recipient p.shared.store.nextId envelope)
    (hdelete : p.tasks[j]? = some delete)
    (hdeletes : delete.Deletes C R envelope.recipient [p.shared.store.nextId])
    (hok : delete.io 0 = none) :
    MailTasks.Careful C R (p.step (MailTask.advance C R) i) j ∧
    ¬MailTasks.Accounted C R (p.step (MailTask.advance C R) i) j := by
  obtain ⟨hstart, headers, text, hcall, hme, hids⟩ := hdeletes
  have htask : (p.step (MailTask.advance C R) i).tasks[j]? = some delete := by
    rw [Pool.getElem?_step_of_ne hij, hdelete]
  have hshared : (p.step (MailTask.advance C R) i).shared = { p.shared with
      store := p.shared.store.inserted (mailRow put.now envelope body) } := by
    rw [Pool.step_of_some hput, MailTask.advance_put hpc hio]
  constructor
  · intro t ht
    obtain rfl : delete = t := by simpa [htask] using ht
    refine ⟨fun _ _ hputs => by simp [hstart] at hputs, ?_⟩
    rintro me ids ⟨-, headers', text', hcall', hme', hids'⟩ id hid
    obtain ⟨rfl, rfl⟩ : headers = headers' ∧ text = text' := by simpa [hcall] using hcall'
    obtain rfl : envelope.recipient = me := by simpa [hme] using hme'
    obtain rfl : [p.shared.store.nextId] = ids := by simpa [hids] using hids'
    obtain rfl := List.mem_singleton.mp hid
    rw [hshared]
    exact ⟨e, hreturned⟩
  · intro haccounted
    have hrow : (p.shared.store.inserted (mailRow put.now envelope body)).mail.get
        p.shared.store.nextId = some (mailRow put.now envelope body) :=
      MailStore.get_inserted.mpr (.inr ⟨rfl, rfl⟩)
    obtain ⟨t, ht, hcase⟩ := haccounted p.shared.store.nextId (mailRow put.now envelope body)
      (by rw [hshared, hrow]) (by
        rw [Pool.step_of_some htask, MailTask.advance_delete hstart hcall hme hids hok, hshared,
          Ne, MailStore.get_deleted]
        simp [mailRow])
    obtain rfl : delete = t := by simpa [htask] using ht
    rcases hcase with ⟨-, hsweep, -⟩ | ⟨ids, e', -, -, hread', hreturned'⟩
    · simp [hcall] at hsweep
    · obtain rfl : envelope = e' := by simpa [mailRow, hread] using hread'
      rw [hshared] at hreturned'
      exact hother hreturned'

/-- No mail is lost in a run in which no id is given out again while it names something else
to the same recipient, and in which endpoints delete what they have been given. -/
theorem every_removal_is_accounted (C : Crypto) (R : Readers) {tasks : List MailTask}
    (htasks : ∀ t ∈ tasks, t.pc = .start) (schedule : List Nat)
    (hcareful : Along (Pool.step (MailTask.advance C R)) (MailTasks.Careful C R)
      (MailTasks.start tasks) schedule) :
    Along (Pool.step (MailTask.advance C R)) (MailTasks.Accounted C R) (MailTasks.start tasks)
      schedule :=
  hcareful.of_invariant (fun _ _ h hi => MailTasks.Coherent.step h hi)
    (fun _ _ h hi => MailTasks.Coherent.accounted h hi) (MailTasks.Coherent.start htasks)

namespace Sample

open Core.Sample

def greeting : Envelope := sealed 1 2 [1]

def reply : Envelope := sealed 3 2 [2]

def mailbox : Readers := readers [greeting, reply]

def isDelete : MailCall → Bool
  | .delete _ _ => true
  | _ => false

/-- 1 greets 2, who fetches and deletes it. -/
def greeted : MailTasks := .start [posted 1 greeting, fetching 2 2, deleting 3 2 [1]]

/-- 1 greets 2, who fetches and deletes it; then 3 writes, and the delete arrives once more. -/
def twiceDeleted : MailTasks :=
  .start [posted 1 greeting, fetching 2 2, deleting 3 2 [1], posted 4 reply, deleting 5 2 [1]]

/-- The run up to the second delete. -/
def untilReply : List Nat := [0, 0, 0, 1, 2, 3, 3, 3]

end Sample

open Core.Sample Sample in
/-- Until something has been returned, all that a careful task has to do is not to delete. -/
theorem Sample.careful_of_not_deletes {t : MailTask} {s : Served} (hs : s.returned = [])
    (ht : isDelete t.call = false) : t.Careful crypto mailbox s where
  puts := fun _ _ _ _ ⟨e, he⟩ => by simp [Served.Returned, hs] at he
  deletes := fun _ _ ⟨_, headers, body, hcall, _⟩ => by simp [hcall, isDelete] at ht

open Core.Sample Sample in
theorem greeted_removal_is_accounted :
    (∀ t ∈ [posted 1 greeting, fetching 2 2, deleting 3 2 [1]], t.pc = .start) ∧
    (run (Pool.step (MailTask.advance crypto mailbox)) greeted
      ([0, 0, 0, 1] ++ [2])).shared.store.mail.rows = [] ∧
    Along (Pool.step (MailTask.advance crypto mailbox)) (MailTasks.Accounted crypto mailbox)
      greeted ([0, 0, 0, 1] ++ [2]) := by
  have hstart : ∀ t ∈ [posted 1 greeting, fetching 2 2, deleting 3 2 [1]], t.pc = .start := by
    simp [posted, fetching, deleting]
  have hstate : Along (Pool.step (MailTask.advance crypto mailbox))
      (fun p i => p.shared.returned = [] ∧ ∀ t ∈ p.tasks[i]?, isDelete t.call = false) greeted
      [0, 0, 0, 1] ∧
      (run (Pool.step (MailTask.advance crypto mailbox)) greeted
        [0, 0, 0, 1]).shared.returned = [(key 2, 1, greeting)] ∧
      (run (Pool.step (MailTask.advance crypto mailbox)) greeted
        ([0, 0, 0, 1] ++ [2])).shared.store.mail.rows = [] := by decide +kernel
  obtain ⟨hbefore, hreturned, hrows⟩ := hstate
  have hme : authenticate crypto mailbox 3 (signedBy 2 3) = .ok (key 2) := by decide +kernel
  have hids : mailbox.ids [1, 2] = .ok [1] := by decide +kernel
  suffices hcareful : Along (Pool.step (MailTask.advance crypto mailbox))
      (MailTasks.Careful crypto mailbox) greeted ([0, 0, 0, 1] ++ [2]) from
    ⟨hstart, hrows, every_removal_is_accounted crypto mailbox hstart _ hcareful⟩
  refine Along.append.mpr ⟨hbefore.mono fun p i h t ht => careful_of_not_deletes h.1 (h.2 t ht), ?_⟩
  refine ⟨fun t ht => ?_, trivial⟩
  rw [Pool.getElem?_run_of_not_mem (by decide)] at ht
  obtain rfl : deleting 3 2 [1] = t := Option.some.inj ht
  refine ⟨nofun, fun me ids ⟨_, headers, body, hcall, hme', hids'⟩ id hid => ⟨greeting, ?_⟩⟩
  obtain ⟨rfl, rfl⟩ := MailCall.delete.inj hcall
  rw [Served.Returned, hreturned]
  obtain rfl : key 2 = me := Except.ok.inj (hme.symm.trans hme')
  obtain rfl : [1] = ids := Except.ok.inj (hids.symm.trans hids')
  rw [List.mem_singleton.mp hid]
  exact List.mem_singleton.mpr rfl

open Core.Sample Sample in
/-- The id of the greeting is given to the reply, so that the delete that names it a second
time takes the reply away, which nobody has seen. -/
theorem second_delete_loses_mail :
    ((run (Pool.step (MailTask.advance crypto mailbox)) twiceDeleted untilReply).shared.returned =
      [(key 2, 1, greeting)] ∧
    (run (Pool.step (MailTask.advance crypto mailbox)) twiceDeleted untilReply).shared.store.mail.get
      1 = some (mailRow 4 reply reply.toStdvec) ∧
    ((run (Pool.step (MailTask.advance crypto mailbox)) twiceDeleted untilReply).step
      (MailTask.advance crypto mailbox) 4).shared.store.mail.get 1 = none) ∧
    ¬Along (Pool.step (MailTask.advance crypto mailbox)) (MailTasks.Accounted crypto mailbox)
      twiceDeleted (untilReply ++ [4]) := by
  have hstate :
      (run (Pool.step (MailTask.advance crypto mailbox)) twiceDeleted untilReply).shared.returned =
        [(key 2, 1, greeting)] ∧
      (run (Pool.step (MailTask.advance crypto mailbox)) twiceDeleted
        untilReply).shared.store.mail.get 1 = some (mailRow 4 reply reply.toStdvec) ∧
      ((run (Pool.step (MailTask.advance crypto mailbox)) twiceDeleted untilReply).step
        (MailTask.advance crypto mailbox) 4).shared.store.mail.get 1 = none := by decide +kernel
  obtain ⟨hreturned, hrow, hgone⟩ := hstate
  have hread : mailbox.envelope reply.toStdvec = .ok reply := by
    unfold mailbox
    apply readers_envelope
    exact List.mem_cons_of_mem _ List.mem_cons_self
  have hother : (key 2, (1 : Int), reply) ∉ [(key 2, (1 : Int), greeting)] := by decide +kernel
  refine ⟨⟨hreturned, hrow, hgone⟩, fun h => ?_⟩
  obtain ⟨-, haccounted, -⟩ := Along.append.mp h
  obtain ⟨t, ht, ⟨-, hsweep, -⟩ | ⟨ids, e, -, -, hread', hnamed⟩⟩ :=
    haccounted 1 _ hrow fun hstill => Option.some_ne_none _ (hstill.symm.trans hgone)
  · rw [Pool.getElem?_run_of_not_mem (by decide)] at ht
    obtain rfl : deleting 5 2 [1] = t := Option.some.inj ht
    cases hsweep
  · rw [blob_mailRow, hread, Except.ok.injEq] at hread'
    rw [Served.Returned, hreturned, ← hread'] at hnamed
    exact hother hnamed

end Wicara.Hub
