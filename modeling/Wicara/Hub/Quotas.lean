import Wicara.Hub.MailTasks

namespace Wicara.Hub

open Wicara.Core Lib Lib.Fallible Lib.Interleaving Lib.Run

namespace MailStore

variable {s : MailStore}

/-- Nobody has more waiting than its quota, neither one sender for one recipient nor one
recipient from everyone. -/
structure WithinQuotas (s : MailStore) : Prop where
  sender : ∀ sender recipient, s.pendingFrom sender recipient ≤ quotaPerSender
  recipient : ∀ recipient, s.pendingFor recipient ≤ quotaPerRecipient

/-- Both checks of `post_mail` would let this envelope pass. -/
structure Passes (s : MailStore) (envelope : Envelope) : Prop where
  sender : s.pendingFrom envelope.sender envelope.recipient < quotaPerSender
  recipient : s.pendingFor envelope.recipient < quotaPerRecipient

theorem pendingFrom_inserted (row : MailRow) (sender recipient : Key) :
    (s.inserted row).pendingFrom sender recipient =
      s.pendingFrom sender recipient +
        if row.sender = sender ∧ row.recipient = recipient then 1 else 0 := by
  rw [pendingFrom, rows_inserted, List.countP_append]
  simp [pendingFrom, List.countP_singleton]

theorem pendingFor_inserted (row : MailRow) (recipient : Key) :
    (s.inserted row).pendingFor recipient =
      s.pendingFor recipient + if row.recipient = recipient then 1 else 0 := by
  rw [pendingFor, rows_inserted, List.countP_append]
  simp [pendingFor, List.countP_singleton]

theorem pendingFrom_iterate (row : MailRow) (n : Nat) (sender recipient : Key) :
    ((inserted row)^[n] s).pendingFrom sender recipient =
      s.pendingFrom sender recipient +
        if row.sender = sender ∧ row.recipient = recipient then n else 0 := by
  induction n with
  | zero => simp
  | succ n ih =>
    rw [Function.iterate_succ_apply', pendingFrom_inserted, ih]
    split <;> rfl

theorem pendingFor_iterate (row : MailRow) (n : Nat) (recipient : Key) :
    ((inserted row)^[n] s).pendingFor recipient =
      s.pendingFor recipient + if row.recipient = recipient then n else 0 := by
  induction n with
  | zero => simp
  | succ n ih =>
    rw [Function.iterate_succ_apply', pendingFor_inserted, ih]
    split <;> rfl

theorem WithinQuotas.deleteWhere (h : s.WithinQuotas) (p : Int → MailRow → Bool) :
    WithinQuotas { s with mail := s.mail.deleteWhere p } where
  sender a b := (List.filter_sublist.countP_le).trans (h.sender a b)
  recipient a := (List.filter_sublist.countP_le).trans (h.recipient a)

theorem WithinQuotas.inserted_iff {now : UInt64} {envelope : Envelope} {body : List UInt8}
    (h : s.WithinQuotas) :
    (s.inserted (mailRow now envelope body)).WithinQuotas ↔ s.Passes envelope := by
  constructor
  · intro h'
    have hsender := h'.sender envelope.sender envelope.recipient
    have hrecipient := h'.recipient envelope.recipient
    simp only [pendingFrom_inserted, sender_mailRow, recipient_mailRow, and_self,
      if_true] at hsender
    simp only [pendingFor_inserted, recipient_mailRow, if_true] at hrecipient
    exact ⟨hsender, hrecipient⟩
  · rintro ⟨hsender, hrecipient⟩
    constructor
    · intro a b
      rw [pendingFrom_inserted]
      split
      · rename_i hab
        obtain ⟨rfl, rfl⟩ := hab
        exact hsender
      · exact h.sender a b
    · intro a
      rw [pendingFor_inserted]
      split
      · rename_i ha
        obtain rfl := ha
        exact hrecipient
      · exact h.recipient a

end MailStore

theorem MailStore.WithinQuotas.empty : MailStore.WithinQuotas .empty :=
  ⟨fun _ _ => Nat.zero_le _, fun _ => Nat.zero_le _⟩

/-- The quotas hold in every state of a run exactly when every envelope that is put would
still pass both checks when it is. -/
theorem quotas_hold_iff_recheck (C : Crypto) (R : Readers) {tasks : List MailTask}
    (htasks : ∀ t ∈ tasks, t.pc = .start) (schedule : List Nat) :
    (∀ n, (run (Pool.step (MailTask.advance C R)) (MailTasks.start tasks)
      (schedule.take n)).shared.store.WithinQuotas) ↔
    Along (Pool.step (MailTask.advance C R)) (MailTasks.Fit MailStore.Passes)
      (MailTasks.start tasks) schedule :=
  MailTasks.throughout_iff MailStore.WithinQuotas.empty (fun _ _ _ h => h.deleteWhere _)
    (fun _ _ h => h.deleteWhere _) (fun _ _ _ _ _ h => h.inserted_iff) htasks schedule

/-- A request that nothing comes between keeps the quotas. -/
theorem MailTask.alone_keeps_quotas (C : Crypto) (R : Readers) (t : MailTask) (hpc : t.pc = .start)
    {s : Served} (hs : s.store.WithinQuotas) :
    (alone (advance C R) 3 t s).2.store.WithinQuotas := by
  rw [← t.after_sequential hpc, ← wp_after (P := fun s' : Served => s'.store.WithinQuotas)]
  obtain ⟨call, io, now, pc⟩ := t
  cases call with
  | post path body =>
    simp only [sequential, onMail, postMail, checkSender, checkRecipient, putMail, wp_bind,
      wp_lift, wp_zoom, wp_statement, wp_get, wp_modify, wp_pure, ensure_eq_ok]
    have hput {envelope : Envelope} (hsender hrecipient) :
        (s.store.inserted (mailRow now envelope body)).WithinQuotas :=
      hs.inserted_iff.mpr ⟨hsender, hrecipient⟩
    exact ⟨fun _ _ => ⟨fun _ => ⟨fun _ hsender => ⟨fun _ => ⟨fun _ hrecipient =>
      ⟨fun _ => hput hsender hrecipient, fun _ => hs⟩, fun _ _ => hs⟩, fun _ => hs⟩,
      fun _ _ => hs⟩, fun _ => hs⟩, fun _ _ => hs⟩
  | get headers =>
    simp only [sequential, serveMail, onMail, getMail, wp_bind, wp_lift, wp_zoom, wp_statement,
      wp_get, wp_modify, wp_pure]
    exact ⟨fun _ _ => ⟨fun _ _ => ⟨fun _ => hs, fun _ => hs⟩, fun _ _ => hs⟩, fun _ _ => hs⟩
  | delete headers body =>
    simp only [sequential, onMail, deleteMail, wp_bind, wp_lift, wp_zoom, wp_statement, wp_modify,
      wp_pure]
    exact ⟨fun _ _ => ⟨fun _ _ => ⟨fun _ => hs.deleteWhere _, fun _ => hs⟩, fun _ _ => hs⟩,
      fun _ _ => hs⟩
  | sweep =>
    simp only [sequential, onMail, Hub.sweep, wp_bind, wp_zoom, wp_statement, wp_modify, wp_pure]
    exact ⟨fun _ => hs.deleteWhere _, fun _ => hs⟩

/-- So many requests of one kind, all of which get to each check before any of them goes on. -/
theorem MailTask.run_burst {C : Crypto} {R : Readers} {t : MailTask} {path : String}
    {envelope : Envelope} {body : List UInt8} (hpc : t.pc = .start)
    (hcall : t.call = .post path body)
    (haddressed : addressed C R path body = .ok envelope) (hio : ∀ k, t.io k = none) {s : Served}
    (hsender : s.store.pendingFrom envelope.sender envelope.recipient < quotaPerSender)
    (hrecipient : s.store.pendingFor envelope.recipient < quotaPerRecipient) {n : Nat} :
    run (Pool.step (advance C R)) ⟨s, List.replicate n t⟩
      (List.range n ++ (List.range n ++ List.range n)) =
    ⟨{ s with store := (MailStore.inserted (mailRow t.now envelope body))^[n] s.store },
      List.replicate n { t with pc := .done (.ok (.status 202)) }⟩ := by
  have hchecked : run (Pool.step (advance C R)) ⟨s, List.replicate n t⟩ (List.range n) =
      ⟨s, List.replicate n { t with pc := .checkRecipient envelope body }⟩ := by
    rw [run_round_replicate (I := fun _ s' => s' = s) (f := id)]
    · rw [Function.iterate_id, id]
    · rintro _ _ rfl
      exact ⟨advance_post hpc hcall haddressed (hio 0) hsender, rfl⟩
    · rfl
  have hpassed : run (Pool.step (advance C R))
      ⟨s, List.replicate n { t with pc := .checkRecipient envelope body }⟩ (List.range n) =
      ⟨s, List.replicate n { t with pc := .put envelope body }⟩ := by
    rw [run_round_replicate (I := fun _ s' => s' = s) (f := id)]
    · rw [Function.iterate_id, id]
    · rintro _ _ rfl
      exact ⟨advance_checkRecipient rfl (hio 1) hrecipient, rfl⟩
    · rfl
  rw [run_append, run_append, hchecked, hpassed, run_round_replicate (I := fun _ _ => True)
    (t := { t with pc := .put envelope body })
    (fun _ _ _ => ⟨advance_put rfl (hio 2), trivial⟩) trivial]
  rw [Served.iterate_store]

namespace Sample

open Core.Sample

def impatient : Envelope := sealed 1 2 [1]

/-- One sender posts once more than its quota allows … -/
def burst : List MailTask := List.replicate (quotaPerSender + 1) (posted 1 impatient)

/-- … and each request is through its checks before the first one is put. -/
def burstSchedule : List Nat :=
  List.range burst.length ++ (List.range burst.length ++ List.range burst.length)

end Sample

open Core.Sample Sample in
theorem burst_quotas_hold_iff :
    (∀ t ∈ burst, t.pc = .start) ∧
    ((∀ n, (run (Pool.step (MailTask.advance crypto (readers [impatient])))
      (MailTasks.start burst) (burstSchedule.take n)).shared.store.WithinQuotas) ↔
    Along (Pool.step (MailTask.advance crypto (readers [impatient])))
      (MailTasks.Fit MailStore.Passes) (MailTasks.start burst) burstSchedule) := by
  have hstart : ∀ t ∈ burst, t.pc = .start := by
    intro t ht
    rw [List.eq_of_mem_replicate ht]
    rfl
  exact ⟨hstart, quotas_hold_iff_recheck crypto (readers [impatient]) hstart burstSchedule⟩

open Core.Sample Sample in
/-- Each of them is let through, as there is nothing waiting yet. -/
theorem burst_breaks_quota :
    (run (Pool.step (MailTask.advance crypto (readers [impatient]))) (MailTasks.start burst)
      burstSchedule).shared.store.pendingFrom (key 1) (key 2) = quotaPerSender + 1 ∧
    ¬∀ n, (run (Pool.step (MailTask.advance crypto (readers [impatient]))) (MailTasks.start burst)
      (burstSchedule.take n)).shared.store.WithinQuotas := by
  have haddressed : addressed crypto (readers [impatient]) (hex (key 2).toList)
      impatient.toStdvec = .ok impatient :=
    addressed_sealed List.mem_cons_self (by decide +kernel) (by decide +kernel)
  have hpending : (run (Pool.step (MailTask.advance crypto (readers [impatient])))
      (MailTasks.start burst) burstSchedule).shared.store.pendingFrom (key 1) (key 2) =
        quotaPerSender + 1 := by
    rw [burstSchedule, burst, List.length_replicate, MailTasks.start,
      MailTask.run_burst rfl rfl haddressed (fun _ => rfl) (by decide) (by decide)]
    exact (MailStore.pendingFrom_iterate _ _ _ _).trans (by decide)
  refine ⟨hpending, fun h => ?_⟩
  have hquota := (h burstSchedule.length).sender (key 1) (key 2)
  rw [List.take_length, hpending] at hquota
  omega

end Wicara.Hub
