import Mathlib.Data.List.Flatten
import Wicara.Client.Hub
import Wicara.Hub.Quotas

namespace Wicara.Hub

open Wicara.Core Wicara.Client Lib Lib.Encoding Lib.Interleaving Lib.Run

/-- What the reply of `get_mail` has beside its length. -/
theorem length_mailToStdvec (mail : List (Int × Envelope)) :
    (mailToStdvec mail).length =
      (varint mail.length).length + (mail.map rowToStdvec).flatten.length :=
  List.length_append

theorem length_mailToStdvec_of_perm {mail mail' : List (Int × Envelope)} (h : mail.Perm mail') :
    (mailToStdvec mail).length = (mailToStdvec mail').length := by
  rw [length_mailToStdvec, length_mailToStdvec, h.length_eq, (h.map _).flatten.length_eq]

theorem length_mailToStdvec_of_sublist {mail mail' : List (Int × Envelope)}
    (h : mail.Sublist mail') : (mailToStdvec mail).length ≤ (mailToStdvec mail').length := by
  rw [length_mailToStdvec, length_mailToStdvec]
  exact Nat.add_le_add (length_varint_mono h.length_le) (h.map _).flatten.length_le

namespace MailStore

variable (R : Readers)

/-- Every mailbox can be fetched: the reply is no longer than what the client reads of one, and
is refused by no `limited`. -/
def Drainable (s : MailStore) : Prop :=
  ∀ recipient, (mailToStdvec (s.mailFor R recipient)).length ≤ maxMailReply ∧
    ∀ res : Response, res.Carries (mailToStdvec (s.mailFor R recipient)) →
      limited res maxMailReply = .ok (mailToStdvec (s.mailFor R recipient))

/-- The recipient's reply is still short enough with this envelope at its end. -/
def Fits (s : MailStore) (envelope : Envelope) : Prop :=
  (mailToStdvec (s.mailFor R envelope.recipient ++ [(s.nextId, envelope)])).length ≤ maxMailReply

/-- What waits for a recipient, in the order it came in. -/
def waiting (recipient : Key) (s : MailStore) : List (Int × Envelope) :=
  (s.mail.rows.filter fun r => r.2.recipient = recipient).filterMap (readRow R)

variable {R} {s : MailStore}

theorem mailFor_perm (recipient : Key) : (s.mailFor R recipient).Perm (s.waiting R recipient) :=
  (List.perm_insertionSort _ _).filterMap _

theorem drainable_iff :
    s.Drainable R ↔ ∀ recipient, (mailToStdvec (s.waiting R recipient)).length ≤ maxMailReply := by
  refine forall_congr' fun recipient => ?_
  rw [← length_mailToStdvec_of_perm (mailFor_perm recipient)]
  refine and_iff_left_of_imp fun hlength res hres => ?_
  exact (limited_eq_ok_iff hres).mpr hlength

theorem waiting_inserted {now : UInt64} {envelope : Envelope} {body : List UInt8}
    (hread : R.envelope body = .ok envelope) (recipient : Key) :
    (s.inserted (mailRow now envelope body)).waiting R recipient =
      s.waiting R recipient ++
        if envelope.recipient = recipient then [(s.nextId, envelope)] else [] := by
  rw [waiting, rows_inserted, List.filter_append, List.filterMap_append]
  by_cases h : envelope.recipient = recipient
  · simp [waiting, h, readRow, hread]
  · simp [waiting, h]

theorem Drainable.deleteWhere (h : s.Drainable R) (p : Int → MailRow → Bool) :
    Drainable R { s with mail := s.mail.deleteWhere p } := by
  rw [drainable_iff] at h ⊢
  intro recipient
  refine le_trans (length_mailToStdvec_of_sublist ?_) (h recipient)
  exact (List.filter_sublist.filter _).filterMap _

theorem Drainable.inserted_iff {now : UInt64} {envelope : Envelope} {body : List UInt8}
    (h : s.Drainable R) (hread : R.envelope body = .ok envelope) :
    (s.inserted (mailRow now envelope body)).Drainable R ↔ s.Fits R envelope := by
  have hfits : s.Fits R envelope ↔ (mailToStdvec (s.waiting R envelope.recipient ++
      [(s.nextId, envelope)])).length ≤ maxMailReply := by
    rw [Fits, length_mailToStdvec_of_perm ((mailFor_perm _).append_right _)]
  rw [hfits, drainable_iff]
  constructor
  · intro h'
    have hrecipient := h' envelope.recipient
    rwa [waiting_inserted hread, if_pos rfl] at hrecipient
  · intro hlength recipient
    rw [waiting_inserted hread]
    split
    · rename_i hrecipient
      obtain rfl := hrecipient
      exact hlength
    · rw [List.append_nil]
      exact drainable_iff.mp h recipient

end MailStore

/-- Every mailbox can be fetched in every state of a run exactly when no envelope is put that
makes its recipient's reply too long. -/
theorem mailboxes_drain_iff_fit (C : Crypto) (R : Readers) {tasks : List MailTask}
    (htasks : ∀ t ∈ tasks, t.pc = .start) (schedule : List Nat) :
    (∀ n, (run (Pool.step (MailTask.advance C R)) (MailTasks.start tasks)
      (schedule.take n)).shared.store.Drainable R) ↔
    Along (Pool.step (MailTask.advance C R)) (MailTasks.Fit (MailStore.Fits R))
      (MailTasks.start tasks) schedule := by
  refine MailTasks.throughout_iff ?_ (fun _ _ _ h => h.deleteWhere _)
    (fun _ _ h => h.deleteWhere _) (fun _ _ _ _ hread h => h.inserted_iff hread) htasks schedule
  exact MailStore.drainable_iff.mpr fun _ =>
    (by decide : (mailToStdvec []).length ≤ maxMailReply)

theorem MailTask.alone_post {C : Crypto} {R : Readers} {t : MailTask} {path : String}
    {envelope : Envelope} {body : List UInt8} (hpc : t.pc = .start)
    (hcall : t.call = .post path body)
    (haddressed : addressed C R path body = .ok envelope) (hio : ∀ k, t.io k = none) {s : Served}
    (hpasses : s.store.Passes envelope) :
    alone (advance C R) 3 t s = ({ t with pc := .done (.ok (.status 202)) },
      { s with store := s.store.inserted (mailRow t.now envelope body) }) := by
  have hcheck := advance_post hpc hcall haddressed (hio 0) hpasses.sender (s := s)
  have hpass : advance C R { t with pc := .checkRecipient envelope body } s =
      ({ t with pc := .put envelope body }, s) :=
    advance_checkRecipient rfl (hio 1) hpasses.recipient
  have hput := advance_put (C := C) (R := R) (t := { t with pc := .put envelope body }) (s := s)
    rfl (hio 2)
  simp only [alone, hcheck, hpass, hput]

/-- So many requests of one kind, one after the other, when there is room for all of them. -/
theorem MailTask.round_post {C : Crypto} {R : Readers} {t : MailTask} {path : String}
    {envelope : Envelope} {body : List UInt8} (hpc : t.pc = .start)
    (hcall : t.call = .post path body)
    (haddressed : addressed C R path body = .ok envelope) (hio : ∀ k, t.io k = none) {s : Served}
    {n : Nat}
    (hsender : s.store.pendingFrom envelope.sender envelope.recipient + n ≤ quotaPerSender)
    (hrecipient : s.store.pendingFor envelope.recipient + n ≤ quotaPerRecipient) :
    (round (alone (advance C R) 3) (List.replicate n t) s).2 =
      { s with store := (MailStore.inserted (mailRow t.now envelope body))^[n] s.store } := by
  rw [round_replicate (I := fun n s =>
    s.store.pendingFrom envelope.sender envelope.recipient + n ≤ quotaPerSender ∧
      s.store.pendingFor envelope.recipient + n ≤ quotaPerRecipient)
    (fun k s hs => ⟨alone_post hpc hcall haddressed hio ⟨by omega, by omega⟩, ?_⟩)
    ⟨hsender, hrecipient⟩, Served.iterate_store]
  simp only [MailStore.pendingFrom_inserted, MailStore.pendingFor_inserted, sender_mailRow,
    recipient_mailRow, and_self, if_true]
  omega

namespace MailStore

variable {R : Readers} {s : MailStore}

/-- What the rows for a recipient take up in the reply. -/
def weight (R : Readers) (recipient : Key) (s : MailStore) : Nat :=
  ((s.waiting R recipient).map rowToStdvec).flatten.length

theorem weight_lt (recipient : Key) :
    s.weight R recipient < (mailToStdvec (s.mailFor R recipient)).length := by
  rw [length_mailToStdvec_of_perm (mailFor_perm recipient), length_mailToStdvec]
  exact Nat.lt_add_of_pos_left (length_varint_pos _)

theorem weight_inserted {now : UInt64} {envelope : Envelope} {body : List UInt8}
    (hread : R.envelope body = .ok envelope) :
    s.weight R envelope.recipient + envelope.toStdvec.length ≤
      (s.inserted (mailRow now envelope body)).weight R envelope.recipient := by
  rw [weight, weight, waiting_inserted hread, if_pos rfl]
  simp only [List.map_append, List.map_cons, List.map_nil, List.flatten_append,
    List.flatten_singleton, List.length_append, rowToStdvec]
  omega

theorem weight_iterate {now : UInt64} {envelope : Envelope} {body : List UInt8}
    (hread : R.envelope body = .ok envelope) (n : Nat) :
    s.weight R envelope.recipient + n * envelope.toStdvec.length ≤
      ((inserted (mailRow now envelope body))^[n] s).weight R envelope.recipient := by
  induction n with
  | zero => simp
  | succ n ih =>
    rw [Function.iterate_succ_apply', Nat.succ_mul, ← Nat.add_assoc]
    exact (Nat.add_le_add_right ih _).trans (weight_inserted hread)

end MailStore

namespace Sample

open Core.Sample

/-- What an envelope may carry at most: it takes the whole of `MAX_ENVELOPE`. -/
def bulk : List UInt8 := List.replicate 65316 0

def bulky (sender : UInt8) : Envelope := sealed sender 2 bulk

abbrev bulkReaders : Readers := readers [bulky 1, bulky 3, bulky 4]

/-- Three senders write to 2, none of them more than its quota … -/
def filling : List MailTask :=
  List.replicate 200 (posted 1 (bulky 1)) ++ (List.replicate 200 (posted 1 (bulky 3)) ++
    List.replicate 112 (posted 1 (bulky 4)))

/-- … and one request after the other. -/
def fillingSchedule : List Nat := (List.range filling.length).flatMap (List.replicate 3)

theorem length_bulky (sender : UInt8) : (bulky sender).toStdvec.length = maxEnvelope := by
  have hsignature : (bulky sender).signature.length = 64 := Bytes.length_eq _
  have hciphertext : (bulky sender).ciphertext.length = 65316 := List.length_replicate
  rw [Envelope.length_toStdvec, lengthPrefixed, lengthPrefixed, List.length_append,
    List.length_append, hsignature, hciphertext]
  decide

theorem addressed_bulky {sender : UInt8} (hmem : bulky sender ∈ [bulky 1, bulky 3, bulky 4]) :
    addressed crypto bulkReaders (hex (key 2).toList) (bulky sender).toStdvec =
      .ok (bulky sender) := by
  refine addressed_sealed hmem ?_ (length_bulky sender).le
  exact (by decide +kernel : parseEndpoint (readers []) (hex (key 2).toList) = .ok (key 2))

/-- So many rows that a sender has filled. -/
def bulkyRows (sender : UInt8) (n : Nat) (s : MailStore) : MailStore :=
  (MailStore.inserted (mailRow 1 (bulky sender) (bulky sender).toStdvec))^[n] s

theorem pendingFrom_bulkyRows (sender other : UInt8) (n : Nat) (s : MailStore) :
    (bulkyRows sender n s).pendingFrom (key other) (key 2) =
      s.pendingFrom (key other) (key 2) + if key sender = key other then n else 0 := by
  refine (MailStore.pendingFrom_iterate _ n _ _).trans ?_
  congr 2
  exact propext (and_iff_left rfl)

theorem pendingFor_bulkyRows (sender : UInt8) (n : Nat) (s : MailStore) :
    (bulkyRows sender n s).pendingFor (key 2) = s.pendingFor (key 2) + n := by
  refine (MailStore.pendingFor_iterate _ n _).trans ?_
  rw [recipient_mailRow, if_pos]
  rfl

theorem weight_bulkyRows {sender : UInt8} (hmem : bulky sender ∈ [bulky 1, bulky 3, bulky 4])
    (n : Nat) (s : MailStore) :
    s.weight bulkReaders (key 2) + n * maxEnvelope ≤
      (bulkyRows sender n s).weight bulkReaders (key 2) := by
  rw [← length_bulky sender]
  exact MailStore.weight_iterate (readers_envelope hmem) n

theorem round_bulky {sender : UInt8} (hmem : bulky sender ∈ [bulky 1, bulky 3, bulky 4])
    {s : MailStore} {n : Nat} (hsender : s.pendingFrom (key sender) (key 2) + n ≤ quotaPerSender)
    (hrecipient : s.pendingFor (key 2) + n ≤ quotaPerRecipient) :
    (round (alone (MailTask.advance crypto bulkReaders) 3)
      (List.replicate n (posted 1 (bulky sender))) ⟨s, []⟩).2 = ⟨bulkyRows sender n s, []⟩ :=
  MailTask.round_post rfl rfl (addressed_bulky hmem) (fun _ => rfl) hsender hrecipient

theorem mem_bulky : bulky 1 ∈ [bulky 1, bulky 3, bulky 4] ∧
    bulky 3 ∈ [bulky 1, bulky 3, bulky 4] ∧ bulky 4 ∈ [bulky 1, bulky 3, bulky 4] :=
  ⟨List.mem_cons_self, List.mem_cons_of_mem _ List.mem_cons_self,
    List.mem_cons_of_mem _ (List.mem_cons_of_mem _ List.mem_cons_self)⟩

theorem run_filling :
    (run (Pool.step (MailTask.advance crypto bulkReaders)) (MailTasks.start filling)
      fillingSchedule).shared =
        ⟨bulkyRows 4 112 (bulkyRows 3 200 (bulkyRows 1 200 .empty)), []⟩ := by
  obtain ⟨hmem₁, hmem₃, hmem₄⟩ := mem_bulky
  have hone := round_bulky hmem₁ (s := .empty) (n := 200) (by decide) (by decide)
  have hthree := round_bulky hmem₃ (s := bulkyRows 1 200 .empty) (n := 200)
    (by rw [pendingFrom_bulkyRows]; decide) (by rw [pendingFor_bulkyRows]; decide)
  have hfour := round_bulky hmem₄ (s := bulkyRows 3 200 (bulkyRows 1 200 .empty)) (n := 112)
    (by rw [pendingFrom_bulkyRows, pendingFrom_bulkyRows]; decide)
    (by rw [pendingFor_bulkyRows, pendingFor_bulkyRows]; decide)
  rw [fillingSchedule, run_flatMap_replicate, MailTasks.start, shared_run_round, filling,
    round_append_snd, round_append_snd, Served.start, hone, hthree, hfour]

end Sample

open Core.Sample Sample in
theorem filling_drains_iff_fit :
    (∀ t ∈ filling, t.pc = .start) ∧
    ((∀ n, (run (Pool.step (MailTask.advance crypto bulkReaders)) (MailTasks.start filling)
      (fillingSchedule.take n)).shared.store.Drainable bulkReaders) ↔
    Along (Pool.step (MailTask.advance crypto bulkReaders))
      (MailTasks.Fit (MailStore.Fits bulkReaders)) (MailTasks.start filling) fillingSchedule) := by
  have hstart : ∀ t ∈ filling, t.pc = .start := by
    intro t ht
    simp only [filling, List.mem_append, List.mem_replicate] at ht
    rcases ht with ⟨-, rfl⟩ | ⟨-, rfl⟩ | ⟨-, rfl⟩ <;> rfl
  exact ⟨hstart, mailboxes_drain_iff_fit crypto bulkReaders hstart fillingSchedule⟩

/-- 512 of the longest envelopes make a reply that is too long. -/
theorem maxMailReply_lt {a b c length : Nat} (hone : a + 200 * maxEnvelope ≤ b)
    (hthree : b + 200 * maxEnvelope ≤ c) (hfour : c + 112 * maxEnvelope < length) :
    maxMailReply < length := by
  simp only [maxEnvelope, maxMailReply] at *
  omega

open Core.Sample Sample in
/-- None of the quotas is used up, and 512 envelopes of the length that `post_mail` allows are
already more than what `fetch_mail` reads. -/
theorem full_mailbox_cannot_be_drained :
    (run (Pool.step (MailTask.advance crypto bulkReaders)) (MailTasks.start filling)
      fillingSchedule).shared.store.pendingFor (key 2) = 512 ∧
    ¬∀ n, (run (Pool.step (MailTask.advance crypto bulkReaders)) (MailTasks.start filling)
      (fillingSchedule.take n)).shared.store.Drainable bulkReaders := by
  obtain ⟨hmem₁, hmem₃, hmem₄⟩ := mem_bulky
  have hstore := (congrArg Served.store run_filling).trans (Served.store_mk _ _)
  constructor
  · rw [hstore, pendingFor_bulkyRows, pendingFor_bulkyRows, pendingFor_bulkyRows]
    decide
  · intro h
    have hshort := ((h fillingSchedule.length) (key 2)).1
    rw [List.take_length, hstore] at hshort
    have hone := weight_bulkyRows hmem₁ 200 .empty
    have hthree := weight_bulkyRows hmem₃ 200 (bulkyRows 1 200 .empty)
    have hfour := weight_bulkyRows hmem₄ 112 (bulkyRows 3 200 (bulkyRows 1 200 .empty))
    exact (maxMailReply_lt hone hthree (hfour.trans_lt (MailStore.weight_lt (key 2)))).not_ge hshort

end Wicara.Hub
