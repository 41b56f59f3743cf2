import Mathlib.Data.List.Dedup
import Wicara.Core.Transcripts
import Wicara.Hub.Quotas

namespace Wicara.Core

/-- From whom and for whom an envelope is. -/
def Transcript.route : Transcript → Option (Key × Key)
  | .envelope sender recipient .. => some (sender, recipient)
  | _ => none

theorem Envelope.route_content (e : Envelope) : e.content.route = some (e.sender, e.recipient) :=
  rfl

end Wicara.Core

namespace Wicara.Hub

open Wicara.Core Lib Lib.Interleaving Lib.Run

/-- The hub, and every envelope that was sealed so far. -/
structure Post where
  hub : MailTasks
  signed : List Transcript

inductive PostEvent
  | sealed (content : Transcript)
  | request (i : Nat)

namespace Post

variable (C : Crypto) (R : Readers)

def start (tasks : List MailTask) : Post := ⟨MailTasks.start tasks, []⟩

def step (p : Post) : PostEvent → Post
  | .sealed content => { p with signed := content :: p.signed }
  | .request i => { p with hub := p.hub.step (MailTask.advance C R) i }

/-- How many distinct envelopes someone has sealed for someone. -/
def sealedFor (p : Post) (sender recipient : Key) : Nat :=
  (p.signed.filter fun t => t.route = some (sender, recipient)).dedup.length

/-- Nobody has more waiting for someone than it sealed for them. -/
def Own (p : Post) : Prop :=
  ∀ sender recipient, p.hub.shared.store.pendingFrom sender recipient ≤ p.sealedFor sender recipient

/-- Whoever posts, a signature that verifies was made by the sender that the envelope names. -/
def Unforged (p : Post) : PostEvent → Prop
  | .sealed _ => True
  | .request i => ∀ t ∈ p.hub.tasks[i]?, ∀ path body, t.pc = .start → t.call = .post path body →
    ∀ envelope, R.envelope body = .ok envelope → envelope.verifySignature C = .ok () →
      envelope.content ∈ p.signed

/-- The envelope that is put, if one is, passes. -/
def Puts (Fits : Post → Envelope → Prop) (p : Post) : PostEvent → Prop
  | .sealed _ => True
  | .request i => MailTasks.Fit (fun _ => Fits p) p.hub i

end Post

namespace MailStore

variable (R : Readers)

/-- What the rows say, as their senders signed it. -/
def contents (s : MailStore) : List Transcript :=
  (s.mail.rows.filterMap (readRow R)).map fun m => m.2.content

/-- The columns of a row are those of the envelope in it, which somebody sealed. -/
def Posted (signed : List Transcript) (s : MailStore) : Prop :=
  ∀ row ∈ s.mail.rows, ∃ e, R.envelope row.2.blob = .ok e ∧ e.sender = row.2.sender ∧
    e.recipient = row.2.recipient ∧ e.content ∈ signed

end MailStore

/-- No envelope like this one is waiting. -/
def Post.NotWaiting (R : Readers) (p : Post) (envelope : Envelope) : Prop :=
  envelope.content ∉ p.hub.shared.store.contents R

/-- The sender has sealed more for the recipient than is waiting. -/
def Post.Spare (p : Post) (envelope : Envelope) : Prop :=
  p.hub.shared.store.pendingFrom envelope.sender envelope.recipient <
    p.sealedFor envelope.sender envelope.recipient

namespace MailStore

variable {R : Readers} {s : MailStore} {signed : List Transcript}

theorem Posted.mono {signed' : List Transcript} (h : s.Posted R signed) (hsub : signed ⊆ signed') :
    s.Posted R signed' := by
  intro row hrow
  obtain ⟨e, hread, hsender, hrecipient, hmem⟩ := h row hrow
  exact ⟨e, hread, hsender, hrecipient, hsub hmem⟩

theorem Posted.deleteWhere (h : s.Posted R signed) (p : Int → MailRow → Bool) :
    Posted R signed { s with mail := s.mail.deleteWhere p } :=
  fun row hrow => h row (List.mem_filter.mp hrow).1

theorem Posted.inserted (h : s.Posted R signed) {now : UInt64} {envelope : Envelope}
    {body : List UInt8} (hread : R.envelope body = .ok envelope)
    (hsigned : envelope.content ∈ signed) :
    (s.inserted (mailRow now envelope body)).Posted R signed := by
  intro row hrow
  rw [rows_inserted, List.mem_append, List.mem_singleton] at hrow
  rcases hrow with hrow | rfl
  · exact h row hrow
  · exact ⟨envelope, hread, rfl, rfl, hsigned⟩

theorem contents_inserted {now : UInt64} {envelope : Envelope} {body : List UInt8}
    (hread : R.envelope body = .ok envelope) :
    (s.inserted (mailRow now envelope body)).contents R = s.contents R ++ [envelope.content] := by
  simp [contents, rows_inserted, readRow, hread]

theorem contents_deleteWhere_sublist (p : Int → MailRow → Bool) :
    (contents R { s with mail := s.mail.deleteWhere p }).Sublist (s.contents R) :=
  (List.filter_sublist.filterMap _).map _

theorem mem_signed_of_contents (h : s.Posted R signed) {t : Transcript}
    (ht : t ∈ s.contents R) : t ∈ signed := by
  obtain ⟨m, hm, rfl⟩ := List.mem_map.mp ht
  obtain ⟨row, hrow, hread⟩ := List.mem_filterMap.mp hm
  obtain ⟨e, he, -, -, hmem⟩ := h row hrow
  obtain rfl := Except.ok.inj (he.symm.trans (readRow_eq_some.mp hread).2)
  exact hmem

/-- The columns that are counted say what the envelopes say. -/
theorem pendingFrom_eq (h : s.Posted R signed) (sender recipient : Key) :
    s.pendingFrom sender recipient =
      ((s.contents R).filter fun t => t.route = some (sender, recipient)).length := by
  unfold Posted at h
  unfold pendingFrom contents
  generalize s.mail.rows = rows at h
  induction rows with
  | nil => rfl
  | cons row rows ih =>
    obtain ⟨e, hread, hsender, hrecipient, -⟩ := h row List.mem_cons_self
    have hrow : readRow R row = some (row.1, e) := readRow_eq_some.mpr ⟨rfl, hread⟩
    rw [List.countP_cons, ih fun r hr => h r (List.mem_cons_of_mem _ hr),
      List.filterMap_cons_some hrow, List.map_cons, List.filter_cons]
    simp only [Envelope.route_content, Option.some.injEq, Prod.mk.injEq, hsender, hrecipient]
    split <;> simp_all

/-- Rows that all say something else are no more than what was sealed. -/
theorem pendingFrom_le (h : s.Posted R signed) (hnodup : (s.contents R).Nodup)
    (sender recipient : Key) :
    s.pendingFrom sender recipient ≤
      (signed.filter fun t => t.route = some (sender, recipient)).dedup.length := by
  rw [pendingFrom_eq h]
  refine (List.subperm_of_subset (hnodup.filter _) fun t ht => ?_).length_le
  rw [List.mem_filter] at ht
  exact List.mem_dedup.mpr (List.mem_filter.mpr ⟨mem_signed_of_contents h ht.1, ht.2⟩)

end MailStore

namespace MailStore

/-- No more is waiting between any two than `limit` says. -/
def Within (limit : Key → Key → Nat) (s : MailStore) : Prop :=
  ∀ sender recipient, s.pendingFrom sender recipient ≤ limit sender recipient

variable {limit : Key → Key → Nat} {s : MailStore}

theorem Within.deleteWhere (h : s.Within limit) (p : Int → MailRow → Bool) :
    Within limit { s with mail := s.mail.deleteWhere p } :=
  fun sender recipient => List.filter_sublist.countP_le.trans (h sender recipient)

theorem Within.inserted_iff (h : s.Within limit) (now : UInt64) {envelope : Envelope}
    (body : List UInt8) : (s.inserted (mailRow now envelope body)).Within limit ↔
      s.pendingFrom envelope.sender envelope.recipient <
        limit envelope.sender envelope.recipient := by
  constructor
  · intro hinserted
    have hown := hinserted envelope.sender envelope.recipient
    rwa [pendingFrom_inserted, if_pos ⟨rfl, rfl⟩] at hown
  · intro hspare sender recipient
    rw [pendingFrom_inserted]
    split
    · rename_i hroute
      obtain ⟨rfl, rfl⟩ := hroute
      exact hspare
    · exact h sender recipient

end MailStore

/-- The envelope that a request has in its hands was sealed by somebody. -/
def MailPc.Sealed (R : Readers) (signed : List Transcript) : MailPc → Prop
  | .checkRecipient envelope body | .put envelope body =>
    R.envelope body = .ok envelope ∧ envelope.content ∈ signed
  | _ => True

namespace Post

variable {C : Crypto} {R : Readers} {p : Post}

/-- Every row and every request at work is about something that was sealed, and no two rows are
about the same. -/
def Apart (R : Readers) (p : Post) : Prop :=
  p.hub.Holds (fun s => s.store.Posted R p.signed ∧ (s.store.contents R).Nodup)
    fun t _ => t.pc.Sealed R p.signed

theorem Apart.own (h : p.Apart R) : p.Own :=
  MailStore.pendingFrom_le h.shared.1 h.shared.2

theorem Apart.sealed (h : p.Apart R) (content : Transcript) :
    (p.step C R (.sealed content)).Apart R := by
  have hsub : p.signed ⊆ content :: p.signed := List.subset_cons_self content p.signed
  refine ⟨⟨h.shared.1.mono hsub, h.shared.2⟩, fun i t ht => ?_⟩
  have hpc := h.tasks i t ht
  generalize t.pc = pc at hpc
  cases pc with
  | checkRecipient envelope body | put envelope body => exact ⟨hpc.1, hsub hpc.2⟩
  | start | done answer => trivial

theorem sealed_section {t : MailTask} {s s' : Served} {pc : MailPc} {signed : List Transcript}
    (hknown : ∀ path body, t.pc = .start → t.call = .post path body →
      ∀ envelope, R.envelope body = .ok envelope → envelope.verifySignature C = .ok () →
        envelope.content ∈ signed)
    (ht : t.pc.Sealed R signed) (h : t.Section C R s pc s') : pc.Sealed R signed := by
  cases h with
  | quiet leads =>
    cases leads with
    | answered answer => trivial
    | checked hpc hcall haddressed hquota =>
      obtain ⟨-, -, hread, hverify⟩ := addressed_eq_ok.mp haddressed
      exact ⟨hread, hknown _ _ hpc hcall _ hread hverify⟩
    | passed hpc hquota => rwa [hpc] at ht
  | _ => trivial

theorem apart_section {t : MailTask} {s s' : Served} {pc : MailPc} {signed : List Transcript}
    (hfresh : ∀ envelope body, t.pc = .put envelope body → t.io 2 = none →
      envelope.content ∉ s.store.contents R)
    (ht : t.pc.Sealed R signed) (hposted : s.store.Posted R signed)
    (hnodup : (s.store.contents R).Nodup) (h : t.Section C R s pc s') :
    s'.store.Posted R signed ∧ (s'.store.contents R).Nodup := by
  cases h with
  | quiet | returned => exact ⟨hposted, hnodup⟩
  | inserted hpc hio =>
    rw [hpc] at ht
    refine ⟨hposted.inserted ht.1 ht.2, ?_⟩
    rw [MailStore.contents_inserted ht.1]
    rw [← List.concat_eq_append, List.nodup_concat]
    exact ⟨hfresh _ _ hpc hio, hnodup⟩
  | removed | swept =>
    exact ⟨hposted.deleteWhere _, hnodup.sublist (MailStore.contents_deleteWhere_sublist _)⟩

theorem Apart.request (h : p.Apart R) {i : Nat} (hknown : p.Unforged C R (.request i))
    (hfresh : p.Puts (NotWaiting R) (.request i)) : (p.step C R (.request i)).Apart R := by
  refine Pool.Holds.step (P := fun t _ s =>
    (∀ path body, t.pc = .start → t.call = .post path body →
      ∀ envelope, R.envelope body = .ok envelope → envelope.verifySignature C = .ok () →
        envelope.content ∈ p.signed) ∧
    ∀ envelope body, t.pc = .put envelope body → t.io 2 = none →
      envelope.content ∉ s.store.contents R) ?_ (fun _ _ _ _ hu => hu) h ?_
  · rintro t s ⟨hknown, hfresh⟩ ⟨hposted, hnodup⟩ ht
    exact ⟨apart_section hfresh ht hposted hnodup (t.section_advance C R s),
      sealed_section hknown ht (t.section_advance C R s)⟩
  · intro t j u ht _
    exact ⟨hknown t ht, hfresh t ht⟩

theorem Apart.step (h : p.Apart R) {event : PostEvent} (hknown : p.Unforged C R event)
    (hfresh : p.Puts (NotWaiting R) event) : (p.step C R event).Apart R := by
  cases event with
  | sealed content => exact h.sealed content
  | request i => exact h.request hknown hfresh

theorem apart_start {tasks : List MailTask} (htasks : ∀ t ∈ tasks, t.pc = .start) :
    (start tasks).Apart R := by
  refine ⟨⟨fun _ hrow => absurd hrow List.not_mem_nil, List.nodup_nil⟩, fun i t ht => ?_⟩
  rw [htasks t (List.mem_of_getElem? ht)]
  trivial

theorem sealedFor_cons (content : Transcript) (p : Post) (sender recipient : Key) :
    p.sealedFor sender recipient ≤ (p.step C R (.sealed content)).sealedFor sender recipient := by
  refine (List.subperm_of_subset (List.nodup_dedup _) fun t ht => ?_).length_le
  rw [List.mem_dedup, List.mem_filter] at ht ⊢
  exact ⟨List.mem_cons_of_mem _ ht.1, ht.2⟩

/-- A put is the one thing that can make too much of somebody's mail wait. -/
theorem own_step_iff (hread : p.hub.Holds (fun _ => True) fun t _ => t.pc.Read R) (h : p.Own)
    (event : PostEvent) : (p.step C R event).Own ↔ p.Puts Spare event := by
  cases event with
  | sealed content =>
    exact iff_of_true (fun s r => (h s r).trans (sealedFor_cons content p s r)) trivial
  | request i =>
    cases ht : p.hub.tasks[i]? with
    | none => simpa [Puts, MailTasks.Fit, ht, step, Pool.step_of_none ht] using h
    | some t =>
      simp only [Puts, MailTasks.Fit, ht, Option.mem_def, Option.some.injEq, forall_eq', step, Own,
        Pool.step_of_some ht]
      have hdeleted : ∀ (s : MailStore) recipient ids, s.Within p.sealedFor →
          (s.deleted recipient ids).Within p.sealedFor := fun _ _ _ hs => hs.deleteWhere _
      have hswept : ∀ (s : MailStore) now, s.Within p.sealedFor →
          (s.swept now).Within p.sealedFor := fun _ _ hs => hs.deleteWhere _
      exact MailTask.good_advance_iff hdeleted hswept
        (fun _ now _ body _ hs => hs.inserted_iff now body) (hread.tasks i t ht) h

end Post

/-- As long as no envelope is put that is waiting already, nobody has more waiting than it sealed;
and in any run this is so exactly as long as each put finds fewer waiting than were sealed. -/
theorem backlog_is_the_senders_own (C : Crypto) (R : Readers) {tasks : List MailTask}
    (htasks : ∀ t ∈ tasks, t.pc = .start) {events : List PostEvent}
    (hunforged : Along (Post.step C R) (Post.Unforged C R) (.start tasks) events) :
    (Along (Post.step C R) (Post.Puts (Post.NotWaiting R)) (.start tasks) events →
      ∀ n, (run (Post.step C R) (.start tasks) (events.take n)).Own) ∧
    ((∀ n, (run (Post.step C R) (.start tasks) (events.take n)).Own) ↔
      Along (Post.step C R) (Post.Puts Post.Spare) (.start tasks) events) := by
  constructor
  · intro hfresh n
    have hstep : ∀ (p : Post) event, p.Apart R →
        p.Unforged C R event ∧ p.Puts (Post.NotWaiting R) event → (p.step C R event).Apart R :=
      fun p event hp h => hp.step h.1 h.2
    exact (Along.throughout hstep (Post.apart_start htasks) (hunforged.and hfresh) n).own
  · refine Along.iff_throughout (G := Post.Own) (I := fun p : Post => p.hub.Holds (fun _ => True)
      fun t _ => t.pc.Read R) ?_ (fun p event hp hown => Post.own_step_iff hp hown event)
      (MailTasks.read_start htasks) (fun _ _ => Nat.zero_le _)
    intro p event hp
    cases event with
    | sealed content => exact hp
    | request i => exact MailTasks.read_step hp i

/-- What a request is about to put. -/
def MailTask.putting (t : MailTask) : Option Envelope :=
  match t.pc with
  | .put envelope _ => if t.io 2 = none then some envelope else none
  | _ => none

theorem MailTask.mem_putting {t : MailTask} {envelope : Envelope} :
    envelope ∈ t.putting ↔ ∃ body, t.pc = .put envelope body ∧ t.io 2 = none := by
  unfold putting
  split
  case h_1 e body hpc => simp [hpc, and_comm]
  case h_2 hne => simpa using fun body hpc => absurd hpc (hne _ body)

theorem MailTasks.fit_iff {Fits : MailStore → Envelope → Prop} {p : MailTasks} {i : Nat} :
    p.Fit Fits i ↔ ∀ t ∈ p.tasks[i]?, ∀ envelope ∈ t.putting, Fits p.shared.store envelope := by
  simp only [Fit, MailTask.mem_putting, forall_exists_index, and_imp]

instance MailTasks.decidableFit (Fits : MailStore → Envelope → Prop)
    [∀ s e, Decidable (Fits s e)] (p : MailTasks) (i : Nat) : Decidable (p.Fit Fits i) :=
  decidable_of_iff _ fit_iff.symm

instance Post.decidableNotWaiting (R : Readers) (p : Post) (envelope : Envelope) :
    Decidable (p.NotWaiting R envelope) :=
  inferInstanceAs (Decidable (envelope.content ∉ _))

instance Post.decidablePuts (Fits : Post → Envelope → Prop) [∀ p e, Decidable (Fits p e)]
    (p : Post) : ∀ event, Decidable (p.Puts Fits event)
  | .sealed _ => .isTrue trivial
  | .request i => MailTasks.decidableFit (fun _ => Fits p) p.hub i

namespace Sample

open Core.Sample

/-- All that the readers know has been sealed, so there is nothing to forge. -/
theorem along_unforged {envelopes : List Envelope} {p : Post}
    (h : ∀ e ∈ envelopes, e.content ∈ p.signed) (events : List PostEvent) :
    Along (Post.step crypto (readers envelopes)) (Post.Unforged crypto (readers envelopes)) p
      events := by
  have hstep : ∀ (p : Post) event, (∀ e ∈ envelopes, e.content ∈ p.signed) → True →
      ∀ e ∈ envelopes, e.content ∈ (p.step crypto (readers envelopes) event).signed := by
    intro p event hp _
    cases event with
    | sealed content => exact fun e he => List.mem_cons_of_mem _ (hp e he)
    | request i => exact hp
  refine Along.of_invariant hstep ?_ h (along_of_forall (fun _ _ => trivial) p events)
  · intro p event hp _
    cases event with
    | sealed content => trivial
    | request i =>
      intro t _ path body _ _ envelope hread _
      refine hp envelope ?_
      simp only [readers] at hread
      split at hread
      case h_1 e hfind =>
        obtain rfl := Except.ok.inj hread
        exact List.mem_of_find?_eq_some hfind
      case h_2 => cases hread

/-- 1 writes to 2 once … -/
def onlyLetter : Envelope := sealed 1 2 [1]

abbrev onlyReaders : Readers := readers [onlyLetter]

/-- … and whoever has seen the letter posts it as well. -/
def postedTwice : List MailTask := [posted 1 onlyLetter, posted 2 onlyLetter]

def twiceEvents : List PostEvent :=
  .sealed onlyLetter.content :: [0, 0, 0, 1, 1, 1].map .request

/-- The same, when 2 has taken the first one out. -/
def postedAgain : List MailTask := [posted 1 onlyLetter, deleting 2 2 [1], posted 3 onlyLetter]

def againEvents : List PostEvent :=
  .sealed onlyLetter.content :: [0, 0, 0, 1, 2, 2, 2].map .request

theorem unforged_only (tasks : List MailTask) (events : List PostEvent) :
    Along (Post.step crypto onlyReaders) (Post.Unforged crypto onlyReaders) (.start tasks)
      (.sealed onlyLetter.content :: events) := by
  refine ⟨trivial, along_unforged (fun e he => ?_) events⟩
  obtain rfl := List.mem_singleton.mp he
  exact List.mem_cons_self

end Sample

open Core.Sample Sample in
theorem backlog_is_the_senders_own_again :
    (∀ t ∈ postedAgain, t.pc = .start) ∧
    Along (Post.step crypto onlyReaders) (Post.Unforged crypto onlyReaders) (.start postedAgain)
      againEvents ∧
    (∀ n, (run (Post.step crypto onlyReaders) (.start postedAgain) (againEvents.take n)).Own) ∧
    Along (Post.step crypto onlyReaders) (Post.Puts Post.Spare) (.start postedAgain)
      againEvents := by
  have htasks : ∀ t ∈ postedAgain, t.pc = .start := by
    simp [postedAgain, posted, deleting]
  have hunforged := unforged_only postedAgain ([0, 0, 0, 1, 2, 2, 2].map .request)
  have hfresh : Along (Post.step crypto onlyReaders) (Post.Puts (Post.NotWaiting onlyReaders))
      (.start postedAgain) againEvents := by decide +kernel
  obtain ⟨hown, hiff⟩ := backlog_is_the_senders_own crypto onlyReaders htasks hunforged
  exact ⟨htasks, hunforged, hown hfresh, hiff.mp (hown hfresh)⟩

open Core.Sample Sample in
/-- The letter is there twice, and 1 has sealed it once. -/
theorem replay_takes_up_quota :
    (∀ t ∈ postedTwice, t.pc = .start) ∧
    Along (Post.step crypto onlyReaders) (Post.Unforged crypto onlyReaders) (.start postedTwice)
      twiceEvents ∧
    (run (Post.step crypto onlyReaders) (.start postedTwice) twiceEvents).sealedFor (key 1)
      (key 2) = 1 ∧
    (run (Post.step crypto onlyReaders) (.start postedTwice)
      twiceEvents).hub.shared.store.pendingFrom (key 1) (key 2) = 2 ∧
    ¬∀ n, (run (Post.step crypto onlyReaders) (.start postedTwice) (twiceEvents.take n)).Own := by
  have hcounts : (run (Post.step crypto onlyReaders) (.start postedTwice) twiceEvents).sealedFor
      (key 1) (key 2) = 1 ∧
    (run (Post.step crypto onlyReaders) (.start postedTwice)
      twiceEvents).hub.shared.store.pendingFrom (key 1) (key 2) = 2 := by decide +kernel
  refine ⟨by simp [postedTwice, posted], unforged_only _ _, hcounts.1, hcounts.2, fun h => ?_⟩
  have hown := h twiceEvents.length (key 1) (key 2)
  rw [List.take_length, hcounts.1, hcounts.2] at hown
  omega

end Wicara.Hub
