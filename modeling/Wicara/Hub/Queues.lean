import Wicara.Hub.MailTasks
import Wicara.Lib.Queues

namespace Wicara.Hub

open Wicara.Core Lib Lib.Fallible Lib.Run Lib.Queues

/-- What lies in a recipient's queue: an envelope, its id for now, and when it came in. -/
structure Parcel where
  id : Int
  envelope : Envelope
  receivedMs : Int
  deriving DecidableEq

/-- As `get_mail` returns it. -/
def Parcel.shown (p : Parcel) : Int × Envelope := (p.id, p.envelope)

/-- What happens to the queues. -/
inductive MailEvent
  | accepted (parcel : Parcel)
  | taken (recipient : Key) (ids : List Int)
  | expired (cutoff : Int)
  | nothing

abbrev Mailboxes := Key → List Parcel

def Mailboxes.apply (q : Mailboxes) : MailEvent → Mailboxes
  | .accepted parcel => push parcel.envelope.recipient parcel q
  | .taken recipient ids => sift (fun r p => !(decide (p.id ∈ ids) && decide (r = recipient))) q
  | .expired cutoff => sift (fun _ p => !decide (p.receivedMs < cutoff)) q
  | .nothing => q

variable (C : Crypto) (R : Readers)

/-- What a request that was answered so has done. -/
def MailTask.event (t : MailTask) (s : MailStore) (answer : Answer) : MailEvent :=
  match t.call, answer with
  | .post path body, .status 202 =>
    match addressed C R path body with
    | .ok envelope => .accepted ⟨s.nextId, envelope, t.now.toInt64.toInt⟩
    | .error _ => .nothing
  | .delete headers body, .status 204 =>
    match authenticate C R t.now headers, R.ids body with
    | .ok me, .ok ids => .taken me ids
    | _, _ => .nothing
  | .sweep, .swept => .expired (MailStore.cutoff t.now)
  | _, _ => .nothing

/-- The hub, and beside it the queues that it stands for. -/
structure Office where
  served : Served
  boxes : Mailboxes

def Office.start : Office := ⟨.start, fun _ => []⟩

/-- One request, from start to end. -/
def Office.take (o : Office) (t : MailTask) : Office :=
  match (t.sequential C R).run o.served with
  | .ok answer served => ⟨served, o.boxes.apply (t.event C R o.served.store answer)⟩
  | .error _ served => ⟨served, o.boxes⟩

/-- A request for another endpoint or by another endpoint. -/
def MailTask.Foreign (r : Key) (t : MailTask) : Prop :=
  match t.call with
  | .post path _ => parseEndpoint R path ≠ .ok r
  | .get headers | .delete headers _ => authenticate C R t.now headers ≠ .ok r
  | .sweep => False

def parcelOf (row : Int × MailRow) : Option Parcel :=
  match R.envelope row.2.blob with
  | .ok envelope => some ⟨row.1, envelope, row.2.receivedMs⟩
  | .error _ => none

namespace MailStore

/-- The queues that the table holds. -/
def parcels (s : MailStore) : Mailboxes :=
  ofRows (fun row => row.2.recipient) (parcelOf R) s.mail.rows

/-- The table has its rows in the order of their ids. -/
def Ordered (s : MailStore) : Prop := s.mail.keys.Pairwise (· < ·)

variable {R} {s : MailStore}

theorem ordered_inserted (h : s.Ordered) (row : MailRow) : (s.inserted row).Ordered := by
  rw [Ordered, Table.keys, rows_inserted, List.map_append, List.pairwise_append]
  refine ⟨h, List.pairwise_singleton _ _, fun a ha b hb => ?_⟩
  obtain rfl := List.mem_singleton.mp hb
  exact lt_nextId ha

theorem ordered_deleteWhere (h : s.Ordered) (p : Int → MailRow → Bool) :
    Ordered { s with mail := s.mail.deleteWhere p } :=
  h.sublist (List.filter_sublist.map _)

theorem parcelOf_eq_some {row : Int × MailRow} {p : Parcel} :
    parcelOf R row = some p ↔
      R.envelope row.2.blob = .ok p.envelope ∧ row.1 = p.id ∧ row.2.receivedMs = p.receivedMs := by
  obtain ⟨id, envelope, receivedMs⟩ := p
  cases h : R.envelope row.2.blob <;> simp [parcelOf, h, and_left_comm]

/-- `ORDER BY id` gives the order in which the rows came in. -/
theorem mailFor_eq (h : s.Ordered) (r : Key) :
    s.mailFor R r = (s.parcels R r).map Parcel.shown := by
  have hsorted : ((s.mail.rows.filter fun row => row.2.recipient = r).Pairwise
      fun a b => a.1 ≤ b.1) := by
    have hrows : s.mail.rows.Pairwise fun a b => a.1 < b.1 := List.pairwise_map.mp h
    exact (hrows.imp fun hlt => Int.le_of_lt hlt).filter _
  rw [mailFor, hsorted.insertionSort_eq, parcels, ofRows, List.map_filterMap]
  refine List.filterMap_congr fun row _ => ?_
  rw [readRow, parcelOf]
  cases R.envelope row.2.blob <;> rfl

theorem parcels_inserted {now : UInt64} {envelope : Envelope} {body : List UInt8}
    (h : R.envelope body = .ok envelope) :
    (s.inserted (mailRow now envelope body)).parcels R =
      (s.parcels R).apply (.accepted ⟨s.nextId, envelope, now.toInt64.toInt⟩) := by
  rw [parcels, rows_inserted]
  refine ofRows_append_row _ ?_
  rw [parcelOf, blob_mailRow, h]
  rfl

theorem parcels_deleted (recipient : Key) (ids : List Int) :
    (s.deleted recipient ids).parcels R = (s.parcels R).apply (.taken recipient ids) := by
  refine ofRows_filter _ fun row p hp => ?_
  obtain ⟨-, hid, -⟩ := parcelOf_eq_some.mp hp
  rw [← hid, ← Bool.decide_and]

theorem parcels_swept (now : UInt64) :
    (s.swept now).parcels R = (s.parcels R).apply (.expired (cutoff now)) := by
  refine ofRows_filter _ fun row p hp => ?_
  obtain ⟨-, -, hreceived⟩ := parcelOf_eq_some.mp hp
  simp only [hreceived]

end MailStore

variable {C R}

/-- The queues of the store, after a request that was answered so, or that failed. -/
def Stands (R : Readers) (q : Mailboxes) (s : Served) : Prop :=
  s.store.Ordered ∧ s.store.parcels R = q

/-- The step lemma: what a request does to the table is what its event does to the queues. -/
theorem MailTask.stands_sequential (t : MailTask) {s : Served} {q : Mailboxes}
    (h : Stands R q s) :
    wp (t.sequential C R) (fun answer => Stands R (q.apply (t.event C R s.store answer)))
      (fun _ => Stands R q) s := by
  obtain ⟨hordered, rfl⟩ := h
  obtain ⟨call, io, now, pc⟩ := t
  have hsame : Stands R (s.store.parcels R) s := ⟨hordered, rfl⟩
  cases call with
  | post path body =>
    simp only [sequential, postMail, onMail, checkSender, checkRecipient, putMail, wp_bind, wp_lift,
      wp_zoom, wp_statement, wp_get, wp_modify, wp_pure]
    refine ⟨fun envelope haddressed => ⟨fun _ => ⟨fun _ _ => ⟨fun _ => ⟨fun _ _ => ⟨fun _ => ?_,
      fun _ => hsame⟩, fun _ _ => hsame⟩, fun _ => hsame⟩, fun _ _ => hsame⟩, fun _ => hsame⟩,
      fun _ _ => hsame⟩
    simp only [event, haddressed]
    exact ⟨MailStore.ordered_inserted hordered _,
      MailStore.parcels_inserted (addressed_eq_ok.mp haddressed).2.2.1⟩
  | get headers =>
    simp only [sequential, serveMail, onMail, getMail, wp_bind, wp_lift, wp_zoom, wp_statement,
      wp_get, wp_modify, wp_pure]
    exact ⟨fun _ _ => ⟨fun _ _ => ⟨fun _ => hsame, fun _ => hsame⟩, fun _ _ => hsame⟩,
      fun _ _ => hsame⟩
  | delete headers body =>
    simp only [sequential, onMail, deleteMail, wp_bind, wp_lift, wp_zoom, wp_statement, wp_modify,
      wp_pure, readBody_eq_ok]
    refine ⟨fun me hme => ⟨fun ids hids => ⟨fun _ => ?_, fun _ => hsame⟩, fun _ _ => hsame⟩,
      fun _ _ => hsame⟩
    simp only [event, hme, hids]
    exact ⟨MailStore.ordered_deleteWhere hordered _, MailStore.parcels_deleted me ids⟩
  | sweep =>
    simp only [sequential, onMail, Hub.sweep, wp_bind, wp_zoom, wp_statement, wp_modify, wp_pure]
    exact ⟨fun _ => ⟨MailStore.ordered_deleteWhere hordered _, MailStore.parcels_swept now⟩,
      fun _ => hsame⟩

theorem Office.stands_take {o : Office} (h : Stands R o.boxes o.served) (t : MailTask) :
    Stands R (o.take C R t).boxes (o.take C R t).served := by
  have hstep : wp (t.sequential C R) _ _ o.served := t.stands_sequential h
  unfold wp at hstep
  unfold Office.take
  cases hrun : (t.sequential C R).run o.served <;> simpa [hrun] using hstep

/-- The run lemma. -/
theorem Office.stands_run {o : Office} (h : Stands R o.boxes o.served) (requests : List MailTask) :
    Stands R (run (Office.take C R) o requests).boxes
      (run (Office.take C R) o requests).served := by
  induction requests generalizing o with
  | nil => exact h
  | cons t requests ih => exact ih (Office.stands_take h t)

theorem Office.stands_start : Stands R Office.start.boxes Office.start.served :=
  ⟨List.Pairwise.nil, rfl⟩

/-- What is for others or by others is no business of a queue. -/
theorem MailTask.Foreign.apply_event {t : MailTask} {r : Key} (h : t.Foreign C R r)
    (q : Mailboxes) (s : MailStore) (answer : Answer) : q.apply (t.event C R s answer) r = q r := by
  obtain ⟨call, io, now, pc⟩ := t
  cases call with
  | post path body =>
    unfold event
    split
    case h_1 path' body' hcall =>
      cases hcall
      split
      case h_1 envelope haddressed =>
        refine push_of_ne ?_ _ q
        rintro rfl
        exact h (addressed_eq_ok.mp haddressed).2.1
      case h_2 => rfl
    case h_4 => rfl
    all_goals rename_i hcall; cases hcall
  | get headers => rfl
  | delete headers body =>
    unfold event
    split
    case h_2 headers' body' hcall =>
      cases hcall
      split
      case h_1 me ids hme hids =>
        have hne : ¬r = me := fun hr => h (hr ▸ hme)
        simp only [Mailboxes.apply]
        exact sift_of_forall (fun p => by simp [hne]) q
      case h_2 => rfl
    case h_4 => rfl
    all_goals rename_i hcall; cases hcall
  | sweep => exact h.elim

theorem MailTask.Foreign.boxes_take {t : MailTask} {r : Key} (h : t.Foreign C R r) (o : Office) :
    (o.take C R t).boxes r = o.boxes r := by
  unfold Office.take
  split
  · exact h.apply_event _ _ _
  · rfl

/-- `get_mail` returns what it has found, if it gets as far as the store. -/
theorem MailTask.run_get {t : MailTask} {headers : Headers} {r : Key}
    (hcall : t.call = .get headers) (hme : authenticate C R t.now headers = .ok r)
    (hio : t.io 0 = none) (s : Served) :
    ∃ s', (t.sequential C R).run s = .ok (.mail (mailToStdvec (s.store.mailFor R r))) s' := by
  refine ⟨{ s with returned := s.returned ++ (s.store.mailFor R r).map (r, ·) }, ?_⟩
  simp only [sequential, hcall, serveMail, getMail, statement, hio, hme, Option.map_none, attempt,
    lift, pure_bind]
  rfl

/-- The hub's mail is one queue for each recipient: what is accepted for a recipient goes to its
end, what the recipient names or what is too old leaves it, and nothing else touches it. -/
theorem mail_refines_queues (C : Crypto) (R : Readers) (requests : List MailTask) :
    let o := run (Office.take C R) .start requests
    (∀ r, o.served.store.mailFor R r = (o.boxes r).map Parcel.shown) ∧
    (∀ (t : MailTask) headers r, t.call = .get headers → authenticate C R t.now headers = .ok r →
      t.io 0 = none → ∃ served, (t.sequential C R).run o.served =
        .ok (.mail (mailToStdvec ((o.boxes r).map Parcel.shown))) served) ∧
    ∀ (t : MailTask) r, t.Foreign C R r →
      (o.take C R t).served.store.mailFor R r = o.served.store.mailFor R r := by
  intro o
  have hstands : Stands R o.boxes o.served := Office.stands_run Office.stands_start requests
  have hshown : ∀ r, o.served.store.mailFor R r = (o.boxes r).map Parcel.shown := by
    intro r
    rw [MailStore.mailFor_eq hstands.1, hstands.2]
  refine ⟨hshown, fun t headers r hcall hme hio => ?_, fun t r hforeign => ?_⟩
  · rw [← hshown]
    exact MailTask.run_get hcall hme hio o.served
  · have hafter := Office.stands_take (C := C) hstands t
    rw [MailStore.mailFor_eq hafter.1, hafter.2, hforeign.boxes_take, hshown]

namespace Sample

open Core.Sample

def firstLetter : Envelope := sealed 1 2 [1]

def secondLetter : Envelope := sealed 3 2 [2]

abbrev letterReaders : Readers := readers [firstLetter, secondLetter]

/-- 1 and 3 write to 2, who deletes what came first. -/
def twoLetters : List MailTask := [posted 1 firstLetter, posted 2 secondLetter, deleting 3 2 [1]]

end Sample

open Core.Sample Sample in
theorem mail_refines_queues_two_letters :
    let o := run (Office.take crypto letterReaders) .start twoLetters
    (o.boxes (key 2)).map Parcel.shown = [(2, secondLetter)] ∧
    (∃ served, ((fetching 4 2).sequential crypto letterReaders).run o.served =
      .ok (.mail (mailToStdvec ((o.boxes (key 2)).map Parcel.shown))) served) ∧
    (o.take crypto letterReaders (fetching 4 2)).served.store.mailFor letterReaders (key 1) =
      o.served.store.mailFor letterReaders (key 1) := by
  have hme : authenticate crypto letterReaders 4 (signedBy 2 4) = .ok (key 2) := by decide +kernel
  have hforeign : (fetching 4 2).Foreign crypto letterReaders (key 1) := by
    intro hone
    cases hme.symm.trans hone
  exact ⟨by decide +kernel,
    (mail_refines_queues crypto letterReaders twoLetters).2.1 (fetching 4 2) (signedBy 2 4) (key 2)
      rfl hme rfl,
    (mail_refines_queues crypto letterReaders twoLetters).2.2 (fetching 4 2) (key 1) hforeign⟩

end Wicara.Hub
