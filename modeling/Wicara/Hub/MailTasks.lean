import Wicara.Core.Sample
import Wicara.Hub.Mail
import Wicara.Lib.Interleaving

namespace Wicara.Hub

open Wicara.Core Lib Lib.Fallible Lib.Interleaving Lib.Run

/-- The mail, and what `get_mail` has returned so far and to whom. -/
structure Served where
  store : MailStore
  returned : List (Key × Int × Envelope)

def Served.start : Served := ⟨.empty, []⟩

@[simp] theorem Served.store_mk (store : MailStore) (returned : List (Key × Int × Envelope)) :
    (Served.mk store returned).store = store := rfl

theorem Served.iterate_store (f : MailStore → MailStore) (n : Nat) (s : Served) :
    (fun s : Served => { s with store := f s.store })^[n] s =
      { s with store := f^[n] s.store } := by
  induction n with
  | zero => rfl
  | succ n ih => rw [Function.iterate_succ_apply', Function.iterate_succ_apply', ih]

abbrev ServedAct := EStateM Error Served

def onMail (m : MailAct α) : ServedAct α :=
  zoom Served.store (fun store s => { s with store := store }) m

inductive Answer
  | status (code : Nat)
  | mail (bytes : List UInt8)
  | swept

/-- Where a request stands: each of these is followed by one section, which holds the lock of
the store once. -/
inductive MailPc
  | start
  | checkRecipient (envelope : Envelope) (body : List UInt8)
  | put (envelope : Envelope) (body : List UInt8)
  | done (answer : Except Error Answer)

inductive MailCall
  | post (path : String) (body : List UInt8)
  | get (headers : Headers)
  | delete (headers : Headers) (body : List UInt8)
  | sweep

structure MailTask where
  call : MailCall
  io : Sqlite
  now : UInt64
  pc : MailPc

variable (C : Crypto) (R : Readers)

def serveMail (io : Sqlite) (now : UInt64) (headers : Headers) : ServedAct Answer := do
  let me ← lift (authenticate C R now headers)
  let bytes ← onMail (getMail C R io now headers)
  modify fun s => { s with returned := s.returned ++ (s.store.mailFor R me).map (me, ·) }
  pure (.mail bytes)

/-- The request, handled from start to end with nothing in between. -/
def MailTask.sequential (t : MailTask) : ServedAct Answer :=
  match t.call with
  | .post path body => do
    let code ← onMail (postMail C R t.io t.now path body)
    pure (.status code)
  | .get headers => serveMail C R t.io t.now headers
  | .delete headers body => do
    let code ← onMail (deleteMail C R t.io t.now headers body)
    pure (.status code)
  | .sweep => do
    onMail (Hub.sweep t.io t.now)
    pure .swept

/-- The next section of a request. -/
def MailTask.next (t : MailTask) : ServedAct MailPc :=
  match t.pc with
  | .start =>
    match t.call with
    | .post path body => do
      let envelope ← lift (addressed C R path body)
      onMail (checkSender t.io envelope)
      pure (.checkRecipient envelope body)
    | _ => do
      let answer ← t.sequential C R
      pure (.done (.ok answer))
  | .checkRecipient envelope body => do
    onMail (Hub.checkRecipient t.io envelope)
    pure (.put envelope body)
  | .put envelope body => do
    onMail (putMail t.io t.now envelope body)
    pure (.done (.ok (.status 202)))
  | .done answer => pure (.done answer)

def MailTask.advance (t : MailTask) (s : Served) : MailTask × Served :=
  match (t.next C R).run s with
  | .ok pc s => ({ t with pc := pc }, s)
  | .error err s => ({ t with pc := .done (.error err) }, s)

/-- The part of the request that a task has before it. -/
def MailTask.remaining (t : MailTask) : ServedAct Answer :=
  match t.pc with
  | .start => t.sequential C R
  | .checkRecipient envelope body => do
    onMail (Hub.checkRecipient t.io envelope)
    onMail (putMail t.io t.now envelope body)
    pure (.status 202)
  | .put envelope body => do
    onMail (putMail t.io t.now envelope body)
    pure (.status 202)
  | .done answer => lift answer

abbrev MailTasks := Pool Served MailTask

/-- A pool of requests that have not begun, at a hub without mail. -/
def MailTasks.start (tasks : List MailTask) : MailTasks := ⟨.start, tasks⟩

/-- What a request has in its hands is what its body decodes to. -/
def MailPc.Read : MailPc → Prop
  | .checkRecipient envelope body | .put envelope body => R.envelope body = .ok envelope
  | _ => True

def MailPc.left : MailPc → Nat
  | .start => 3
  | .checkRecipient _ _ => 2
  | .put _ _ => 1
  | .done _ => 0

variable {C R}

theorem onMail_bind (m : MailAct α) (f : α → MailAct β) :
    onMail (m >>= f) = onMail m >>= fun a => onMail (f a) := by
  unfold onMail
  refine zoom_bind ?_ ?_ m f
  · exact fun _ _ => rfl
  · exact fun _ _ _ => rfl

theorem onMail_lift (x : Except Error α) : onMail (lift x) = lift x := by
  unfold onMail
  refine zoom_lift ?_ x
  exact fun _ => rfl

theorem onMail_pure (a : α) : onMail (pure a) = pure a := onMail_lift (.ok a)

/-- One section taken off the front of what a task has before it. -/
theorem MailTask.remaining_eq (t : MailTask) :
    t.remaining C R = t.next C R >>= fun pc => MailTask.remaining C R { t with pc := pc } := by
  obtain ⟨call, io, now, pc⟩ := t
  cases pc with
  | start =>
    cases call with
    | post path body =>
      simp only [remaining, next, sequential, postMail, onMail_bind, onMail_lift, onMail_pure,
        bind_assoc, pure_bind]
    | _ => simp [remaining, next, lift]
  | checkRecipient envelope body => simp [remaining, next]
  | put envelope body => simp [remaining, next, lift]
  | done answer => simp [remaining, next]

/-- A section changes what is left of the request by what it does and by nothing else. -/
theorem MailTask.run_remaining (t : MailTask) (s : Served) :
    (t.remaining C R).run s =
      ((t.advance C R s).1.remaining C R).run (t.advance C R s).2 := by
  rw [remaining_eq, EStateM.run_bind, advance]
  cases (t.next C R).run s <;> rfl

/-- The sections that leave the mail alone, by where they lead. -/
inductive MailTask.Leads (C : Crypto) (R : Readers) (t : MailTask) (s : Served) : MailPc → Prop
  | answered (answer : Except Error Answer) : t.Leads C R s (.done answer)
  | checked {path : String} {envelope : Envelope} {body : List UInt8} (hpc : t.pc = .start)
      (hcall : t.call = .post path body) (haddressed : addressed C R path body = .ok envelope)
      (hquota : s.store.pendingFrom envelope.sender envelope.recipient < quotaPerSender) :
      t.Leads C R s (.checkRecipient envelope body)
  | passed {envelope : Envelope} {body : List UInt8} (hpc : t.pc = .checkRecipient envelope body)
      (hquota : s.store.pendingFor envelope.recipient < quotaPerRecipient) :
      t.Leads C R s (.put envelope body)

/-- All that a section can do. -/
inductive MailTask.Section (C : Crypto) (R : Readers) (t : MailTask) (s : Served) :
    MailPc → Served → Prop
  | quiet {pc : MailPc} (leads : t.Leads C R s pc) : t.Section C R s pc s
  | returned {me : Key} {bytes : List UInt8} :
      t.Section C R s (.done (.ok (.mail bytes)))
        { s with returned := s.returned ++ (s.store.mailFor R me).map (me, ·) }
  | inserted {envelope : Envelope} {body : List UInt8} (hpc : t.pc = .put envelope body)
      (hio : t.io 2 = none) :
      t.Section C R s (.done (.ok (.status 202)))
        { s with store := s.store.inserted (mailRow t.now envelope body) }
  | removed {headers : Headers} {body : List UInt8} {me : Key} {ids : List Int}
      (hpc : t.pc = .start) (hcall : t.call = .delete headers body)
      (hme : authenticate C R t.now headers = .ok me) (hids : R.ids body = .ok ids) :
      t.Section C R s (.done (.ok (.status 204))) { s with store := s.store.deleted me ids }
  | swept (hpc : t.pc = .start) (hcall : t.call = .sweep) :
      t.Section C R s (.done (.ok .swept)) { s with store := s.store.swept t.now }

@[simp] theorem wp_statement {ok : PUnit → MailStore → Prop} {err : Error → MailStore → Prop}
    {outcome : Option String} {s : MailStore} :
    wp (statement outcome) ok err s ↔
      (outcome = none → ok .unit s) ∧ (outcome ≠ none → err .internal s) := by
  cases outcome <;> simp [statement]

theorem MailTask.wp_next (t : MailTask) (s : Served) :
    wp (t.next C R) (t.Section C R s) (fun err => t.Section C R s (.done (.error err))) s := by
  obtain ⟨call, io, now, pc⟩ := t
  have hfails : ∀ err, Section C R ⟨call, io, now, pc⟩ s (.done (.error err)) s :=
    fun err => .quiet (.answered _)
  cases pc with
  | start =>
    cases call with
    | post path body =>
      simp only [next, onMail, checkSender, wp_bind, wp_lift, wp_zoom, wp_statement, wp_get,
        wp_pure, ensure_eq_ok]
      exact ⟨fun envelope haddressed => ⟨fun _ =>
        ⟨fun _ hquota => .quiet (.checked rfl rfl haddressed hquota), fun err _ => hfails err⟩,
        fun _ => hfails _⟩, fun err _ => hfails err⟩
    | get headers =>
      simp only [next, sequential, serveMail, onMail, getMail, wp_bind, wp_lift, wp_zoom,
        wp_statement, wp_get, wp_modify, wp_pure]
      exact ⟨fun _ _ => ⟨fun _ _ => ⟨fun _ => .returned, fun _ => hfails _⟩,
        fun err _ => hfails err⟩, fun err _ => hfails err⟩
    | delete headers body =>
      simp only [next, sequential, onMail, deleteMail, wp_bind, wp_lift, wp_zoom, wp_statement,
        wp_modify, wp_pure, readBody_eq_ok]
      exact ⟨fun me hme => ⟨fun ids hids => ⟨fun _ => .removed rfl rfl hme hids,
        fun _ => hfails _⟩, fun err _ => hfails err⟩, fun err _ => hfails err⟩
    | sweep =>
      simp only [next, sequential, onMail, Hub.sweep, wp_bind, wp_zoom, wp_statement, wp_modify,
        wp_pure]
      exact ⟨fun _ => .swept rfl rfl, fun _ => hfails _⟩
  | checkRecipient envelope body =>
    simp only [next, onMail, Hub.checkRecipient, wp_bind, wp_lift, wp_zoom, wp_statement, wp_get,
      wp_pure, ensure_eq_ok]
    exact ⟨fun _ => ⟨fun _ hquota => .quiet (.passed rfl hquota), fun err _ => hfails err⟩,
      fun _ => hfails _⟩
  | put envelope body =>
    simp only [next, onMail, putMail, wp_bind, wp_zoom, wp_statement, wp_modify, wp_pure]
    exact ⟨fun hio => .inserted rfl hio, fun _ => hfails _⟩
  | done answer => exact .quiet (.answered answer)

variable (C R) in
theorem MailTask.section_advance (t : MailTask) (s : Served) :
    t.Section C R s (t.advance C R s).1.pc (t.advance C R s).2 := by
  have h : wp (t.next C R) _ _ s := t.wp_next s
  unfold wp at h
  unfold advance
  cases hrun : (t.next C R).run s <;> simpa [hrun] using h

theorem addressed_eq_ok {path : String} {body : List UInt8} {e : Envelope} :
    addressed C R path body = .ok e ↔
      body.length ≤ maxEnvelope ∧ parseEndpoint R path = .ok e.recipient ∧
        R.envelope body = .ok e ∧ e.verifySignature C = .ok () := by
  simp only [addressed, bind_eq_ok, ensure_eq_ok, readBody_eq_ok, pure, Except.pure,
    Except.ok.injEq]
  constructor
  · rintro ⟨-, hlen, recipient, hpath, e', hread, -, hrecipient, u, hsig, rfl⟩
    refine ⟨hlen, by rw [hpath, hrecipient], hread, ?_⟩
    cases hv : e'.verifySignature C with
    | ok u => rfl
    | error err => simp [hv, Except.mapError] at hsig
  · rintro ⟨hlen, hpath, hread, hsig⟩
    exact ⟨(), hlen, _, hpath, e, hread, (), rfl, (), by rw [hsig]; rfl, rfl⟩

theorem MailTask.Section.read {t : MailTask} {s s' : Served} {pc : MailPc}
    (h : t.Section C R s pc s') (ht : t.pc.Read R) : pc.Read R := by
  cases h with
  | quiet leads =>
    cases leads with
    | answered answer => trivial
    | checked hpc hcall haddressed hquota => exact (addressed_eq_ok.mp haddressed).2.2.1
    | passed hpc hquota =>
      rw [hpc] at ht
      exact ht
  | _ => trivial

theorem run_onMail {m : MailAct α} {a : α} {store : MailStore} {s : Served}
    (h : m.run s.store = .ok a store) : (onMail m).run s = .ok a { s with store := store } := by
  simp only [EStateM.run] at h
  simp only [onMail, zoom, EStateM.run, h]

theorem run_checkSender {io : Sqlite} {envelope : Envelope} {s : MailStore} (hio : io 0 = none)
    (hquota : s.pendingFrom envelope.sender envelope.recipient < quotaPerSender) :
    (checkSender io envelope).run s = .ok .unit s := by
  simp [checkSender, statement, hio, attempt, ensure, hquota, lift]

theorem run_checkRecipient {io : Sqlite} {envelope : Envelope} {s : MailStore} (hio : io 1 = none)
    (hquota : s.pendingFor envelope.recipient < quotaPerRecipient) :
    (checkRecipient io envelope).run s = .ok .unit s := by
  simp [checkRecipient, statement, hio, attempt, ensure, hquota, lift]

theorem MailTask.advance_post {t : MailTask} {path : String} {envelope : Envelope}
    {body : List UInt8} {s : Served} (hpc : t.pc = .start) (hcall : t.call = .post path body)
    (haddressed : addressed C R path body = .ok envelope) (hio : t.io 0 = none)
    (hquota : s.store.pendingFrom envelope.sender envelope.recipient < quotaPerSender) :
    t.advance C R s = ({ t with pc := .checkRecipient envelope body }, s) := by
  simp only [advance, next, hpc, hcall, haddressed, lift, pure_bind, EStateM.run_bind,
    run_onMail (run_checkSender hio hquota), EStateM.run_pure]

theorem MailTask.advance_checkRecipient {t : MailTask} {envelope : Envelope} {body : List UInt8}
    {s : Served} (hpc : t.pc = .checkRecipient envelope body) (hio : t.io 1 = none)
    (hquota : s.store.pendingFor envelope.recipient < quotaPerRecipient) :
    t.advance C R s = ({ t with pc := .put envelope body }, s) := by
  simp only [advance, next, hpc, EStateM.run_bind, run_onMail (run_checkRecipient hio hquota),
    EStateM.run_pure]

theorem MailTask.advance_put {t : MailTask} {envelope : Envelope} {body : List UInt8} {s : Served}
    (hpc : t.pc = .put envelope body) (hio : t.io 2 = none) :
    t.advance C R s = ({ t with pc := .done (.ok (.status 202)) },
      { s with store := s.store.inserted (mailRow t.now envelope body) }) := by
  simp only [advance, next, hpc, putMail, statement, hio, Option.map_none, attempt, pure_bind]
  rfl

theorem MailTask.advance_delete {t : MailTask} {headers : Headers} {body : List UInt8} {me : Key}
    {ids : List Int} {s : Served} (hpc : t.pc = .start) (hcall : t.call = .delete headers body)
    (hme : authenticate C R t.now headers = .ok me) (hids : R.ids body = .ok ids)
    (hio : t.io 0 = none) :
    t.advance C R s = ({ t with pc := .done (.ok (.status 204)) },
      { s with store := s.store.deleted me ids }) := by
  simp only [advance, next, sequential, hpc, hcall, deleteMail, hme, readBody, hids, statement,
    hio, Option.map_none, Except.mapError, attempt, lift, pure_bind]
  rfl

/-- The envelope that a task puts next, if it does, fits into the mail. -/
def MailTasks.Fit (Fits : MailStore → Envelope → Prop) (p : MailTasks) (i : Nat) : Prop :=
  ∀ t ∈ p.tasks[i]?, ∀ envelope body, t.pc = .put envelope body → t.io 2 = none →
    Fits p.shared.store envelope

section

variable {Good : MailStore → Prop} {Fits : MailStore → Envelope → Prop}

theorem MailTask.good_advance_iff
    (hdeleted : ∀ s recipient ids, Good s → Good (s.deleted recipient ids))
    (hswept : ∀ s now, Good s → Good (s.swept now))
    (hinserted : ∀ s now envelope body, R.envelope body = .ok envelope → Good s →
      (Good (s.inserted (mailRow now envelope body)) ↔ Fits s envelope)) {t : MailTask}
    {s : Served} (ht : t.pc.Read R) (hs : Good s.store) :
    Good (t.advance C R s).2.store ↔
      ∀ envelope body, t.pc = .put envelope body → t.io 2 = none → Fits s.store envelope := by
  by_cases hput : ∃ envelope body, t.pc = .put envelope body ∧ t.io 2 = none
  · obtain ⟨envelope, body, hpc, hio⟩ := hput
    rw [hpc] at ht
    rw [advance_put hpc hio, hinserted _ _ _ _ ht hs]
    constructor
    · intro hfits envelope' body' hpc' _
      obtain ⟨rfl, rfl⟩ := MailPc.put.inj (hpc.symm.trans hpc')
      exact hfits
    · intro h
      exact h envelope body hpc hio
  · -- no other section makes the mail grow
    refine iff_of_true ?_ fun envelope body hpc hio => absurd ⟨envelope, body, hpc, hio⟩ hput
    have hsection := t.section_advance C R s
    generalize (t.advance C R s).1.pc = pc, (t.advance C R s).2 = s' at hsection
    cases hsection with
    | quiet leads => exact hs
    | returned => exact hs
    | inserted hpc hio => exact absurd ⟨_, _, hpc, hio⟩ hput
    | removed hpc hcall hme hids => exact hdeleted _ _ _ hs
    | swept hpc hcall => exact hswept _ _ hs

omit Good Fits in
/-- What the requests have in their hands is what they were sent. -/
theorem MailTasks.read_step {p : MailTasks}
    (h : p.Holds (fun _ => True) fun t _ => t.pc.Read R) (i : Nat) :
    (p.step (MailTask.advance C R) i).Holds (fun _ => True) fun t _ => t.pc.Read R := by
  refine Pool.Holds.step (P := fun _ _ _ => True) (fun t s _ _ ht => ?_)
    (fun _ _ _ _ hu => hu) h fun _ _ _ _ _ => trivial
  exact ⟨trivial, (t.section_advance C R s).read ht⟩

omit Good Fits in
theorem MailTasks.read_start {tasks : List MailTask} (htasks : ∀ t ∈ tasks, t.pc = .start) :
    (MailTasks.start tasks).Holds (fun _ => True) fun t _ => t.pc.Read R := by
  refine ⟨trivial, fun i t ht => ?_⟩
  rw [htasks t (List.mem_of_getElem? ht)]
  trivial

/-- Only puts can break a bound on the mail: it holds in every state of a run exactly when no
envelope is put that does not fit. -/
theorem MailTasks.throughout_iff (hempty : Good .empty)
    (hdeleted : ∀ s recipient ids, Good s → Good (s.deleted recipient ids))
    (hswept : ∀ s now, Good s → Good (s.swept now))
    (hinserted : ∀ s now envelope body, R.envelope body = .ok envelope → Good s →
      (Good (s.inserted (mailRow now envelope body)) ↔ Fits s envelope)) {tasks : List MailTask}
    (htasks : ∀ t ∈ tasks, t.pc = .start) (schedule : List Nat) :
    (∀ n, Good (run (Pool.step (MailTask.advance C R)) (MailTasks.start tasks)
      (schedule.take n)).shared.store) ↔
    Along (Pool.step (MailTask.advance C R)) (MailTasks.Fit Fits) (MailTasks.start tasks)
      schedule := by
  refine Along.iff_throughout (I := fun p : MailTasks => p.Holds (fun _ => True)
    fun t _ => t.pc.Read R) (G := fun p : MailTasks => Good p.shared.store)
    (fun p i hp => MailTasks.read_step hp i) ?_ (MailTasks.read_start htasks) hempty
  intro p i hp hgood
  cases ht : p.tasks[i]? with
  | none => simpa [MailTasks.Fit, ht, Pool.step_of_none ht] using hgood
  | some t =>
    rw [Pool.step_of_some ht]
    simpa [MailTasks.Fit, ht] using
      MailTask.good_advance_iff hdeleted hswept hinserted (hp.tasks i t ht) hgood

end

theorem MailTask.Section.left_le {t : MailTask} {s s' : Served} {pc : MailPc}
    (h : t.Section C R s pc s') : pc.left ≤ t.pc.left - 1 := by
  cases h with
  | quiet leads => cases leads <;> simp [MailPc.left, *]
  | _ => exact Nat.zero_le _

/-- Run on its own, a request is through after three sections, and has done what its function
does in one go. -/
theorem MailTask.alone_eq_sequential (t : MailTask) (hpc : t.pc = .start) (s : Served) :
    (t.sequential C R).run s =
      ((alone (advance C R) 3 t s).1.remaining C R).run (alone (advance C R) 3 t s).2 ∧
    (alone (advance C R) 3 t s).1.pc.left = 0 := by
  refine ⟨?_, alone_finishes (fun t : MailTask => t.pc.left)
    (fun t s => (t.section_advance C R s).left_le)
    (by rw [hpc, MailPc.left]) s⟩
  rw [← alone_meaning (fun t s => (MailTask.remaining C R t).run s) run_remaining, remaining, hpc]

theorem MailTask.after_sequential (t : MailTask) (hpc : t.pc = .start) (s : Served) :
    after (t.sequential C R) s = (alone (advance C R) 3 t s).2 := by
  obtain ⟨hrun, hleft⟩ := t.alone_eq_sequential (C := C) (R := R) hpc s
  rw [after, hrun, remaining]
  cases hdone : (alone (advance C R) 3 t s).1.pc with
  | done answer => cases answer <;> rfl
  | _ => simp [hdone, MailPc.left] at hleft

namespace Sample

open Core.Sample

def hexDigit (b : UInt8) : Option UInt8 :=
  if 48 ≤ b ∧ b ≤ 57 then some (b - 48)
  else if 97 ≤ b ∧ b ≤ 102 then some (b - 87)
  else if 65 ≤ b ∧ b ≤ 70 then some (b - 55)
  else none

def readHex : List UInt8 → Option (List UInt8)
  | [] => some []
  | [_] => none
  | high :: low :: rest =>
    match hexDigit high, hexDigit low, readHex rest with
    | some h, some l, some bytes => some ((h * 16 + l) :: bytes)
    | _, _, _ => none

/-- Lists of ids below 64, each of which takes one byte. -/
def readIds : List UInt8 → Except String (List Int)
  | [] => .error "Hit the end of buffer, expected more data"
  | _ :: ids => .ok (ids.map fun b => (b.toNat / 2 : Nat))

/-- Readers that know the encodings of these envelopes and no others. -/
def readers (envelopes : List Envelope) : Readers where
  envelope body :=
    match envelopes.find? fun e => e.toStdvec = body with
    | some envelope => .ok envelope
    | none => .error "Hit the end of buffer, expected more data"
  ids := readIds
  hex := readHex

theorem readers_envelope {envelopes : List Envelope} {e : Envelope} (h : e ∈ envelopes) :
    (readers envelopes).envelope e.toStdvec = .ok e := by
  have hsome : (envelopes.find? fun x => x.toStdvec = e.toStdvec).isSome = true :=
    List.find?_isSome.mpr ⟨e, h, decide_eq_true rfl⟩
  obtain ⟨found, hfound⟩ := Option.isSome_iff_exists.mp hsome
  have hsame := List.find?_some hfound
  rw [decide_eq_true_eq] at hsame
  simp only [readers, hfound, Envelope.toStdvec_injective hsame]

def unsigned (sender recipient : UInt8) (ciphertext : List UInt8) : Envelope where
  sender := key sender
  recipient := key recipient
  ephemeral := Bytes.replicate 32 7
  prekey := Bytes.replicate 32 8
  nonce := Bytes.replicate 24 9
  ciphertext := ciphertext
  signature := []

/-- An envelope as its sender would seal it. -/
def sealed (sender recipient : UInt8) (ciphertext : List UInt8) : Envelope :=
  let e := unsigned sender recipient ciphertext
  { e with signature := (crypto.sign sender e.transcript).toList }

theorem sealed_verifies (sender recipient : UInt8) (ciphertext : List UInt8) :
    (sealed sender recipient ciphertext).verifySignature crypto = .ok () := by
  have hverifies : crypto.verifyStrict (sealed sender recipient ciphertext).sender
      (sealed sender recipient ciphertext).transcript
      (sealed sender recipient ciphertext).signature = true :=
    decide_eq_true rfl
  have hlength : (sealed sender recipient ciphertext).signature.length = 64 :=
    Bytes.length_eq _
  simp only [Envelope.verifySignature, ensure, hlength, hverifies, if_true]
  rfl

/-- The headers of a request that the identity with this seed signs at a time. -/
def signedBy (seed : UInt8) (ts : UInt64) : Headers where
  endpoint := some (hex (key seed).toList)
  timestamp := some (toString ts.toNat)
  signature := some (hex (crypto.sign seed (MailboxAuth.transcript (key seed) ts)).toList)

def posted (now : UInt64) (e : Envelope) : MailTask :=
  ⟨.post (hex e.recipient.toList) e.toStdvec, .ok, now, .start⟩

theorem addressed_sealed {envelopes : List Envelope} {sender recipient : UInt8}
    {ciphertext : List UInt8} (hmem : sealed sender recipient ciphertext ∈ envelopes)
    (hpath : parseEndpoint (readers envelopes) (hex (key recipient).toList) = .ok (key recipient))
    (hlength : (sealed sender recipient ciphertext).toStdvec.length ≤ maxEnvelope) :
    addressed crypto (readers envelopes) (hex (key recipient).toList)
      (sealed sender recipient ciphertext).toStdvec = .ok (sealed sender recipient ciphertext) :=
  addressed_eq_ok.mpr ⟨hlength, hpath, readers_envelope hmem, sealed_verifies _ _ _⟩

def fetching (now : UInt64) (seed : UInt8) : MailTask :=
  ⟨.get (signedBy seed now), .ok, now, .start⟩

/-- A request to delete what has the ids below 64 in this list. -/
def deleting (now : UInt64) (seed : UInt8) (ids : List UInt8) : MailTask :=
  ⟨.delete (signedBy seed now) (UInt8.ofNat ids.length :: ids.map (2 * ·)), .ok, now, .start⟩

end Sample

end Wicara.Hub
