import Wicara.Client.Hub
import Wicara.Core.Transcripts
import Wicara.Lib.Interleaving

namespace Wicara.Client

open Wicara.Core Lib Lib.Fallible Lib.Interleaving Lib.Run

/-- `MAX_PREKEY_REPLY` -/
def maxPrekeyReply : Nat := 4 * 1024

/-- What mail is sealed with, and `postcard`'s reader of prekeys. -/
structure Post where
  sealer : Sealer
  decodePrekey : List UInt8 → Except String SignedPrekey

variable {C : Crypto} (env : Env C) (post : Post)

namespace Hub

def prekeyFor (C : Crypto) (owner : Key) : Reply → Except String (VerifiedPrekey C)
  | none => .error "fetching prekey"
  | some res => do
    ensure (res.status ≠ 404) "that endpoint has not published a prekey"
    ensure res.isSuccess s!"hub returned {res.shown}"
    let signed ← post.decodePrekey (← limited res maxPrekeyReply)
    signed.verify C owner

/-- `Hub::mail`, once the envelope is on its way. -/
def mailed : Reply → Except String Unit
  | none => .error "mailing to the hub"
  | some res =>
    if res.isSuccess then .ok ()
    else .error s!"hub refused the message: {res.shown} {res.text}"

end Hub

/-- The state that `mail_to` works on, and the bodies that were posted under `/mail/<peer>`. -/
structure Outbox (C : Crypto) where
  app : App
  prekeys : Table Key (VerifiedPrekey C)
  posted : List (Key × Envelope)

inductive MailToPc
  | start
  | fetching
  | posting
  | returned

/-- A `mail_to` task, with what it draws and what the hub will answer it. -/
structure MailTo where
  peer : Key
  frame : Frame
  draw : Draw post.sealer
  prekeyReply : Reply
  mailReply : Reply
  pc : MailToPc

namespace MailTo

variable {post} (t : MailTo post)

def report (sent : Except String Unit) : Act PUnit :=
  match sent with
  | .ok _ => note t.peer "they were offline — left on the hub"
  | .error err => do
    match t.frame.id with
    | some id => emit (.delivery id .failed)
    | none => pure .unit
    note t.peer s!"could not leave it on the hub: {err}"
    warn s!"could not mail to {short t.peer}: {err}"

def finish (sent : Except String Unit) (o : Outbox C) : MailTo post × Outbox C :=
  ({ t with pc := .returned }, { o with app := after (t.report sent) o.app })

/-- `Hub::mail`, up to where it waits for an answer. -/
def mail (prekey : VerifiedPrekey C) (o : Outbox C) : MailTo post × Outbox C :=
  match Envelope.sealWith C post.sealer env.identity prekey t.draw t.frame.toStdvec with
  | .ok envelope =>
    ({ t with pc := .posting }, { o with posted := o.posted ++ [(t.peer, envelope)] })
  | .error err => t.finish (.error err) o

def advance (o : Outbox C) : MailTo post × Outbox C :=
  match t.pc with
  | .start =>
    if env.hub then
      match o.prekeys.get t.peer with
      | some prekey => t.mail env prekey o
      | none => ({ t with pc := .fetching }, o)
    else ({ t with pc := .returned }, o)
  | .fetching =>
    match Hub.prekeyFor post C t.peer t.prekeyReply with
    | .ok fetched => t.mail env fetched { o with prekeys := o.prekeys.upsert t.peer fetched }
    | .error err => t.finish (.error err) o
  | .posting => t.finish (Hub.mailed t.mailReply) o
  | .returned => (t, o)

end MailTo

/-- All that gets at the cache: besides `mail_to`, `/forget` drops one prekey and `/wipe` all. -/
inductive PostTask
  | mailTo (t : MailTo post)
  | forget (peer : Key)
  | wipe
  | other (f : App → App)

def PostTask.advance : PostTask post → Outbox C → PostTask post × Outbox C
  | .mailTo t, o => (.mailTo (t.advance env o).1, (t.advance env o).2)
  | .forget peer, o => (.forget peer, { o with prekeys := o.prekeys.erase peer })
  | .wipe, o => (.wipe, { o with prekeys := .empty })
  | .other f, o => (.other f, { o with app := f o.app })

theorem Hub.prekeyFor_owner {owner : Key} {reply : Reply} {v : VerifiedPrekey C}
    (h : Hub.prekeyFor post C owner reply = .ok v) : v.owner = owner := by
  cases reply with
  | none => cases h
  | some res =>
    simp only [Hub.prekeyFor, ensure_bind_eq_ok] at h
    obtain ⟨-, -, h⟩ := h
    obtain ⟨body, -, h⟩ := bind_eq_ok.mp h
    obtain ⟨signed, -, h⟩ := bind_eq_ok.mp h
    exact (SignedPrekey.verify_eq_ok h).2.1

/-- The envelope is for this peer, and sealed to a key that was checked against the peer's. -/
def SealedFor (C : Crypto) (peer : Key) (e : Envelope) : Prop :=
  e.recipient = peer ∧ ∃ v : VerifiedPrekey C, v.owner = peer ∧ v.key = e.prekey

/-- A prekey is cached under the name of its owner, and all mail was sealed to such a one. -/
structure Outbox.Kept (o : Outbox C) : Prop where
  cached : ∀ peer v, o.prekeys.get peer = some v → v.owner = peer
  posted : ∀ x ∈ o.posted, SealedFor C x.1 x.2

namespace MailTo

variable {env post} {t : MailTo post} {o : Outbox C}

theorem finish_kept {sent : Except String Unit} (h : o.Kept) : (t.finish sent o).2.Kept :=
  ⟨h.cached, h.posted⟩

theorem mail_kept {prekey : VerifiedPrekey C} (howner : prekey.owner = t.peer) (h : o.Kept) :
    (t.mail env prekey o).2.Kept := by
  unfold mail
  split
  case h_1 envelope hseal =>
    refine ⟨h.cached, fun x hx => ?_⟩
    rw [List.mem_append, List.mem_singleton] at hx
    obtain hx | rfl := hx
    · exact h.posted x hx
    · have hfields := (Envelope.sealUnsigned_eq_ok.mp (Envelope.sealWith_eq_ok.mp hseal).1).2.2.2
      simp only [Envelope.mk.injEq] at hfields
      exact ⟨hfields.2.1.trans howner, prekey, howner, hfields.2.2.2.1.symm⟩
  case h_2 => exact finish_kept h

theorem advance_kept (h : o.Kept) : (t.advance env o).2.Kept := by
  unfold advance
  split
  case h_1 =>
    split
    · split
      case h_1 prekey hcached => exact mail_kept (h.cached _ _ hcached) h
      case h_2 => exact h
    · exact h
  case h_2 =>
    split
    case h_1 fetched hfetched =>
      have howner := Hub.prekeyFor_owner post hfetched
      refine mail_kept howner ⟨fun peer v hv => ?_, h.posted⟩
      rw [Table.get_upsert] at hv
      split at hv
      case isTrue hpeer =>
        obtain rfl := Option.some.inj hv
        rw [howner, hpeer]
      case isFalse => exact h.cached peer v hv
    case h_2 => exact finish_kept h
  case h_3 => exact finish_kept h
  case h_4 => exact h

end MailTo

variable {env post}

theorem PostTask.advance_kept {t : PostTask post} {o : Outbox C} (h : o.Kept) :
    (t.advance env post o).2.Kept := by
  cases t with
  | mailTo t => exact t.advance_kept h
  | forget peer =>
    refine ⟨fun peer' v hv => h.cached peer' v ?_, h.posted⟩
    simp only [PostTask.advance, Table.get_erase] at hv
    split at hv
    · cases hv
    · exact hv
  | wipe => exact ⟨fun peer v hv => by simp [PostTask.advance] at hv, h.posted⟩
  | other f => exact ⟨h.cached, h.posted⟩

theorem PostTask.kept_run {p : Pool (Outbox C) (PostTask post)} (h : p.shared.Kept)
    (schedule : List Nat) :
    (run (Pool.step (PostTask.advance env post)) p schedule).shared.Kept := by
  induction schedule generalizing p with
  | nil => exact h
  | cons i schedule ih =>
    rw [run_cons]
    refine ih ?_
    cases hi : p.tasks[i]? with
    | none => rwa [Pool.step_of_none hi]
    | some t =>
      rw [Pool.step_of_some hi]
      exact PostTask.advance_kept h

/-- Whatever the hub answers, and however the tasks are interleaved: what is posted for a peer is
addressed to it, and sealed to a key that the peer signed as its prekey. -/
theorem hub_chooses_no_key (env : Env C) (post : Post) (app : App) (tasks : List (PostTask post))
    (schedule : List Nat) :
    ∀ x ∈ (run (Pool.step (PostTask.advance env post)) ⟨⟨app, .empty, []⟩, tasks⟩
        schedule).shared.posted,
      x.2.recipient = x.1 ∧ ∀ Signed : Transcript → Prop, Unforged C x.1 Signed →
        ∃ createdMs, Signed (.prekey x.1 x.2.prekey createdMs) := by
  intro x hx
  have hkept : (run (Pool.step (PostTask.advance env post)) ⟨⟨app, .empty, []⟩, tasks⟩
      schedule).shared.Kept :=
    PostTask.kept_run ⟨fun peer v hv => by simp at hv, fun x hx => by cases hx⟩ schedule
  obtain ⟨hrecipient, v, howner, hkey⟩ := hkept.posted x hx
  obtain ⟨createdMs, signature, hverify⟩ := v.checked
  rw [howner, hkey] at hverify
  refine ⟨hrecipient, fun Signed hunforged => ⟨createdMs, ?_⟩⟩
  exact (hunforged signature).signed (t := .prekey _ _ createdMs) hverify

namespace Sample

open Core.Sample

/-- Sealing that runs; the cipher leaves the message as it is. -/
def plainSealer : Sealer where
  StaticSecret := UInt8
  publicKey secret := Bytes.replicate 32 secret
  diffieHellman _ _ := Bytes.replicate 32 0
  wasContributory _ := true
  deriveKey _ := Bytes.replicate 32 0
  decrypt _ _ ciphertext _ := some ciphertext
  encrypt _ _ plaintext _ := some plaintext

/-- What 2 has published, and what 9 would put in its place. -/
def published (seed secret : UInt8) : SignedPrekey where
  owner := key 2
  prekey := Bytes.replicate 32 secret
  createdMs := 7
  signature := (crypto.sign seed (prekeyTranscript (key 2) (Bytes.replicate 32 secret) 7)).toList

/-- 2 has signed one prekey, and 9 another in the name of 2. -/
def signatures : List (UInt8 × Transcript) :=
  [(2, .prekey (key 2) (Bytes.replicate 32 8) 7), (9, .prekey (key 2) (Bytes.replicate 32 4) 7)]

def lettersOf (p : SignedPrekey) : List UInt8 :=
  p.owner.toList ++ (p.prekey.toList ++ p.signature)

def letterbox : Post where
  sealer := plainSealer
  decodePrekey body :=
    match [published 2 8, published 9 4].find? fun p => lettersOf p = body with
    | some p => .ok p
    | none => .error "Hit the end of buffer, expected more data"

def answer (p : SignedPrekey) : Reply := some ⟨200, "200 OK", "", none, [.ok (lettersOf p)]⟩

def writer : Env (notary signatures) where
  identity := (1 : UInt8)
  hub := true
  home := "/home"
  decodeLog _ := .error "Hit the end of buffer, expected more data"

/-- 1 writes to 2. -/
def letter (body : String) (prekeyReply : Reply) : PostTask letterbox :=
  .mailTo ⟨key 2, .chat ⟨key 1, 1, 10⟩ body none, ⟨(6 : UInt8), .ok (Bytes.replicate 24 0)⟩,
    prekeyReply, some ⟨202, "202 Accepted", "", none, []⟩, .start⟩

/-- The hub answers the first letter with the key of 9, and the second with that of 2; the third
finds it in the cache. -/
def letters : List (PostTask letterbox) :=
  [letter "a" (answer (published 9 4)), letter "b" (answer (published 2 8)), letter "c" none]

end Sample

open Core.Sample Sample in
theorem hub_chooses_no_key_for_letters :
    let o := (run (Pool.step (PostTask.advance writer letterbox))
      ⟨⟨App.start (Store.fresh (key 1)), .empty, []⟩, letters⟩ [0, 1, 0, 1, 2, 1, 2]).shared
    o.posted.map (fun x => (x.1, x.2.prekey)) =
      [(key 2, Bytes.replicate 32 8), (key 2, Bytes.replicate 32 8)] ∧
    ∀ x ∈ o.posted, x.2.recipient = x.1 ∧ ∃ createdMs, ∃ seed,
      (seed, .prekey x.1 x.2.prekey createdMs) ∈ signatures ∧ key seed = x.1 :=
  ⟨by decide +kernel, fun x hx =>
    have h := hub_chooses_no_key writer letterbox _ letters _ x hx
    ⟨h.1, h.2 _ (notary_unforged signatures x.1)⟩⟩

end Wicara.Client
