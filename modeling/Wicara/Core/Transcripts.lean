import Wicara.Core.Prekey
import Wicara.Core.RoomCommitment

namespace Wicara.Core

open Lib.Encoding

/-- What is signed with an identity key. -/
inductive Transcript
  | prekey (owner : Key) (key : Bytes 32) (createdMs : UInt64)
  | envelope (sender recipient : Key) (ephemeral key : Bytes 32) (nonce : Bytes 24)
      (ciphertext : List UInt8)
  | mailboxAuth (endpoint : Key) (tsMs : UInt64)
  | roomEntry (prev : Bytes 32) (author : Key) (tsMs : UInt64) (op : RoomOp)
  deriving DecidableEq

def Envelope.content (e : Envelope) : Transcript :=
  .envelope e.sender e.recipient e.ephemeral e.prekey e.nonce e.ciphertext

def RoomEntry.content (e : RoomEntry) : Transcript := .roomEntry e.prev e.author e.tsMs e.op

namespace Transcript

def bytes : Transcript → List UInt8
  | .prekey owner key createdMs => prekeyTranscript owner key createdMs
  | .envelope sender recipient ephemeral key nonce ciphertext =>
    Envelope.transcript ⟨sender, recipient, ephemeral, key, nonce, ciphertext, []⟩
  | .mailboxAuth endpoint tsMs => MailboxAuth.transcript endpoint tsMs
  | .roomEntry prev author tsMs op => Core.transcript prev author tsMs op

/-- The first letter in which the contexts differ: they all begin with `"wicara "`. -/
def letter : Transcript → UInt8
  | .prekey .. => 112
  | .envelope .. => 101
  | .mailboxAuth .. => 109
  | .roomEntry .. => 114

theorem getElem?_bytes (t : Transcript) : t.bytes[7]? = some t.letter := by
  cases t <;> rfl

end Transcript

theorem prekeyTranscript_inj {owner owner' : Key} {key key' : Bytes 32} {ts ts' : UInt64}
    (h : prekeyTranscript owner key ts = prekeyTranscript owner' key' ts') :
    owner = owner' ∧ key = key' ∧ ts = ts' := by
  obtain ⟨rfl, hkey⟩ := Bytes.toList_selfDelimiting (List.append_cancel_left h)
  obtain ⟨rfl, hts⟩ := Bytes.toList_selfDelimiting hkey
  exact ⟨rfl, rfl, tsMs_selfDelimiting.injective hts⟩

/-- The ciphertext is whatever is left over, and nothing follows it. -/
theorem Envelope.transcript_inj {e e' : Envelope} (h : e.transcript = e'.transcript) :
    e.content = e'.content := by
  obtain ⟨s, r, k, p, n, c, g⟩ := e
  obtain ⟨s', r', k', p', n', c', g'⟩ := e'
  have hfields := List.append_cancel_left h
  simp only [Envelope.binding, List.append_assoc] at hfields
  obtain ⟨rfl, hr⟩ := Bytes.toList_selfDelimiting hfields
  obtain ⟨rfl, hk⟩ := Bytes.toList_selfDelimiting hr
  obtain ⟨rfl, hp⟩ := Bytes.toList_selfDelimiting hk
  obtain ⟨rfl, hn⟩ := Bytes.toList_selfDelimiting hp
  obtain ⟨rfl, rfl⟩ := Bytes.toList_selfDelimiting hn
  rfl

theorem MailboxAuth.transcript_inj {endpoint endpoint' : Key} {ts ts' : UInt64}
    (h : MailboxAuth.transcript endpoint ts = MailboxAuth.transcript endpoint' ts') :
    endpoint = endpoint' ∧ ts = ts' := by
  obtain ⟨rfl, hts⟩ := Bytes.toList_selfDelimiting (List.append_cancel_left h)
  exact ⟨rfl, tsMs_selfDelimiting.injective hts⟩

theorem RoomEntry.transcript_inj {e e' : RoomEntry} (h : e.transcript = e'.transcript) :
    e.content = e'.content := by
  obtain ⟨prev, author, ts, op, sig⟩ := e
  obtain ⟨prev', author', ts', op', sig'⟩ := e'
  obtain ⟨rfl, hauthor⟩ := Bytes.toList_selfDelimiting (List.append_cancel_left h)
  obtain ⟨rfl, hts⟩ := Bytes.toList_selfDelimiting hauthor
  obtain ⟨rfl, hop⟩ := tsMs_selfDelimiting hts
  obtain rfl := RoomOp.toStdvec_selfDelimiting.injective hop
  rfl

theorem Transcript.bytes_injective : Function.Injective Transcript.bytes := by
  intro t t' h
  have hletter : t.letter = t'.letter := by
    rw [← Option.some_inj, ← getElem?_bytes, ← getElem?_bytes, h]
  cases t <;> cases t' <;> simp only [letter] at hletter <;>
    try exact absurd hletter (by decide)
  case prekey.prekey =>
    obtain ⟨rfl, rfl, rfl⟩ := prekeyTranscript_inj h
    rfl
  case envelope.envelope => exact Envelope.transcript_inj h
  case mailboxAuth.mailboxAuth =>
    obtain ⟨rfl, rfl⟩ := MailboxAuth.transcript_inj h
    rfl
  case roomEntry.roomEntry prev author ts op prev' author' ts' op' =>
    have hentry : (⟨prev, author, ts, op, []⟩ : RoomEntry).transcript =
        (⟨prev', author', ts', op', []⟩ : RoomEntry).transcript := h
    exact RoomEntry.transcript_inj hentry

variable {C : Crypto}

theorem Envelope.verifySignature_eq_ok {e : Envelope} (h : e.verifySignature C = .ok ()) :
    C.verifyStrict e.sender e.content.bytes e.signature = true := by
  simp only [verifySignature, ensure_bind_eq_ok, ensure_eq_ok] at h
  exact h.2.2

theorem MailboxAuth.verify_eq_ok {endpoint : Key} {ts now : UInt64} {signature : List UInt8}
    (h : MailboxAuth.verify C endpoint ts signature now = .ok ()) :
    C.verifyStrict endpoint (Transcript.mailboxAuth endpoint ts).bytes signature = true := by
  simp only [MailboxAuth.verify, ensure_bind_eq_ok, ensure_eq_ok] at h
  exact h.2.2.2

/-- Whatever this signature is good for, the holder of the key has signed. -/
def Genuine (C : Crypto) (key : Key) (Signed : Transcript → Prop) (signature : List UInt8) : Prop :=
  ∀ message, C.verifyStrict key message signature = true → ∃ t, Signed t ∧ t.bytes = message

theorem Genuine.signed {key : Key} {Signed : Transcript → Prop} {signature : List UInt8}
    (h : Genuine C key Signed signature) {t : Transcript}
    (hverify : C.verifyStrict key t.bytes signature = true) : Signed t := by
  obtain ⟨t', hsigned, hbytes⟩ := h _ hverify
  rwa [← Transcript.bytes_injective hbytes]

/-- Idealised Ed25519: there are no other signatures. -/
def Unforged (C : Crypto) (key : Key) (Signed : Transcript → Prop) : Prop :=
  ∀ signature, Genuine C key Signed signature

/-- No two things are signed as the same bytes, so a signature that is good for the bytes of one
of them is taken by no check for anything else. -/
theorem transcripts_apart :
    Function.Injective Transcript.bytes ∧
    ∀ (C : Crypto) (key : Key) (t : Transcript) (signature : List UInt8),
      (∀ message, C.verifyStrict key message signature = true → message = t.bytes) →
      (∀ (p : SignedPrekey) (v : VerifiedPrekey C), p.signature = signature →
        p.verify C key = .ok v → t = .prekey key p.prekey p.createdMs) ∧
      (∀ e : Envelope, e.sender = key → e.signature = signature →
        e.verifySignature C = .ok () → t = e.content) ∧
      (∀ ts now, MailboxAuth.verify C key ts signature now = .ok () → t = .mailboxAuth key ts) ∧
      ∀ e : RoomEntry, e.author = key → e.signature = signature →
        e.verifySignature C = .ok () → t = e.content := by
  refine ⟨Transcript.bytes_injective, fun C key t signature honly => ?_⟩
  have hone (t' : Transcript) (h : C.verifyStrict key t'.bytes signature = true) : t = t' :=
    Transcript.bytes_injective (honly _ h).symm
  refine ⟨?_, ?_, ?_, ?_⟩
  · rintro p v rfl hverify
    exact hone (.prekey key p.prekey p.createdMs) (SignedPrekey.verify_eq_ok hverify).1
  · rintro e rfl rfl hverify
    exact hone e.content (Envelope.verifySignature_eq_ok hverify)
  · intro ts now hverify
    exact hone (.mailboxAuth key ts) (MailboxAuth.verify_eq_ok hverify)
  · rintro e rfl rfl hverify
    exact hone e.content (verifySignature_eq_ok.mp hverify).verifies

namespace Sample

/-- The sample scheme with a register of what was signed: nothing else verifies. -/
def notary (register : List (UInt8 × Transcript)) : Crypto := { crypto with
  verifyStrict := fun who message signature =>
    crypto.verifyStrict who message signature &&
      register.any fun r => key r.1 = who ∧ r.2.bytes = message }

theorem notary_unforged (register : List (UInt8 × Transcript)) (who : Key) :
    Unforged (notary register) who fun t => ∃ seed, (seed, t) ∈ register ∧ key seed = who := by
  intro signature message h
  simp only [notary, Bool.and_eq_true, List.any_eq_true, decide_eq_true_eq] at h
  obtain ⟨-, ⟨seed, t⟩, hmem, hkey, hbytes⟩ := h
  exact ⟨t, ⟨seed, hmem, hkey⟩, hbytes⟩

end Sample

open Sample in
/-- 1 asks for its mail; no envelope can bear that signature, whatever it says. -/
theorem transcripts_apart_asking :
    let asking : Transcript := .mailboxAuth (key 1) 7
    let C := notary [(1, asking)]
    let signature := (crypto.sign (1 : UInt8) asking.bytes).toList
    MailboxAuth.verify C (key 1) 7 signature 7 = .ok () ∧
    ∀ e : Envelope, e.sender = key 1 → e.signature = signature → e.verifySignature C ≠ .ok () := by
  intro asking C signature
  have honly : ∀ message, C.verifyStrict (key 1) message signature = true →
      message = asking.bytes := by
    intro message h
    simp only [C, notary, Bool.and_eq_true, List.any_cons, List.any_nil, Bool.or_false,
      decide_eq_true_eq] at h
    exact h.2.2.symm
  refine ⟨by decide +kernel, fun e hsender hsig h => ?_⟩
  exact Transcript.noConfusion
    ((transcripts_apart.2 C (key 1) asking signature honly).2.1 e hsender hsig h)

end Wicara.Core
