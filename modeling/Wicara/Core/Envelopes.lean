import Wicara.Core.Transcripts

namespace Wicara.Core

open Lib.Encoding

/-- What is relied on of the primitives that mail is sealed with.  That the contributory flag
depends on the shared secret only is in the type of `wasContributory`. -/
structure Sealer.Lawful (C : Crypto) (S : Sealer) : Prop where
  diffieHellman_comm : ∀ a b, S.diffieHellman a (S.publicKey b) = S.diffieHellman b (S.publicKey a)
  decrypt_iff : ∀ key nonce ciphertext aad plaintext,
    S.decrypt key nonce ciphertext aad = some plaintext ↔
      S.encrypt key nonce plaintext aad = some ciphertext
  fromBytes : ∀ identity, C.fromBytes (C.verifyingKey identity) = true
  verifies : ∀ identity message,
    C.verifyStrict (C.verifyingKey identity) message (C.sign identity message).toList = true

/-- A call of `seal` that went through. -/
structure SealRun (C : Crypto) (S : Sealer) where
  identity : C.SigningKey
  recipient : VerifiedPrekey C
  draw : Draw S
  plaintext : List UInt8
  envelope : Envelope
  ran : Envelope.sealWith C S identity recipient draw plaintext = .ok envelope

variable {C : Crypto} {S : Sealer}

namespace Envelope

/-- `open` succeeds on what it has checked. -/
theorem openWith_eq_ok {S : Sealing} {e : Envelope} {secret : S.StaticSecret} {me sender : Key}
    {plaintext : List UInt8} :
    e.openWith C S secret me = .ok (plaintext, sender) ↔
      e.recipient = me ∧ e.prekey = S.publicKey secret ∧ e.verifySignature C = .ok () ∧
      S.wasContributory (S.diffieHellman secret e.ephemeral) = true ∧
      S.decrypt (S.deriveKey ((S.diffieHellman secret e.ephemeral).toList ++ e.binding)) e.nonce
        e.ciphertext e.binding = some plaintext ∧ e.sender = sender := by
  rw [openWith, ensure_bind_eq_ok, ensure_bind_eq_ok, bind_eq_ok]
  refine and_congr_right fun _ => and_congr_right fun _ => ?_
  simp only [ensure_bind_eq_ok]
  constructor
  · rintro ⟨⟨⟩, hverified, hcontributory, h⟩
    refine ⟨hverified, hcontributory, ?_⟩
    split at h
    case h_1 opened hdecrypt =>
      cases h
      exact ⟨hdecrypt, rfl⟩
    case h_2 => cases h
  · rintro ⟨hverified, hcontributory, hdecrypt, rfl⟩
    refine ⟨(), hverified, hcontributory, ?_⟩
    rw [hdecrypt]
    rfl

/-- Envelopes of one content differ in their signatures at most. -/
theorem eq_of_content {e e' : Envelope} (h : e.content = e'.content) :
    e = { e' with signature := e.signature } := by
  obtain ⟨s, r, k, p, n, c, g⟩ := e
  cases h
  rfl

end Envelope

namespace SealRun

variable (r : SealRun C S)

theorem fields : r.envelope.sender = C.verifyingKey r.identity ∧
    r.envelope.recipient = r.recipient.owner ∧
    r.envelope.ephemeral = S.publicKey r.draw.ephemeral ∧
    r.envelope.prekey = r.recipient.key := by
  have h := (Envelope.sealUnsigned_eq_ok.mp (Envelope.sealWith_eq_ok.mp r.ran).1).2.2.2
  simp only [Envelope.mk.injEq] at h
  exact ⟨h.1, h.2.1, h.2.2.1, h.2.2.2.1⟩

theorem contributory :
    S.wasContributory (S.diffieHellman r.draw.ephemeral r.recipient.key) = true :=
  (Envelope.sealUnsigned_eq_ok.mp (Envelope.sealWith_eq_ok.mp r.ran).1).1

theorem encrypts :
    S.encrypt (S.deriveKey ((S.diffieHellman r.draw.ephemeral r.recipient.key).toList ++
      r.envelope.binding)) r.envelope.nonce r.plaintext r.envelope.binding =
        some r.envelope.ciphertext :=
  (Envelope.sealUnsigned_eq_ok.mp (Envelope.sealWith_eq_ok.mp r.ran).1).2.2.1

theorem signature :
    r.envelope.signature = (C.sign r.identity r.envelope.transcript).toList :=
  (Envelope.sealWith_eq_ok.mp r.ran).2

variable {r} {secret : S.StaticSecret}

/-- Both ends come to one secret, each from its own half. -/
theorem shared (hlaws : S.Lawful C) (hkey : r.recipient.key = S.publicKey secret) :
    S.diffieHellman secret r.envelope.ephemeral =
      S.diffieHellman r.draw.ephemeral r.recipient.key := by
  rw [r.fields.2.2.1, hkey, hlaws.diffieHellman_comm]

/-- No more of the envelope than its content goes into this. -/
theorem decrypts (hlaws : S.Lawful C) (hkey : r.recipient.key = S.publicKey secret) {e : Envelope}
    (hcontent : e.content = r.envelope.content) :
    S.decrypt (S.deriveKey ((S.diffieHellman secret e.ephemeral).toList ++ e.binding)) e.nonce
      e.ciphertext e.binding = some r.plaintext := by
  rw [Envelope.eq_of_content hcontent, hlaws.decrypt_iff]
  have h := r.encrypts
  rwa [← shared hlaws hkey] at h

theorem verifies (hlaws : S.Lawful C) : r.envelope.verifySignature C = .ok () := by
  simp only [Envelope.verifySignature, ensure_bind_eq_ok, ensure_eq_ok]
  rw [r.signature, r.fields.1]
  exact ⟨Bytes.length_eq _, hlaws.fromBytes _, hlaws.verifies _ _⟩

theorem opens (hlaws : S.Lawful C) (hkey : r.recipient.key = S.publicKey secret) :
    r.envelope.openWith C S.toSealing secret r.recipient.owner =
      .ok (r.plaintext, C.verifyingKey r.identity) := by
  rw [Envelope.openWith_eq_ok]
  refine ⟨r.fields.2.1, r.fields.2.2.2.trans hkey, verifies hlaws, ?_, decrypts hlaws hkey rfl,
    r.fields.1⟩
  rw [shared hlaws hkey]
  exact r.contributory

end SealRun

/-- What the holder of `key` has signed: envelopes in calls of `seal`, and things of other kinds. -/
def SignedBy (runs : Set (SealRun C S)) (others : Set Transcript) (key : Key) (t : Transcript) :
    Prop :=
  (∃ r ∈ runs, C.verifyingKey r.identity = key ∧ r.envelope.content = t) ∨
    t ∈ others ∧ ∀ e : Envelope, e.content ≠ t

/-- `open` gives back what `seal` was given, and lets nothing else through: whatever is opened was
sealed by its sender, to this recipient and this prekey. -/
theorem open_inverts_seal (hlaws : S.Lawful C) :
    (∀ (identity : C.SigningKey) (secret : S.StaticSecret) (recipient : VerifiedPrekey C)
      (draw : Draw S) (plaintext : List UInt8) (e : Envelope),
      recipient.key = S.publicKey secret →
      Envelope.sealWith C S identity recipient draw plaintext = .ok e →
      e.openWith C S.toSealing secret recipient.owner = .ok (plaintext, C.verifyingKey identity)) ∧
    ∀ (runs : Set (SealRun C S)) (others : Set Transcript) (secret : S.StaticSecret)
      (me sender : Key) (e : Envelope) (plaintext : List UInt8),
      Genuine C e.sender (SignedBy runs others e.sender) e.signature →
      e.openWith C S.toSealing secret me = .ok (plaintext, sender) →
      ∃ r ∈ runs, C.verifyingKey r.identity = sender ∧ r.recipient.owner = me ∧
        r.recipient.key = S.publicKey secret ∧ r.plaintext = plaintext ∧
        r.envelope.content = e.content := by
  constructor
  · intro identity secret recipient draw plaintext e hkey hseal
    exact SealRun.opens (r := ⟨identity, recipient, draw, plaintext, e, hseal⟩) hlaws hkey
  · intro runs others secret me sender e plaintext hgenuine hopen
    obtain ⟨rfl, hprekey, hverified, -, hdecrypt, rfl⟩ := Envelope.openWith_eq_ok.mp hopen
    obtain ⟨r, hr, hidentity, hcontent⟩ | ⟨-, hother⟩ :=
      hgenuine.signed (Envelope.verifySignature_eq_ok hverified)
    · have hfields := hcontent
      simp only [Envelope.content, Transcript.envelope.injEq] at hfields
      obtain ⟨-, hrecipient, -, hsealed, -, -⟩ := hfields
      have hkey : r.recipient.key = S.publicKey secret :=
        r.fields.2.2.2.symm.trans (hsealed.trans hprekey)
      have hplaintext := (SealRun.decrypts hlaws hkey hcontent.symm).symm.trans hdecrypt
      exact ⟨r, hr, hidentity, r.fields.2.1.symm.trans hrecipient, hkey,
        Option.some.inj hplaintext, hcontent⟩
    · exact absurd rfl (hother e)

namespace Sample

/-- What the checksum makes of a message and of what it goes with. -/
def tag (key : Bytes 32) (nonce : Bytes 24) (aad plaintext : List UInt8) : List UInt8 :=
  (Bytes.ofNat 16 (checksum (key.toList ++ nonce.toList ++ aad ++ plaintext))).toList

/-- Sealing that runs, and that abides by the laws: it authenticates the message, but does not
hide it. -/
def box : Sealer where
  StaticSecret := UInt8
  publicKey secret := Bytes.replicate 32 secret
  diffieHellman secret ephemeral := Bytes.replicate 32 (secret * ephemeral.toList.headD 0)
  wasContributory shared := shared ≠ Bytes.replicate 32 0
  deriveKey material := Bytes.ofNat 32 (checksum material)
  decrypt key nonce ciphertext aad :=
    if tag key nonce aad (ciphertext.drop 16) ++ ciphertext.drop 16 = ciphertext then
      some (ciphertext.drop 16)
    else none
  encrypt key nonce plaintext aad := some (tag key nonce aad plaintext ++ plaintext)

def mark (p : Prop) [Decidable p] : Bytes 64 := Bytes.replicate 64 (if p then 1 else 0)

/-- A scheme in which one message has a signature that is good for nothing else. -/
def pinned (who : Key) (pin : List UInt8) : Crypto := { crypto with
  SigningKey := UInt8
  verifyingKey := fun seed => key seed
  sign := fun seed message => mark (key seed = who ∧ message = pin)
  verifyStrict := fun k message signature =>
    signature = (mark (k = who ∧ message = pin)).toList }

theorem box_lawful (who : Key) (pin : List UInt8) : box.Lawful (pinned who pin) where
  diffieHellman_comm a b := congrArg (Bytes.replicate 32) (UInt8.mul_comm a b)
  decrypt_iff key nonce ciphertext aad plaintext := by
    simp only [box, Option.ite_none_right_eq_some, Option.some.injEq]
    constructor
    · rintro ⟨htag, rfl⟩
      exact htag
    · rintro rfl
      have hlength : (tag key nonce aad plaintext).length = 16 := Bytes.length_eq _
      rw [List.drop_left' hlength]
      exact ⟨rfl, rfl⟩
  fromBytes _ := rfl
  verifies _ _ := decide_eq_true rfl

theorem box_lawful_crypto : box.Lawful crypto where
  diffieHellman_comm := (box_lawful (key 1) []).diffieHellman_comm
  decrypt_iff := (box_lawful (key 1) []).decrypt_iff
  fromBytes _ := rfl
  verifies _ _ := decide_eq_true rfl

/-- 1 writes to 2, and to the prekey of which 8 is the secret. -/
def cover : Envelope :=
  ⟨key 1, key 2, box.publicKey (6 : UInt8), box.publicKey (8 : UInt8), Bytes.replicate 24 0, [], []⟩

def note : Envelope := { cover with
  ciphertext := tag (box.deriveKey ((box.diffieHellman (6 : UInt8) cover.prekey).toList ++
    cover.binding)) cover.nonce cover.binding [104, 105] ++ [104, 105]
  signature := List.replicate 64 1 }

def noteRun : SealRun (pinned (key 1) note.transcript) box where
  identity := (1 : UInt8)
  recipient := ⟨key 2, cover.prekey, 0, List.replicate 64 0, by decide +kernel⟩
  draw := ⟨(6 : UInt8), .ok cover.nonce⟩
  plaintext := [104, 105]
  envelope := note
  ran := by decide +kernel

theorem note_genuine : Genuine (pinned (key 1) note.transcript) (key 1)
    (SignedBy {noteRun} ∅ (key 1)) note.signature := by
  intro message h
  have hmark : note.signature = (mark (key 1 = key 1 ∧ message = note.transcript)).toList :=
    of_decide_eq_true h
  by_cases hpin : message = note.transcript
  · exact ⟨note.content, .inl ⟨noteRun, rfl, rfl, rfl⟩, hpin.symm⟩
  · rw [mark, if_neg fun h => hpin h.2] at hmark
    exact absurd hmark (by decide)

end Sample

open Sample in
theorem open_inverts_seal_note :
    let C := pinned (key 1) note.transcript
    note.openWith C box.toSealing (8 : UInt8) (key 2) = .ok ([104, 105], key 1) ∧
    ∃ r ∈ ({noteRun} : Set (SealRun C box)), C.verifyingKey r.identity = key 1 ∧
      r.recipient.owner = key 2 ∧ r.recipient.key = box.publicKey (8 : UInt8) ∧
      r.plaintext = [104, 105] ∧ r.envelope.content = note.content := by
  intro C
  have h := open_inverts_seal (box_lawful (key 1) note.transcript)
  have hopen := h.1 (1 : UInt8) (8 : UInt8) noteRun.recipient noteRun.draw [104, 105] note rfl
    noteRun.ran
  exact ⟨hopen, h.2 {noteRun} ∅ (8 : UInt8) (key 2) (key 1) note [104, 105] note_genuine hopen⟩

end Wicara.Core
