import Wicara.Core.E2e

namespace Wicara.Core

open Lib.Encoding

/-- `b"wicara prekey signature v1"` -/
def prekeyContext : List UInt8 :=
  [119, 105, 99, 97, 114, 97, 32, 112, 114, 101, 107, 101, 121, 32, 115, 105, 103, 110, 97, 116,
    117, 114, 101, 32, 118, 49]

def prekeyTranscript (owner : Key) (prekey : Bytes 32) (createdMs : UInt64) : List UInt8 :=
  prekeyContext ++ (owner.toList ++ (prekey.toList ++ leBytes 8 createdMs.toNat))

/-- An X25519 prekey, signed by the identity that owns it. -/
structure SignedPrekey where
  owner : Key
  prekey : Bytes 32
  createdMs : UInt64
  signature : List UInt8
  deriving DecidableEq

/-- The source keeps the fields private, so that there is no way to one but `verify`; here the
check is a field. -/
structure VerifiedPrekey (C : Crypto) where
  owner : Key
  key : Bytes 32
  checked : ∃ createdMs signature,
    C.verifyStrict owner (prekeyTranscript owner key createdMs) signature = true

namespace SignedPrekey

variable (C : Crypto)

def new (S : Sealing) (identity : C.SigningKey) (prekey : S.StaticSecret) (createdMs : UInt64) :
    SignedPrekey where
  owner := C.verifyingKey identity
  prekey := S.publicKey prekey
  createdMs := createdMs
  signature := (C.sign identity
    (prekeyTranscript (C.verifyingKey identity) (S.publicKey prekey) createdMs)).toList

def verify (p : SignedPrekey) (expectedOwner : Key) : Except String (VerifiedPrekey C) := do
  ensure (p.owner = expectedOwner) "the hub returned a prekey for a different endpoint"
  ensure (p.signature.length = 64) "prekey signature is not 64 bytes"
  ensure (C.fromBytes expectedOwner = true) "that endpoint id is not a valid Ed25519 key"
  if h : C.verifyStrict expectedOwner (prekeyTranscript expectedOwner p.prekey p.createdMs)
      p.signature = true then
    pure ⟨expectedOwner, p.prekey, p.createdMs, p.signature, h⟩
  else .error "prekey is not signed by that endpoint — refusing to use it"

variable {C}

/-- The owner is the one that was asked for, whatever the hub wrote there. -/
theorem verify_eq_ok {p : SignedPrekey} {expectedOwner : Key} {v : VerifiedPrekey C}
    (h : p.verify C expectedOwner = .ok v) :
    C.verifyStrict expectedOwner (prekeyTranscript expectedOwner p.prekey p.createdMs)
      p.signature = true ∧ v.owner = expectedOwner ∧ v.key = p.prekey := by
  simp only [verify, ensure_bind_eq_ok] at h
  obtain ⟨-, -, -, h⟩ := h
  split at h
  case isTrue hsigned =>
    obtain rfl := Except.ok.inj h
    exact ⟨hsigned, rfl, rfl⟩
  case isFalse => cases h

end SignedPrekey

/-- `encrypt` is given what `decrypt` is. -/
structure Sealer extends Sealing where
  encrypt : Bytes 32 → Bytes 24 → List UInt8 → List UInt8 → Option (List UInt8)

/-- What `seal` draws: a throwaway key, and a nonce where the system has one to give. -/
structure Draw (S : Sealer) where
  ephemeral : S.StaticSecret
  nonce : Except String (Bytes 24)

namespace Envelope

/-- `seal`, up to the signature. -/
def sealUnsigned (S : Sealer) (sender : Key) (recipient : VerifiedPrekey C) (draw : Draw S)
    (plaintext : List UInt8) : Except String Envelope := do
  let shared := S.diffieHellman draw.ephemeral recipient.key
  ensure (S.wasContributory shared = true) "recipient prekey is a small-order point"
  let nonce ← draw.nonce
  let envelope : Envelope :=
    ⟨sender, recipient.owner, S.publicKey draw.ephemeral, recipient.key, nonce, [], []⟩
  match S.encrypt (S.deriveKey (shared.toList ++ envelope.binding)) nonce plaintext
      envelope.binding with
  | some ciphertext => pure { envelope with ciphertext := ciphertext }
  | none => .error "sealing failed"

/-- `seal`: seals `plaintext` to a prekey that has already been verified. -/
def sealWith (C : Crypto) (S : Sealer) (identity : C.SigningKey) (recipient : VerifiedPrekey C)
    (draw : Draw S) (plaintext : List UInt8) : Except String Envelope := do
  let envelope ← sealUnsigned S (C.verifyingKey identity) recipient draw plaintext
  pure { envelope with signature := (C.sign identity envelope.transcript).toList }

theorem sealUnsigned_eq_ok {S : Sealer} {sender : Key} {recipient : VerifiedPrekey C}
    {draw : Draw S} {plaintext : List UInt8} {e : Envelope} :
    sealUnsigned S sender recipient draw plaintext = .ok e ↔
      S.wasContributory (S.diffieHellman draw.ephemeral recipient.key) = true ∧
      draw.nonce = .ok e.nonce ∧
      S.encrypt (S.deriveKey ((S.diffieHellman draw.ephemeral recipient.key).toList ++ e.binding))
        e.nonce plaintext e.binding = some e.ciphertext ∧
      e = ⟨sender, recipient.owner, S.publicKey draw.ephemeral, recipient.key, e.nonce,
        e.ciphertext, []⟩ := by
  rw [sealUnsigned, ensure_bind_eq_ok, bind_eq_ok]
  refine and_congr_right fun _ => ⟨?_, ?_⟩
  · rintro ⟨nonce, hnonce, h⟩
    dsimp only at h
    split at h
    case h_1 ciphertext hencrypt =>
      obtain rfl := Except.ok.inj h
      exact ⟨hnonce, hencrypt, rfl⟩
    case h_2 => cases h
  · rintro ⟨hnonce, hencrypt, he⟩
    refine ⟨e.nonce, hnonce, ?_⟩
    rw [he] at hencrypt
    simp only [binding] at hencrypt ⊢
    rw [hencrypt, he]
    rfl

/-- The signature is over everything else. -/
theorem sealWith_eq_ok {S : Sealer} {identity : C.SigningKey} {recipient : VerifiedPrekey C}
    {draw : Draw S} {plaintext : List UInt8} {e : Envelope} :
    sealWith C S identity recipient draw plaintext = .ok e ↔
      sealUnsigned S (C.verifyingKey identity) recipient draw plaintext =
        .ok { e with signature := [] } ∧
      e.signature = (C.sign identity e.transcript).toList := by
  rw [sealWith, bind_eq_ok]
  constructor
  · rintro ⟨u, hu, h⟩
    obtain rfl := Except.ok.inj h
    refine ⟨?_, rfl⟩
    rw [hu, (sealUnsigned_eq_ok.mp hu).2.2.2]
  · rintro ⟨hu, hsig⟩
    refine ⟨_, hu, congrArg Except.ok ?_⟩
    obtain ⟨s, r, k, p, n, c, g⟩ := e
    simp only [Envelope.mk.injEq, true_and]
    exact hsig.symm

end Envelope

end Wicara.Core
