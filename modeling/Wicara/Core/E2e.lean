import Wicara.Core.RoomLaws

namespace Wicara.Core

open Lib.Encoding

/-- What the code takes from `x25519_dalek`, `chacha20poly1305` and `blake3::derive_key`. -/
structure Sealing where
  StaticSecret : Type
  publicKey : StaticSecret → Bytes 32
  diffieHellman : StaticSecret → Bytes 32 → Bytes 32
  wasContributory : Bytes 32 → Bool
  deriveKey : List UInt8 → Bytes 32
  /-- Key, nonce, message and associated data. -/
  decrypt : Bytes 32 → Bytes 24 → List UInt8 → List UInt8 → Option (List UInt8)

/-- `b"wicara envelope signature v1"` -/
def envelopeContext : List UInt8 :=
  [119, 105, 99, 97, 114, 97, 32, 101, 110, 118, 101, 108, 111, 112, 101, 32, 115, 105, 103, 110,
    97, 116, 117, 114, 101, 32, 118, 49]

/-- One sealed message, as it sits in the hub's mailbox. -/
structure Envelope where
  sender : Key
  recipient : Key
  ephemeral : Bytes 32
  prekey : Bytes 32
  nonce : Bytes 24
  ciphertext : List UInt8
  signature : List UInt8
  deriving DecidableEq

namespace Envelope

/-- The associated data: sender, recipient and the two keys. -/
def binding (e : Envelope) : List UInt8 :=
  e.sender.toList ++ (e.recipient.toList ++ (e.ephemeral.toList ++ e.prekey.toList))

def transcript (e : Envelope) : List UInt8 :=
  envelopeContext ++ (e.binding ++ (e.nonce.toList ++ e.ciphertext))

/-- `postcard::to_stdvec` of an envelope. -/
def toStdvec (e : Envelope) : List UInt8 :=
  e.sender.toList ++ (e.recipient.toList ++ (e.ephemeral.toList ++ (e.prekey.toList ++
    (e.nonce.toList ++ (lengthPrefixed e.ciphertext ++ lengthPrefixed e.signature)))))

/-- `verify_envelope_signature` -/
def verifySignature (C : Crypto) (e : Envelope) : Except String Unit := do
  ensure (e.signature.length = 64) "envelope signature is not 64 bytes"
  ensure (C.fromBytes e.sender = true) "envelope sender is not a valid Ed25519 key"
  ensure (C.verifyStrict e.sender e.transcript e.signature = true)
    "envelope is not signed by the sender it names"

/-- `open`: what comes out of it was written by the sender that comes with it. -/
def openWith (C : Crypto) (S : Sealing) (e : Envelope) (myPrekey : S.StaticSecret) (me : Key) :
    Except String (List UInt8 × Key) := do
  ensure (e.recipient = me) "envelope is addressed elsewhere"
  ensure (e.prekey = S.publicKey myPrekey)
    "envelope was sealed to a prekey this endpoint no longer holds"
  e.verifySignature C
  let shared := S.diffieHellman myPrekey e.ephemeral
  ensure (S.wasContributory shared = true) "envelope carries a small-order ephemeral key"
  match S.decrypt (S.deriveKey (shared.toList ++ e.binding)) e.nonce e.ciphertext e.binding with
  | some plaintext => pure (plaintext, e.sender)
  | none => .error "envelope did not decrypt"

theorem length_toStdvec (e : Envelope) :
    e.toStdvec.length =
      152 + (lengthPrefixed e.ciphertext).length + (lengthPrefixed e.signature).length := by
  simp [toStdvec]
  omega

theorem toStdvec_injective : Function.Injective toStdvec := by
  rintro ⟨s, r, k, p, n, c, g⟩ ⟨s', r', k', p', n', c', g'⟩ h
  obtain ⟨rfl, h⟩ := Bytes.toList_selfDelimiting h
  obtain ⟨rfl, h⟩ := Bytes.toList_selfDelimiting h
  obtain ⟨rfl, h⟩ := Bytes.toList_selfDelimiting h
  obtain ⟨rfl, h⟩ := Bytes.toList_selfDelimiting h
  obtain ⟨rfl, h⟩ := Bytes.toList_selfDelimiting h
  obtain ⟨rfl, h⟩ := lengthPrefixed_selfDelimiting h
  obtain rfl := lengthPrefixed_selfDelimiting.injective h
  rfl

end Envelope

namespace MailboxAuth

/-- `b"wicara mailbox auth v1"` -/
def context : List UInt8 :=
  [119, 105, 99, 97, 114, 97, 32, 109, 97, 105, 108, 98, 111, 120, 32, 97, 117, 116, 104, 32, 118,
    49]

/-- `WINDOW_MS` -/
def windowMs : Nat := 5 * 60 * 1000

def transcript (endpoint : Key) (tsMs : UInt64) : List UInt8 :=
  context ++ (endpoint.toList ++ leBytes 8 tsMs.toNat)

def verify (C : Crypto) (endpoint : Key) (tsMs : UInt64) (signature : List UInt8) (now : UInt64) :
    Except String Unit := do
  ensure (max now.toNat tsMs.toNat - min now.toNat tsMs.toNat ≤ windowMs)
    s!"request timestamp is outside the {windowMs}ms window"
  ensure (signature.length = 64) "auth signature is not 64 bytes"
  ensure (C.fromBytes endpoint = true) "that endpoint id is not a valid Ed25519 key"
  ensure (C.verifyStrict endpoint (transcript endpoint tsMs) signature = true)
    "auth signature does not match that endpoint"

end MailboxAuth

end Wicara.Core
