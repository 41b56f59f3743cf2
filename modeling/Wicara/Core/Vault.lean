import Wicara.Core.Sample
import Wicara.Lib.Utf8

namespace Wicara.Core

open Lib

/-- What the code takes from `argon2` and `chacha20poly1305`. -/
structure Cipher where
  hashPasswordInto : List UInt8 → Bytes 16 → Except String (Bytes 32)
  encrypt : Bytes 32 → Bytes 24 → List UInt8 → Option (List UInt8)
  decrypt : Bytes 32 → Bytes 24 → List UInt8 → Option (List UInt8)

def saltLen : Nat := 16

def nonceLen : Nat := 24

def tagLen : Nat := 16

/-- What is relied on of the cipher: it is undone by its key, and a tag comes behind what it
writes. -/
structure Cipher.Lawful (A : Cipher) : Prop where
  decrypt_iff : ∀ key nonce ciphertext plaintext,
    A.decrypt key nonce ciphertext = some plaintext ↔
      A.encrypt key nonce plaintext = some ciphertext
  length_encrypt : ∀ key nonce plaintext ciphertext,
    A.encrypt key nonce plaintext = some ciphertext →
      ciphertext.length = plaintext.length + tagLen

/-- `map_err` on a result that says nothing of its error. -/
def okOr (x : Option α) (e : ε) : Except ε α :=
  match x with
  | some a => .ok a
  | none => .error e

@[simp] theorem okOr_eq_ok {x : Option α} {e : ε} {a : α} : okOr x e = .ok a ↔ x = some a := by
  cases x <;> simp [okOr]

theorem mapError_eq_ok {x : Except ε α} {f : ε → δ} {a : α} :
    x.mapError f = .ok a ↔ x = .ok a := by
  cases x <;> simp [Except.mapError]

/-- What the system's generator answers. -/
def random (answer : Except String (Bytes n)) : Except String (Bytes n) :=
  answer.mapError fun e => s!"system rng unavailable: {e}"

structure VaultKey where
  bytes : Bytes 32
  deriving DecidableEq

namespace VaultKey

variable (A : Cipher)

def derive (passphrase : String) (salt : Bytes 16) : Except String VaultKey :=
  match A.hashPasswordInto (utf8 passphrase) salt with
  | .ok key => .ok ⟨key⟩
  | .error e => .error s!"argon2: {e}"

/-- `seal`: the nonce, the ciphertext and the tag, one behind the other. -/
def sealWith (key : VaultKey) (nonce : Except String (Bytes 24)) (plaintext : List UInt8) :
    Except String (List UInt8) := do
  let nonce ← random nonce
  let ciphertext ← okOr (A.encrypt key.bytes nonce plaintext) "encryption failed"
  pure (nonce.toList ++ ciphertext)

/-- `open` -/
def openWith (key : VaultKey) (blob : List UInt8) : Except String (List UInt8) :=
  if h : nonceLen + tagLen ≤ blob.length then
    let nonce : Bytes 24 := ⟨blob.take nonceLen, List.length_take_of_le (Nat.le_of_add_right_le h)⟩
    okOr (A.decrypt key.bytes nonce (blob.drop nonceLen))
      "wrong passphrase, or the file has been tampered with"
  else .error "sealed blob is truncated"

variable {A} {key : VaultKey} {nonce : Except String (Bytes 24)} {plaintext blob : List UInt8}

theorem sealWith_eq_ok : key.sealWith A nonce plaintext = .ok blob ↔
    ∃ n ciphertext, nonce = .ok n ∧ A.encrypt key.bytes n plaintext = some ciphertext ∧
      blob = n.toList ++ ciphertext := by
  simp only [sealWith, bind_eq_ok, random, mapError_eq_ok, okOr_eq_ok, pure, Except.pure,
    Except.ok.injEq,
    exists_and_left, eq_comm (a := blob)]

theorem openWith_append (hA : A.Lawful) {n : Bytes 24} {ciphertext : List UInt8} :
    key.openWith A (n.toList ++ ciphertext) = .ok plaintext ↔
      A.encrypt key.bytes n plaintext = some ciphertext := by
  rw [← hA.decrypt_iff]
  have hlen : (n.toList ++ ciphertext).length = nonceLen + ciphertext.length := by
    rw [List.length_append, n.length_eq]
    rfl
  have htake : (n.toList ++ ciphertext).take nonceLen = n.toList :=
    List.take_left' n.length_eq
  have hdrop : (n.toList ++ ciphertext).drop nonceLen = ciphertext :=
    List.drop_left' n.length_eq
  unfold openWith
  split
  case isTrue h =>
    simp only [htake, hdrop]
    exact okOr_eq_ok
  case isFalse h =>
    refine ⟨fun h => ?_, fun hdecrypt => ?_⟩
    · cases h
    · have htag := hA.length_encrypt _ _ _ _ ((hA.decrypt_iff _ _ _ _).mp hdecrypt)
      omega

/-- What opens is what was sealed, under the same key. -/
theorem openWith_eq_ok (hA : A.Lawful) :
    key.openWith A blob = .ok plaintext ↔ ∃ n, key.sealWith A (.ok n) plaintext = .ok blob := by
  constructor
  · intro h
    have hlen : nonceLen + tagLen ≤ blob.length := by
      by_contra hshort
      rw [openWith, dif_neg hshort] at h
      cases h
    let n : Bytes 24 := ⟨blob.take nonceLen, List.length_take_of_le (by omega)⟩
    have hblob : blob = n.toList ++ blob.drop nonceLen := (List.take_append_drop nonceLen blob).symm
    rw [hblob, openWith_append hA] at h
    exact ⟨n, sealWith_eq_ok.mpr ⟨n, _, rfl, h, hblob⟩⟩
  · rintro ⟨n, hseal⟩
    obtain ⟨n, ciphertext, ⟨⟩, hencrypt, rfl⟩ := sealWith_eq_ok.mp hseal
    exact (openWith_append hA).mpr hencrypt

theorem openWith_of_sealWith (hA : A.Lawful) (h : key.sealWith A nonce plaintext = .ok blob) :
    key.openWith A blob = .ok plaintext := by
  obtain ⟨n, ciphertext, -, hencrypt, rfl⟩ := sealWith_eq_ok.mp h
  exact (openWith_append hA).mpr hencrypt

theorem length_of_sealWith (hA : A.Lawful) (h : key.sealWith A nonce plaintext = .ok blob) :
    blob.length = nonceLen + plaintext.length + tagLen := by
  obtain ⟨n, ciphertext, -, hencrypt, rfl⟩ := sealWith_eq_ok.mp h
  rw [List.length_append, n.length_eq, hA.length_encrypt _ _ _ _ hencrypt, Nat.add_assoc]
  rfl

end VaultKey

namespace Sample

def vaultTag (key : Bytes 32) (nonce : Bytes 24) (plaintext : List UInt8) : List UInt8 :=
  (Bytes.ofNat tagLen (checksum (key.toList ++ nonce.toList ++ plaintext))).toList

/-- A cipher that runs, and that abides by the laws: it tells whether the key is the right one, but
does not hide the message. -/
def cipher : Cipher where
  hashPasswordInto password salt := .ok (Bytes.ofNat 32 (checksum (password ++ salt.toList)))
  encrypt key nonce plaintext := some (vaultTag key nonce plaintext ++ plaintext)
  decrypt key nonce ciphertext :=
    if vaultTag key nonce (ciphertext.drop tagLen) ++ ciphertext.drop tagLen = ciphertext then
      some (ciphertext.drop tagLen)
    else none

theorem cipher_lawful : cipher.Lawful where
  decrypt_iff key nonce ciphertext plaintext := by
    simp only [cipher, Option.ite_none_right_eq_some, Option.some.injEq]
    constructor
    · rintro ⟨htag, rfl⟩
      exact htag
    · rintro rfl
      have hlength : (vaultTag key nonce plaintext).length = tagLen := Bytes.length_eq _
      rw [List.drop_left' hlength]
      exact ⟨rfl, rfl⟩
  length_encrypt key nonce plaintext ciphertext h := by
    obtain rfl := Option.some.inj h
    rw [List.length_append, Nat.add_comm, vaultTag, Bytes.length_eq]

end Sample

end Wicara.Core
