import Wicara.Core.Bytes
import Wicara.Lib.Utf8

namespace Wicara

open Lib

/-- A digit as `data_encoding` knows it: `HEXLOWER` has no capitals, `HEXLOWER_PERMISSIVE` takes
them too. -/
def hexDigit (permissive : Bool) (b : UInt8) : Option UInt8 :=
  if 48 ≤ b ∧ b ≤ 57 then some (b - 48)
  else if 97 ≤ b ∧ b ≤ 102 then some (b - 87)
  else if permissive ∧ 65 ≤ b ∧ b ≤ 70 then some (b - 55)
  else none

def decodeHex (permissive : Bool) : List UInt8 → Option (List UInt8)
  | [] => some []
  | [_] => none
  | high :: low :: rest => do
    let high ← hexDigit permissive high
    let low ← hexDigit permissive low
    let bytes ← decodeHex permissive rest
    pure ((16 * high + low) :: bytes)

theorem hexDigit_digitChar (permissive : Bool) {n : Nat} (h : n < 16) :
    hexDigit permissive (UInt8.ofNat (Nat.digitChar n).toNat) = some (UInt8.ofNat n) := by
  have hall : ∀ permissive, ∀ n < 16,
      hexDigit permissive (UInt8.ofNat (Nat.digitChar n).toNat) = some (UInt8.ofNat n) := by decide
  exact hall permissive n h

theorem utf8EncodeChar_digitChar {n : Nat} (h : n < 16) :
    String.utf8EncodeChar (Nat.digitChar n) = [UInt8.ofNat (Nat.digitChar n).toNat] := by
  have hall : ∀ n < 16, (Nat.digitChar n).toNat < 128 := by decide
  exact utf8EncodeChar_of_lt (hall n h)

/-- Whatever is written in hex is read back. -/
theorem decodeHex_hex (permissive : Bool) (bytes : List UInt8) :
    decodeHex permissive (utf8 (hex bytes)) = some bytes := by
  induction bytes with
  | nil =>
    rw [utf8_eq_flatMap]
    rfl
  | cons b bytes ih =>
    have hb := b.toNat_lt
    have hhigh : b.toNat / 16 < 16 := by omega
    have hlow : b.toNat % 16 < 16 := by omega
    have hbyte : 16 * UInt8.ofNat (b.toNat / 16) + UInt8.ofNat (b.toNat % 16) = b := by
      rw [← UInt8.toNat_inj, UInt8.toNat_add, UInt8.toNat_mul, UInt8.toNat_ofNat',
        UInt8.toNat_ofNat', show (16 : UInt8).toNat = 16 from rfl]
      omega
    rw [utf8_eq_flatMap] at ih
    rw [utf8_eq_flatMap, toList_hex_cons, List.flatMap_cons, List.flatMap_cons,
      utf8EncodeChar_digitChar hhigh, utf8EncodeChar_digitChar hlow, List.cons_append,
      List.nil_append, List.cons_append, List.nil_append, decodeHex,
      hexDigit_digitChar permissive hhigh, hexDigit_digitChar permissive hlow, ih]
    exact congrArg (fun b => some (b :: bytes)) hbyte

end Wicara
