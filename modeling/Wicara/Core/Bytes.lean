import Mathlib.Data.List.Lex
import Mathlib.Order.Basic
import Wicara.Lib.Encoding

namespace Wicara

/-- A Rust `[u8; n]`. -/
structure Bytes (n : Nat) where
  toList : List UInt8
  length_eq : toList.length = n
  deriving DecidableEq

attribute [simp] Bytes.length_eq

/-- Endpoint ids, room ids and hashes are all 32 bytes. -/
abbrev Key := Bytes 32

theorem Bytes.toList_injective : Function.Injective (Bytes.toList (n := n)) := by
  rintro ⟨a, ha⟩ ⟨b, hb⟩ rfl
  rfl

theorem Bytes.toList_selfDelimiting :
    Lib.Encoding.SelfDelimiting (Bytes.toList (n := n)) :=
  .of_length n Bytes.length_eq Bytes.toList_injective

def Bytes.replicate (n : Nat) (b : UInt8) : Bytes n :=
  ⟨List.replicate n b, List.length_replicate⟩

def Bytes.ofNat (n value : Nat) : Bytes n :=
  ⟨Lib.Encoding.leBytes n value, Lib.Encoding.length_leBytes n value⟩

/-- Byte arrays are compared byte by byte, most significant first. -/
instance : LinearOrder (Bytes n) :=
  LinearOrder.lift' (fun k : Bytes n => k.toList.map UInt8.toNat) (by
    intro a b h
    exact Bytes.toList_injective
      (List.map_injective_iff.mpr (fun _ _ => UInt8.toNat_inj.mp) h))

/-- The two lower-case hex digits of a byte. -/
def hexByte (b : UInt8) : String :=
  String.ofList [Nat.digitChar (b.toNat / 16), Nat.digitChar (b.toNat % 16)]

def hex (bytes : List UInt8) : String := String.join (bytes.map hexByte)

theorem digitChar_inj {m n : Nat} (hm : m < 16) (hn : n < 16) :
    Nat.digitChar m = Nat.digitChar n ↔ m = n := by
  have hall : ∀ m < 16, ∀ n < 16, Nat.digitChar m = Nat.digitChar n → m = n := by decide
  exact ⟨hall m hm n hn, congrArg _⟩

theorem toList_hexByte (b : UInt8) : (hexByte b).toList =
    [Nat.digitChar (b.toNat / 16), Nat.digitChar (b.toNat % 16)] := String.toList_ofList

theorem toList_hex_cons (b : UInt8) (bytes : List UInt8) : (hex (b :: bytes)).toList =
    Nat.digitChar (b.toNat / 16) :: Nat.digitChar (b.toNat % 16) :: (hex bytes).toList := by
  simp [hex, toList_hexByte]

theorem hex_injective : Function.Injective hex := by
  intro bytes bytes' h
  replace h := congrArg String.toList h
  induction bytes generalizing bytes' with
  | nil =>
    cases bytes' with
    | nil => rfl
    | cons b bytes' =>
      rw [toList_hex_cons] at h
      simp [hex] at h
  | cons b bytes ih =>
    cases bytes' with
    | nil =>
      rw [toList_hex_cons] at h
      simp [hex] at h
    | cons b' bytes' =>
      rw [toList_hex_cons, toList_hex_cons, List.cons.injEq, List.cons.injEq] at h
      obtain ⟨hhigh, hlow, hrest⟩ := h
      have hb := b.toNat_lt
      have hb' := b'.toNat_lt
      rw [digitChar_inj (by omega) (by omega)] at hhigh
      rw [digitChar_inj (by omega) (by omega)] at hlow
      rw [ih hrest, UInt8.toNat_inj.mp (by omega : b.toNat = b'.toNat)]

end Wicara
