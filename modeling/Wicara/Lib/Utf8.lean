import Wicara.Lib.Encoding

namespace Wicara.Lib

/-- `str::as_bytes` -/
def utf8 (s : String) : List UInt8 := s.toByteArray.data.toList

/-- How many bytes the character takes that starts with `b`, if one can. -/
def utf8Width (b : UInt8) : Nat :=
  if b < 0x80 then 1
  else if 0xC2 ≤ b ∧ b ≤ 0xDF then 2
  else if 0xE0 ≤ b ∧ b ≤ 0xEF then 3
  else if 0xF0 ≤ b ∧ b ≤ 0xF4 then 4
  else 0

def continues (b : UInt8) : Bool := 0x80 ≤ b ∧ b ≤ 0xBF

/-- What may come second depends on what comes first: no character is written longer than it
need be, none is a surrogate, and none is above the last. -/
def comesSecond (first second : UInt8) : Bool :=
  if first = 0xE0 then 0xA0 ≤ second ∧ second ≤ 0xBF
  else if first = 0xED then 0x80 ≤ second ∧ second ≤ 0x9F
  else if first = 0xF0 then 0x90 ≤ second ∧ second ≤ 0xBF
  else if first = 0xF4 then 0x80 ≤ second ∧ second ≤ 0x8F
  else continues second

/-- The length of the first character, or of as much of the front as could still be one. -/
def chunkLength : List UInt8 → Nat
  | [] => 0
  | [_] => 1
  | first :: second :: rest =>
    if utf8Width first < 2 ∨ comesSecond first second = false then 1
    else 2 + ((rest.take (utf8Width first - 2)).takeWhile continues).length

/-- Each piece that is no character is replaced by one mark. -/
def replaceInvalid : Nat → List UInt8 → List Char
  | 0, _ => []
  | fuel + 1, bytes =>
    if bytes = [] then []
    else
      let n := chunkLength bytes
      let chunk := String.fromUTF8? ⟨(bytes.take n).toArray⟩
      chunk.elim ['\uFFFD'] String.toList ++ replaceInvalid fuel (bytes.drop n)

/-- `String::from_utf8_lossy` -/
def fromUtf8Lossy (bytes : List UInt8) : String :=
  match String.fromUTF8? ⟨bytes.toArray⟩ with
  | some s => s
  | none => String.ofList (replaceInvalid bytes.length bytes)

theorem fromUTF8?_toByteArray (s : String) :
    String.fromUTF8? ⟨s.toByteArray.data.toList.toArray⟩ = some s := by
  rw [Array.toArray_toList]
  unfold String.fromUTF8?
  rw [dif_pos s.isValidUTF8]
  rfl

@[simp] theorem fromUtf8Lossy_utf8 (s : String) : fromUtf8Lossy (utf8 s) = s := by
  unfold fromUtf8Lossy
  rw [utf8, fromUTF8?_toByteArray]

theorem utf8_eq_flatMap (s : String) : utf8 s = s.toList.flatMap String.utf8EncodeChar := by
  have h : s.toByteArray = (s.toList.flatMap String.utf8EncodeChar).toByteArray :=
    String.utf8Encode_toList.symm
  rw [utf8, h, List.data_toByteArray]

/-- Below 128 a character is its number. -/
theorem utf8EncodeChar_of_lt {c : Char} (h : c.toNat < 128) :
    String.utf8EncodeChar c = [UInt8.ofNat c.toNat] := by
  have hle : c.val.toNat ≤ 0x7F := Nat.le_of_lt_succ h
  unfold String.utf8EncodeChar
  rw [if_pos hle]
  rfl

end Wicara.Lib
