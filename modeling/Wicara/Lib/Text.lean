import Mathlib.Data.List.DropRight
import Mathlib.Tactic.Common

namespace Wicara.Lib

/-- `str::trim_matches` -/
def trimMatches (p : Char → Bool) (chars : List Char) : List Char :=
  (chars.dropWhile p).rdropWhile p

/-- Unicode's `White_Space`, which is what `char::is_whitespace` asks for. -/
def isWhitespace (c : Char) : Bool :=
  let n := c.toNat
  (9 ≤ n ∧ n ≤ 13) ∨ n = 0x20 ∨ n = 0x85 ∨ n = 0xA0 ∨ n = 0x1680 ∨ (0x2000 ≤ n ∧ n ≤ 0x200A) ∨
    n = 0x2028 ∨ n = 0x2029 ∨ n = 0x202F ∨ n = 0x205F ∨ n = 0x3000

def trim (chars : List Char) : List Char := trimMatches isWhitespace chars

section

variable {p : Char → Bool} {chars : List Char} {c : Char}

theorem mem_of_mem_trimMatches (h : c ∈ trimMatches p chars) : c ∈ chars :=
  (List.dropWhile_suffix p).mem ((List.rdropWhile_prefix p _).mem h)

theorem not_of_getLast_trimMatches (h : c ∈ (trimMatches p chars).getLast?) : p c = false := by
  obtain ⟨hne, rfl⟩ := List.mem_getLast?_eq_getLast h
  exact Bool.eq_false_iff.mpr (List.rdropWhile_last_not p _ hne)

/-- What is left at the front is what the trimming from the front has come to. -/
theorem not_of_head_trimMatches (h : c ∈ (trimMatches p chars).head?) : p c = false := by
  obtain ⟨rest, hrest⟩ := List.rdropWhile_prefix p (chars.dropWhile p)
  have hhead : c ∈ (chars.dropWhile p).head? := by
    rw [← hrest]
    exact List.mem_head?_append_of_mem_head? h
  have hne : chars.dropWhile p ≠ [] := by
    rintro hnil
    simp [hnil] at hhead
  rw [List.head?_eq_some_head hne] at hhead
  obtain rfl := Option.some.inj hhead
  exact Bool.eq_false_iff.mpr (by simpa using List.head_dropWhile_not p hne)

theorem trimMatches_eq_self (hhead : ∀ c ∈ chars.head?, p c = false)
    (hlast : ∀ c ∈ chars.getLast?, p c = false) : trimMatches p chars = chars := by
  have hfront : chars.dropWhile p = chars := by
    cases chars with
    | nil => rfl
    | cons c chars => rw [List.dropWhile_cons_of_neg (by simp [hhead c rfl])]
  rw [trimMatches, hfront, List.rdropWhile_eq_self_iff]
  exact fun hne => by simp [hlast _ (List.getLast?_eq_some_getLast hne)]

end

/-- Unicode's `Cc`, which is what `char::is_control` asks for. -/
def isControl (c : Char) : Bool :=
  let n := c.toNat
  n < 0x20 ∨ (0x7F ≤ n ∧ n ≤ 0x9F)

/-- Splitting loses what it splits at and nothing else. -/
theorem flatten_splitOnP (p : Char → Bool) (chars : List Char) :
    (chars.splitOnP p).flatten = chars.filter (!p ·) := by
  induction chars with
  | nil => rfl
  | cons c chars ih =>
    rw [List.splitOnP_cons_eq_if_modifyHead]
    split
    · rename_i hc
      simp [hc, ih]
    · rename_i hc
      obtain ⟨piece, pieces, hpieces⟩ := List.exists_cons_of_ne_nil (List.splitOnP_ne_nil p chars)
      rw [hpieces] at ih ⊢
      simp [hc, ← ih]

/-- `str::split_whitespace` -/
def splitWhitespace (chars : List Char) : List (List Char) :=
  (chars.splitOnP isWhitespace).filter (· ≠ [])

theorem flatten_splitWhitespace (chars : List Char) :
    (splitWhitespace chars).flatten = chars.filter (!isWhitespace ·) := by
  rw [← flatten_splitOnP, splitWhitespace]
  simpa using List.flatten_filter_ne_nil (L := chars.splitOnP isWhitespace)

/-- `str::split_once` -/
def splitOnce (sep : Char) (chars : List Char) : Option (List Char × List Char) :=
  match chars.dropWhile (· ≠ sep) with
  | [] => none
  | _ :: rest => some (chars.takeWhile (· ≠ sep), rest)

/-- What a text takes in UTF-8. -/
def byteSize : List Char → Nat
  | [] => 0
  | c :: chars => c.utf8Size + byteSize chars

@[simp] theorem byteSize_nil : byteSize [] = 0 := rfl

@[simp] theorem byteSize_cons (c : Char) (chars : List Char) :
    byteSize (c :: chars) = c.utf8Size + byteSize chars := rfl

@[simp] theorem byteSize_append (l r : List Char) :
    byteSize (l ++ r) = byteSize l + byteSize r := by
  induction l with
  | nil => simp
  | cons c l ih => rw [List.cons_append, byteSize_cons, byteSize_cons, ih, Nat.add_assoc]

/-- `&text[..at]` and `&text[at..]`, unless the index is not on a character's boundary. -/
def splitAtByte : Nat → List Char → Option (List Char × List Char)
  | 0, chars => some ([], chars)
  | _ + 1, [] => none
  | n + 1, c :: chars =>
    if c.utf8Size ≤ n + 1 then
      (splitAtByte (n + 1 - c.utf8Size) chars).map fun (l, r) => (c :: l, r)
    else none

theorem splitAtByte_byteSize (l r : List Char) :
    splitAtByte (byteSize l) (l ++ r) = some (l, r) := by
  induction l with
  | nil => simp [splitAtByte]
  | cons c l ih =>
    have hpos := c.utf8Size_pos
    obtain ⟨n, hn⟩ : ∃ n, c.utf8Size + byteSize l = n + 1 := ⟨c.utf8Size + byteSize l - 1, by omega⟩
    have hrest : n + 1 - c.utf8Size = byteSize l := by omega
    rw [byteSize_cons, hn, List.cons_append, splitAtByte, if_pos (by omega), hrest, ih]
    rfl

/-- A slice of the text may be cut at this byte. -/
def OnBoundary (chars : List Char) (n : Nat) : Prop := ∃ l r, chars = l ++ r ∧ n = byteSize l

theorem onBoundary_zero (chars : List Char) : OnBoundary chars 0 := ⟨[], chars, rfl, rfl⟩

theorem onBoundary_byteSize (chars : List Char) : OnBoundary chars (byteSize chars) :=
  ⟨chars, [], by simp, rfl⟩

theorem OnBoundary.le {chars : List Char} {n : Nat} (h : OnBoundary chars n) :
    n ≤ byteSize chars := by
  obtain ⟨l, r, rfl, rfl⟩ := h
  rw [byteSize_append]
  exact Nat.le_add_right _ _

theorem OnBoundary.split {chars : List Char} {n : Nat} (h : OnBoundary chars n) :
    ∃ l r, splitAtByte n chars = some (l, r) ∧ chars = l ++ r ∧ n = byteSize l := by
  obtain ⟨l, r, rfl, rfl⟩ := h
  exact ⟨l, r, splitAtByte_byteSize l r, rfl, rfl⟩

/-- Where the last character of a text starts. -/
theorem byteSize_dropLast {l : List Char} {c : Char} (h : c ∈ l.getLast?) :
    byteSize l - c.utf8Size = byteSize l.dropLast := by
  conv_lhs => rw [← List.dropLast_append_getLast? c h]
  simp

end Wicara.Lib
