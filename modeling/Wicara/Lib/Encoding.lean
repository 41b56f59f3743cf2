import Mathlib.Algebra.Group.Nat.Defs
import Mathlib.Data.List.Basic
import Mathlib.Logic.Function.Basic

namespace Wicara.Lib.Encoding

/-- A reader of a self-delimiting encoding knows where it ends: two encodings with
anything after them agree only when the values do, and then so does the rest. -/
def SelfDelimiting (enc : α → List UInt8) : Prop :=
  ∀ ⦃a b : α⦄ ⦃x y : List UInt8⦄, enc a ++ x = enc b ++ y → a = b ∧ x = y

theorem SelfDelimiting.injective {enc : α → List UInt8} (h : SelfDelimiting enc) :
    Function.Injective enc := by
  intro a b hab
  have hx : enc a ++ [] = enc b ++ [] := by rw [hab]
  exact (h hx).1

theorem SelfDelimiting.comp {enc : β → List UInt8} (h : SelfDelimiting enc) {f : α → β}
    (hf : Function.Injective f) : SelfDelimiting (enc ∘ f) := by
  intro a b x y hab
  obtain ⟨he, hx⟩ := h hab
  exact ⟨hf he, hx⟩

theorem SelfDelimiting.append {f : α → List UInt8} {g : β → List UInt8}
    (hf : SelfDelimiting f) (hg : SelfDelimiting g) :
    SelfDelimiting (fun p : α × β => f p.1 ++ g p.2) := by
  rintro ⟨a, b⟩ ⟨a', b'⟩ x y h
  simp only [List.append_assoc] at h
  obtain ⟨rfl, hb⟩ := hf h
  obtain ⟨rfl, hx⟩ := hg hb
  exact ⟨rfl, hx⟩

/-- Encodings of one length need no delimiter. -/
theorem SelfDelimiting.of_length {enc : α → List UInt8} (n : Nat)
    (hlen : ∀ a, (enc a).length = n) (hinj : Function.Injective enc) :
    SelfDelimiting enc := by
  intro a b x y h
  obtain ⟨he, hx⟩ := List.append_inj h (by rw [hlen, hlen])
  exact ⟨hinj he, hx⟩

/-- The `k` low bytes of `n`, least significant first. -/
def leBytes : Nat → Nat → List UInt8
  | 0, _ => []
  | k + 1, n => UInt8.ofNat (n % 256) :: leBytes k (n / 256)

@[simp] theorem length_leBytes (k n : Nat) : (leBytes k n).length = k := by
  induction k generalizing n with
  | zero => rfl
  | succ k ih => simp [leBytes, ih]

theorem ofNat_inj_of_lt {m n : Nat} (hm : m < 256) (hn : n < 256)
    (h : UInt8.ofNat m = UInt8.ofNat n) : m = n := by
  have ht := congrArg UInt8.toNat h
  simpa [Nat.mod_eq_of_lt hm, Nat.mod_eq_of_lt hn] using ht

theorem leBytes_inj {k m n : Nat} (hm : m < 256 ^ k) (hn : n < 256 ^ k)
    (h : leBytes k m = leBytes k n) : m = n := by
  induction k generalizing m n with
  | zero =>
    simp only [Nat.pow_zero] at hm hn
    omega
  | succ k ih =>
    simp only [leBytes, List.cons.injEq] at h
    have hlow : m % 256 = n % 256 :=
      ofNat_inj_of_lt (Nat.mod_lt _ (by decide)) (Nat.mod_lt _ (by decide)) h.1
    have hhigh : m / 256 = n / 256 := by
      refine ih ?_ ?_ h.2 <;> rw [Nat.pow_succ] at hm hn <;> omega
    omega

/-- What bytes say, least significant first. -/
def ofLeBytes : List UInt8 → Nat
  | [] => 0
  | b :: bytes => b.toNat + 256 * ofLeBytes bytes

theorem ofLeBytes_leBytes {k n : Nat} (h : n < 256 ^ k) : ofLeBytes (leBytes k n) = n := by
  induction k generalizing n with
  | zero =>
    rw [Nat.pow_zero] at h
    rw [leBytes, ofLeBytes]
    omega
  | succ k ih =>
    rw [Nat.pow_succ] at h
    have hlow : (UInt8.ofNat (n % 256)).toNat = n % 256 := by simp
    rw [leBytes, ofLeBytes, ih (by omega), hlow]
    omega

/-- Base-128 digits, least significant first, the top bit set on all but the last.  The
fuel is the number itself, which is more than its digits. -/
def varintAux : Nat → Nat → List UInt8
  | 0, _ => []
  | fuel + 1, n =>
    if n < 128 then [UInt8.ofNat n]
    else UInt8.ofNat (n % 128 + 128) :: varintAux fuel (n / 128)

def varint (n : Nat) : List UInt8 := varintAux (n + 1) n

theorem varintAux_fuel {f g n : Nat} (hf : n < f) (hg : n < g) :
    varintAux f n = varintAux g n := by
  induction f generalizing g n with
  | zero => omega
  | succ f ih =>
    cases g with
    | zero => omega
    | succ g =>
      simp only [varintAux]
      split
      · rfl
      · rw [ih (g := g) (by omega) (by omega)]

theorem varint_of_lt {n : Nat} (h : n < 128) : varint n = [UInt8.ofNat n] := by
  simp [varint, varintAux, h]

theorem varint_of_ge {n : Nat} (h : 128 ≤ n) :
    varint n = UInt8.ofNat (n % 128 + 128) :: varint (n / 128) := by
  have hn : ¬ n < 128 := by omega
  rw [varint, varintAux, if_neg hn, varint]
  congr 1
  exact varintAux_fuel (by omega) (by omega)

theorem length_varint_pos (n : Nat) : 0 < (varint n).length := by
  rcases Nat.lt_or_ge n 128 with hn | hn
  · simp [varint_of_lt hn]
  · simp [varint_of_ge hn]

theorem length_varint_mono {m n : Nat} (h : m ≤ n) : (varint m).length ≤ (varint n).length := by
  induction n using Nat.strongRecOn generalizing m with
  | ind n ih =>
    rcases Nat.lt_or_ge m 128 with hm | hm <;> rcases Nat.lt_or_ge n 128 with hn | hn
    · simp [varint_of_lt hm, varint_of_lt hn]
    · simp [varint_of_lt hm, varint_of_ge hn]
    · omega
    · rw [varint_of_ge hm, varint_of_ge hn, List.length_cons, List.length_cons]
      exact Nat.succ_le_succ (ih (n / 128) (by omega) (by omega))

theorem varint_selfDelimiting : SelfDelimiting varint := by
  intro m
  induction m using Nat.strongRecOn with
  | ind m ih =>
    intro n x y h
    rcases Nat.lt_or_ge m 128 with hm | hm <;> rcases Nat.lt_or_ge n 128 with hn | hn
    · rw [varint_of_lt hm, varint_of_lt hn] at h
      simp only [List.cons_append, List.nil_append, List.cons.injEq] at h
      exact ⟨ofNat_inj_of_lt (by omega) (by omega) h.1, h.2⟩
    · rw [varint_of_lt hm, varint_of_ge hn] at h
      simp only [List.cons_append, List.nil_append, List.cons.injEq] at h
      have := ofNat_inj_of_lt (by omega) (by omega) h.1
      omega
    · rw [varint_of_ge hm, varint_of_lt hn] at h
      simp only [List.cons_append, List.nil_append, List.cons.injEq] at h
      have := ofNat_inj_of_lt (by omega) (by omega) h.1
      omega
    · rw [varint_of_ge hm, varint_of_ge hn] at h
      simp only [List.cons_append, List.cons.injEq] at h
      have hlow := ofNat_inj_of_lt (by omega) (by omega) h.1
      obtain ⟨hhigh, hx⟩ := ih (m / 128) (by omega) h.2
      exact ⟨by omega, hx⟩

/-- A byte string behind its length. -/
def lengthPrefixed (bytes : List UInt8) : List UInt8 := varint bytes.length ++ bytes

theorem lengthPrefixed_selfDelimiting : SelfDelimiting lengthPrefixed := by
  intro a b x y h
  simp only [lengthPrefixed, List.append_assoc] at h
  obtain ⟨hlen, hrest⟩ := varint_selfDelimiting h
  exact List.append_inj hrest hlen

/-- A string as its length and its UTF-8 bytes. -/
def string (s : String) : List UInt8 := lengthPrefixed s.toByteArray.data.toList

theorem string_selfDelimiting : SelfDelimiting string := by
  refine lengthPrefixed_selfDelimiting.comp (f := fun s : String => s.toByteArray.data.toList) ?_
  intro s t h
  rw [← String.toByteArray_inj, ByteArray.ext_iff, ← Array.toList_inj]
  exact h

end Wicara.Lib.Encoding
