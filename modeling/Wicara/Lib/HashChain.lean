import Mathlib.Data.List.Basic
import Mathlib.Data.Set.Function

namespace Wicara.Lib.HashChain

universe u v

variable {α : Type u} {H : Type v} {prev hash : α → H} {root : α → Prop}

/-- A chain starts at its only root and every later entry names the hash of the entry
before it. -/
structure Chained (prev hash : α → H) (root : α → Prop) (l : List α) : Prop where
  root_iff : ∀ (i : Nat) (h : i < l.length), root l[i] ↔ i = 0
  linked : ∀ (i : Nat) (h : i + 1 < l.length), prev l[i + 1] = hash l[i]

theorem Chained.take {l : List α} (h : Chained prev hash root l) (n : Nat) :
    Chained prev hash root (l.take n) where
  root_iff i hi := by
    have hl : i < l.length := by simp only [List.length_take] at hi; omega
    simpa using h.root_iff i hl
  linked i hi := by
    have hl : i + 1 < l.length := by simp only [List.length_take] at hi; omega
    simpa using h.linked i hl

theorem take_succ_eq_of_getElem_eq {A B : List α} {i : Nat} (hA : i < A.length)
    (hB : i < B.length) (hget : A[i] = B[i]) (htake : A.take i = B.take i) :
    A.take (i + 1) = B.take (i + 1) := by
  rw [List.take_succ_eq_append_getElem hA, List.take_succ_eq_append_getElem hB, hget, htake]

/-- An entry commits to its position and to everything before it: the two chains agree up
to the entries that hash alike, and those stand at one position.  The hash only has to be
injective on the entries at hand. -/
theorem Chained.commits {A B : List α} (hA : Chained prev hash root A)
    (hB : Chained prev hash root B) {S : Set α} (hinj : Set.InjOn hash S)
    (hAS : ∀ a ∈ A, a ∈ S) (hBS : ∀ b ∈ B, b ∈ S) {i j : Nat} (hi : i < A.length)
    (hj : j < B.length) (h : hash A[i] = hash B[j]) :
    i = j ∧ A.take (i + 1) = B.take (j + 1) := by
  induction i generalizing j with
  | zero =>
    have he : A[0] = B[j] := hinj (hAS _ (List.getElem_mem hi)) (hBS _ (List.getElem_mem hj)) h
    have hr : root B[j] := he ▸ (hA.root_iff 0 hi).mpr rfl
    obtain rfl := (hB.root_iff j hj).mp hr
    exact ⟨rfl, take_succ_eq_of_getElem_eq hi hj he rfl⟩
  | succ i ih =>
    have he : A[i + 1] = B[j] :=
      hinj (hAS _ (List.getElem_mem hi)) (hBS _ (List.getElem_mem hj)) h
    cases j with
    | zero =>
      -- one chain is at its root while the other still has predecessors
      have hr : root A[i + 1] := he ▸ (hB.root_iff 0 hj).mpr rfl
      exact absurd ((hA.root_iff (i + 1) hi).mp hr) (by omega)
    | succ j =>
      have hprev : hash A[i] = hash B[j] := by
        rw [← hA.linked i hi, ← hB.linked j hj, he]
      obtain ⟨rfl, htake⟩ := ih (by omega) (by omega) hprev
      exact ⟨rfl, take_succ_eq_of_getElem_eq hi hj he htake⟩

/-- A chain whose entry right after `A` names the last hash of `A` extends `A`. -/
theorem Chained.prefix_of_links {A B : List α} (hA : Chained prev hash root A)
    (hB : Chained prev hash root B) {S : Set α} (hinj : Set.InjOn hash S)
    (hAS : ∀ a ∈ A, a ∈ S) (hBS : ∀ b ∈ B, b ∈ S) {i : Nat} (hlen : A.length = i + 1)
    (hj : i + 1 < B.length) (h : prev B[i + 1] = hash A[i]) : A <+: B := by
  have hlink : hash A[i] = hash B[i] := by rw [← h, hB.linked i hj]
  obtain ⟨-, htake⟩ := hA.commits hB hinj hAS hBS (by omega) (by omega) hlink
  rw [← List.take_length (l := A), hlen, htake]
  exact List.take_prefix _ _

theorem Chained.links_of_prefix {A B : List α} (hB : Chained prev hash root B) {i : Nat}
    (hlen : A.length = i + 1) (hj : i + 1 < B.length) (h : A <+: B) :
    prev B[i + 1] = hash A[i] := by
  obtain ⟨t, rfl⟩ := h
  rw [hB.linked i hj]
  congr 1
  exact List.getElem_append_left (by omega)

end Wicara.Lib.HashChain
