import Mathlib.Data.Set.Insert
import Mathlib.Logic.Relation

namespace Wicara.Lib

universe u v

/-- What each of some parties has written, and what each holds of all that was written. -/
structure Replicas (ι : Type u) (ε : Type v) where
  written : ι → Set ε
  held : ι → Set ε

namespace Replicas

variable {ι : Type u} {ε : Type v}

def empty : Replicas ι ε := ⟨fun _ => ∅, fun _ => ∅⟩

/-- Only `i` has come to hold something more. -/
def Gains (i : ι) (e : ε) (r r' : Replicas ι ε) : Prop :=
  r'.held i = insert e (r.held i) ∧ ∀ j, j ≠ i → r'.held j = r.held j

/-- An entry is written by one of the parties, or comes to one as it was written by another. -/
inductive Step (r r' : Replicas ι ε) : Prop
  | stay (h : r' = r)
  | write (i : ι) (e : ε) (hheld : Gains i e r r')
      (hwritten : r'.written i = insert e (r.written i) ∧ ∀ j, j ≠ i → r'.written j = r.written j)
  | copy (i j : ι) (e : ε) (he : e ∈ r.written j) (hheld : Gains i e r r')
      (hwritten : r'.written = r.written)

/-- Everyone holds what it has written itself, and nobody holds what nobody has written. -/
structure Sound (r : Replicas ι ε) : Prop where
  own : ∀ i, r.written i ⊆ r.held i
  source : ∀ i, ∀ e ∈ r.held i, ∃ j, e ∈ r.written j

variable {r r' : Replicas ι ε}

theorem Gains.subset {i : ι} {e : ε} (h : Gains i e r r') (j : ι) : r.held j ⊆ r'.held j := by
  by_cases hj : j = i
  · subst hj
    rw [h.1]
    exact Set.subset_insert _ _
  · rw [h.2 j hj]

theorem Gains.mem {i j : ι} {e e' : ε} (h : Gains i e r r') (he : e' ∈ r'.held j) :
    e' ∈ r.held j ∨ j = i ∧ e' = e := by
  by_cases hj : j = i
  · subst hj
    rw [h.1, Set.mem_insert_iff] at he
    exact he.symm.imp_right fun heq => ⟨rfl, heq⟩
  · rw [h.2 j hj] at he
    exact .inl he

theorem Sound.step (h : r.Sound) (hstep : Step r r') : r'.Sound := by
  cases hstep with
  | stay heq => rwa [heq]
  | write i e hheld hwritten =>
    have hmine : e ∈ r'.written i := by
      rw [hwritten.1]
      exact Set.mem_insert _ _
    refine ⟨fun j e' he => ?_, fun j e' he => ?_⟩
    · by_cases hj : j = i
      · subst hj
        rw [hwritten.1, Set.mem_insert_iff] at he
        rw [hheld.1]
        exact he.imp_right fun hold => h.own _ hold
      · rw [hwritten.2 j hj] at he
        exact hheld.subset j (h.own j he)
    · obtain hold | ⟨rfl, rfl⟩ := hheld.mem he
      · obtain ⟨k, hk⟩ := h.source j e' hold
        by_cases hki : k = i
        · subst hki
          refine ⟨k, ?_⟩
          rw [hwritten.1]
          exact Set.mem_insert_of_mem _ hk
        · exact ⟨k, by rwa [hwritten.2 k hki]⟩
      · exact ⟨j, hmine⟩
  | copy i j e he hheld hwritten =>
    refine ⟨fun k => ?_, fun k e' he' => ?_⟩
    · rw [hwritten]
      exact (h.own k).trans (hheld.subset k)
    · rw [hwritten]
      obtain hold | ⟨-, rfl⟩ := hheld.mem he'
      · exact h.source k e' hold
      · exact ⟨j, he⟩

theorem Sound.steps (h : r.Sound) (hsteps : Relation.ReflTransGen Step r r') : r'.Sound := by
  induction hsteps with
  | refl => exact h
  | tail _ hstep ih => exact ih.step hstep

end Replicas

end Wicara.Lib
