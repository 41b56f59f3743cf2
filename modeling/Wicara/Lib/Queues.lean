import Mathlib.Data.List.Basic
import Mathlib.Logic.Function.Basic

namespace Wicara.Lib.Queues

universe u v w

variable {ι : Type u} {ρ : Type v} {α : Type w} [DecidableEq ι]

/-- One queue for each index: something new goes to the end of one of them. -/
def push (i : ι) (a : α) (q : ι → List α) : ι → List α := Function.update q i (q i ++ [a])

/-- What is not kept leaves its queue, and the rest moves up. -/
def sift (keep : ι → α → Bool) (q : ι → List α) : ι → List α := fun i => (q i).filter (keep i)

theorem push_self (i : ι) (a : α) (q : ι → List α) : push i a q i = q i ++ [a] :=
  Function.update_self i _ q

theorem push_of_ne {i j : ι} (h : j ≠ i) (a : α) (q : ι → List α) : push i a q j = q j :=
  Function.update_of_ne h _ q

omit [DecidableEq ι] in
theorem sift_of_forall {keep : ι → α → Bool} {i : ι} (h : ∀ a, keep i a = true)
    (q : ι → List α) : sift keep q i = q i :=
  List.filter_eq_self.mpr fun a _ => h a

/-- Queues that share one list of rows; a row that cannot be read is in none of them. -/
def ofRows (index : ρ → ι) (read : ρ → Option α) (rows : List ρ) (i : ι) : List α :=
  (rows.filter fun r => index r = i).filterMap read

variable {index : ρ → ι} {read : ρ → Option α}

theorem ofRows_append_row (rows : List ρ) {r : ρ} {a : α} (h : read r = some a) :
    ofRows index read (rows ++ [r]) = push (index r) a (ofRows index read rows) := by
  funext i
  rw [ofRows, List.filter_append, List.filterMap_append]
  by_cases hi : i = index r
  · subst hi
    rw [push_self]
    simp [ofRows, h]
  · rw [push_of_ne hi]
    simp [ofRows, Ne.symm hi]

/-- A condition on the rows that can be read off what is read of them. -/
theorem ofRows_filter (rows : List ρ) {p : ρ → Bool} {keep : ι → α → Bool}
    (h : ∀ r a, read r = some a → p r = keep (index r) a) :
    ofRows index read (rows.filter p) = sift keep (ofRows index read rows) := by
  funext i
  rw [sift, ofRows, ofRows, List.filter_comm, List.filterMap_filter, List.filter_filterMap]
  refine List.filterMap_congr fun r hr => ?_
  have hi : index r = i := of_decide_eq_true (List.mem_filter.mp hr).2
  cases hread : read r with
  | none => simp
  | some a => simp [h r a hread, hi, Option.filter]

end Wicara.Lib.Queues
