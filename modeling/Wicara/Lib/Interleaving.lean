import Mathlib.Data.List.Basic
import Mathlib.Data.List.Induction
import Mathlib.Data.Set.Basic
import Mathlib.Logic.Function.Iterate
import Wicara.Lib.Run

namespace Wicara.Lib.Interleaving

open Lib.Run

universe u v

/-- Tasks that work on one shared state. -/
structure Pool (σ : Type u) (τ : Type v) where
  shared : σ
  tasks : List τ

variable {σ : Type u} {τ : Type v} {advance : τ → σ → τ × σ}

namespace Pool

/-- One of the tasks runs its next section; nothing happens if there is no such task. -/
def step (advance : τ → σ → τ × σ) (p : Pool σ τ) (i : Nat) : Pool σ τ :=
  match p.tasks[i]? with
  | some t => ⟨(advance t p.shared).2, p.tasks.set i (advance t p.shared).1⟩
  | none => p

theorem step_of_some {p : Pool σ τ} {i : Nat} {t : τ} (h : p.tasks[i]? = some t) :
    p.step advance i = ⟨(advance t p.shared).2, p.tasks.set i (advance t p.shared).1⟩ := by
  simp [step, h]

theorem step_of_none {p : Pool σ τ} {i : Nat} (h : p.tasks[i]? = none) : p.step advance i = p := by
  simp [step, h]

theorem getElem?_step_self {p : Pool σ τ} {i : Nat} {t : τ} (h : p.tasks[i]? = some t) :
    (p.step advance i).tasks[i]? = some (advance t p.shared).1 := by
  obtain ⟨hi, -⟩ := List.getElem?_eq_some_iff.mp h
  simp [step_of_some h, hi]

/-- The other tasks stay where they are. -/
theorem getElem?_step_of_ne {p : Pool σ τ} {i j : Nat} (h : i ≠ j) :
    (p.step advance i).tasks[j]? = p.tasks[j]? := by
  cases hi : p.tasks[i]? with
  | none => rw [step_of_none hi]
  | some t => simp [step_of_some hi, h]

/-- A task that is not scheduled stays where it is. -/
theorem getElem?_run_of_not_mem {p : Pool σ τ} {j : Nat} {schedule : List Nat}
    (h : j ∉ schedule) : (run (Pool.step advance) p schedule).tasks[j]? = p.tasks[j]? := by
  induction schedule generalizing p with
  | nil => rfl
  | cons i schedule ih =>
    rw [List.mem_cons, not_or] at h
    rw [run_cons, ih h.2, getElem?_step_of_ne (Ne.symm h.1)]

/-- `I` holds of the shared state, and `L` of every task as it stands. -/
structure Holds (I : σ → Prop) (L : τ → σ → Prop) (p : Pool σ τ) : Prop where
  shared : I p.shared
  tasks : ∀ (i : Nat) t, p.tasks[i]? = some t → L t p.shared

/-- The step rule: a section keeps its own assertion, and it does not interfere with the
assertion of any other task.  `P` is what is known of the section that is taken. -/
theorem Holds.step {I : σ → Prop} {L : τ → σ → Prop} {P : τ → τ → σ → Prop} {p : Pool σ τ}
    {i : Nat}
    (own : ∀ t s, P t t s → I s → L t s → I (advance t s).2 ∧ L (advance t s).1 (advance t s).2)
    (others : ∀ t u s, P t u s → L u s → L u (advance t s).2)
    (h : p.Holds I L)
    (hP : ∀ t (j : Nat) u, p.tasks[i]? = some t → p.tasks[j]? = some u → P t u p.shared) :
    (p.step advance i).Holds I L := by
  cases hi : p.tasks[i]? with
  | none => rwa [step_of_none hi]
  | some t =>
    have ht := own t p.shared (hP t i t hi hi) h.shared (h.tasks i t hi)
    constructor
    · rw [step_of_some hi]
      exact ht.1
    · intro j u hu
      by_cases hij : i = j
      · subst hij
        rw [getElem?_step_self hi, Option.some.injEq] at hu
        rw [step_of_some hi, ← hu]
        exact ht.2
      · rw [getElem?_step_of_ne hij] at hu
        rw [step_of_some hi]
        exact others t u p.shared (hP t j u hi hu) (h.tasks j u hu)

/-- As `Holds`, and `A` holds of any two of the tasks. -/
structure HoldsApart (I : σ → Prop) (L : τ → σ → Prop) (A : τ → τ → Prop) (p : Pool σ τ) : Prop
    extends p.Holds I L where
  apart : ∀ (i j : Nat) t u, i ≠ j → p.tasks[i]? = some t → p.tasks[j]? = some u → A t u

/-- The step rule where a section leaves the assertions of the others alone because of what keeps
the two tasks apart.  `P` is what is known of the section that is taken, and `Q` what is known of
it beside another task. -/
theorem HoldsApart.step {I : σ → Prop} {L : τ → σ → Prop} {A : τ → τ → Prop} {P : τ → σ → Prop}
    {Q : τ → τ → Prop} {p : Pool σ τ} {i : Nat} (symm : ∀ t u, A t u → A u t)
    (own : ∀ t s, P t s → I s → L t s → I (advance t s).2 ∧ L (advance t s).1 (advance t s).2)
    (others : ∀ t u s, Q t u → A t u → L t s → L u s →
      L u (advance t s).2 ∧ A (advance t s).1 u)
    (h : p.HoldsApart I L A) (hP : ∀ t, p.tasks[i]? = some t → P t p.shared)
    (hQ : ∀ (j : Nat) t u, i ≠ j → p.tasks[i]? = some t → p.tasks[j]? = some u → Q t u) :
    (p.step advance i).HoldsApart I L A := by
  cases hi : p.tasks[i]? with
  | none => rwa [step_of_none hi]
  | some t =>
    have hown := own t p.shared (hP t hi) h.shared (h.tasks i t hi)
    have hothers : ∀ (j : Nat) u, i ≠ j → p.tasks[j]? = some u →
        L u (advance t p.shared).2 ∧ A (advance t p.shared).1 u := fun j u hij hu =>
      others t u p.shared (hQ j t u hij hi hu) (h.apart i j t u hij hi hu) (h.tasks i t hi)
        (h.tasks j u hu)
    have hself : ∀ u, (p.step advance i).tasks[i]? = some u → u = (advance t p.shared).1 := by
      intro u hu
      rw [getElem?_step_self hi] at hu
      exact (Option.some.inj hu).symm
    have hshared : (p.step advance i).shared = (advance t p.shared).2 := by rw [step_of_some hi]
    refine ⟨⟨hshared ▸ hown.1, fun j u hu => ?_⟩, fun j k u w hjk hu hw => ?_⟩
    · rw [hshared]
      by_cases hij : i = j
      · subst hij
        exact hself u hu ▸ hown.2
      · exact (hothers j u hij (getElem?_step_of_ne hij ▸ hu)).1
    · by_cases hij : i = j
      · subst hij
        exact hself u hu ▸ (hothers k w hjk (getElem?_step_of_ne hjk ▸ hw)).2
      rw [getElem?_step_of_ne hij] at hu
      by_cases hik : i = k
      · subst hik
        exact hself w hw ▸ symm _ _ (hothers j u hij hu).2
      · exact h.apart j k u w hjk hu (getElem?_step_of_ne hik ▸ hw)

/-- The sections of a run: which task took each of them, and from which state. -/
def Taken (advance : τ → σ → τ × σ) (p : Pool σ τ) (schedule : List Nat) : Set (τ × σ) :=
  {x | ∃ n i, schedule[n]? = some i ∧
    (run (Pool.step advance) p (schedule.take n)).tasks[i]? = some x.1 ∧
    x.2 = (run (Pool.step advance) p (schedule.take n)).shared}

variable (advance) in
theorem taken_subset (p : Pool σ τ) (schedule : List Nat) (i : Nat) :
    p.Taken advance schedule ⊆ p.Taken advance (schedule ++ [i]) := by
  rintro x ⟨n, j, hj, hx⟩
  have hn : n < schedule.length := (List.getElem?_eq_some_iff.mp hj).choose
  refine ⟨n, j, ?_, ?_⟩
  · rw [List.getElem?_append_left hn, hj]
  · rwa [List.take_append_of_le_length hn.le]

theorem mem_taken {p : Pool σ τ} {schedule : List Nat} {i : Nat} {t : τ}
    (h : (run (Pool.step advance) p schedule).tasks[i]? = some t) :
    (t, (run (Pool.step advance) p schedule).shared) ∈ p.Taken advance (schedule ++ [i]) := by
  refine ⟨schedule.length, i, List.getElem?_concat_length, ?_⟩
  rw [List.take_append_of_le_length (Nat.le_refl _), List.take_length]
  exact ⟨h, rfl⟩

variable (advance) in
/-- The run rule for assertions that may speak of the sections that were taken. -/
theorem Holds.run_taken {I : Set (τ × σ) → σ → Prop} {L : Set (τ × σ) → τ → σ → Prop}
    (shared_mono : ∀ S S' s, S ⊆ S' → I S s → I S' s)
    (tasks_mono : ∀ S S' t s, S ⊆ S' → L S t s → L S' t s)
    (own : ∀ S t s, (t, s) ∈ S → I S s → L S t s →
      I S (advance t s).2 ∧ L S (advance t s).1 (advance t s).2)
    (others : ∀ S t u s, (t, s) ∈ S → L S u s → L S u (advance t s).2) {p : Pool σ τ}
    (h : p.Holds (I ∅) (L ∅)) (schedule : List Nat) :
    (run (Pool.step advance) p schedule).Holds (I (p.Taken advance schedule))
      (L (p.Taken advance schedule)) := by
  induction schedule using List.reverseRecOn with
  | nil =>
    exact ⟨shared_mono _ _ _ (Set.empty_subset _) h.shared,
      fun i t ht => tasks_mono _ _ _ _ (Set.empty_subset _) (h.tasks i t ht)⟩
  | append_singleton schedule i ih =>
    have hpast := taken_subset advance p schedule i
    rw [run_append, run_cons, run_nil]
    refine Holds.step (P := fun t _ s => (t, s) ∈ p.Taken advance (schedule ++ [i]))
      (own _) (others _) ?_ fun t _ _ ht _ => mem_taken ht
    exact ⟨shared_mono _ _ _ hpast ih.shared,
      fun j t ht => tasks_mono _ _ _ _ hpast (ih.tasks j t ht)⟩

end Pool

/-- A task on its own, for so many sections. -/
def alone (advance : τ → σ → τ × σ) : Nat → τ → σ → τ × σ
  | 0, t, s => (t, s)
  | n + 1, t, s => alone advance n (advance t s).1 (advance t s).2

/-- Several sections of one task with nothing in between. -/
theorem run_replicate (k : Nat) (p : Pool σ τ) (i : Nat) :
    run (Pool.step advance) p (List.replicate k i) = p.step (alone advance k) i := by
  induction k generalizing p with
  | zero =>
    cases hi : p.tasks[i]? with
    | none => rw [Pool.step_of_none hi, List.replicate_zero, run_nil]
    | some t =>
      obtain ⟨h, rfl⟩ := List.getElem?_eq_some_iff.mp hi
      simp [Pool.step_of_some hi, alone]
  | succ k ih =>
    rw [List.replicate_succ, run_cons, ih]
    cases hi : p.tasks[i]? with
    | none => rw [Pool.step_of_none hi, Pool.step_of_none hi, Pool.step_of_none hi]
    | some t =>
      rw [Pool.step_of_some (Pool.getElem?_step_self hi), Pool.step_of_some hi,
        Pool.step_of_some hi, List.set_set, alone]

/-- Tasks that are each left alone for `k` sections take their turns as wholes. -/
theorem run_flatMap_replicate (k : Nat) (p : Pool σ τ) (schedule : List Nat) :
    run (Pool.step advance) p (schedule.flatMap (List.replicate k)) =
      run (Pool.step (alone advance k)) p schedule := by
  induction schedule generalizing p with
  | nil => rfl
  | cons i schedule ih => rw [List.flatMap_cons, run_append, run_replicate, ih, run_cons]

/-- One section of each task, in their order. -/
def round (advance : τ → σ → τ × σ) : List τ → σ → List τ × σ
  | [], s => ([], s)
  | t :: ts, s =>
    let rest := round advance ts (advance t s).2
    ((advance t s).1 :: rest.1, rest.2)

theorem round_append_snd (ts us : List τ) (s : σ) :
    (round advance (ts ++ us) s).2 = (round advance us (round advance ts s).2).2 := by
  induction ts generalizing s with
  | nil => rfl
  | cons t ts ih => exact ih _

theorem run_range' (done ts : List τ) (s : σ) :
    run (Pool.step advance) ⟨s, done ++ ts⟩ (List.range' done.length ts.length) =
      ⟨(round advance ts s).2, done ++ (round advance ts s).1⟩ := by
  induction ts generalizing done s with
  | nil => rfl
  | cons t ts ih =>
    have ht : (done ++ t :: ts)[done.length]? = some t := by simp
    have hset : (done ++ t :: ts).set done.length (advance t s).1 =
        (done ++ [(advance t s).1]) ++ ts := by simp
    have hrest := ih (done ++ [(advance t s).1]) (advance t s).2
    rw [List.length_append, List.length_singleton] at hrest
    rw [List.length_cons, List.range'_succ, run_cons, Pool.step_of_some ht, hset, hrest]
    simp [round]

/-- A schedule that goes through the pool once. -/
theorem run_round (ts : List τ) (s : σ) :
    run (Pool.step advance) ⟨s, ts⟩ (List.range ts.length) =
      ⟨(round advance ts s).2, (round advance ts s).1⟩ := by
  rw [List.range_eq_range']
  exact run_range' [] ts s

theorem shared_run_round (ts : List τ) (s : σ) :
    (run (Pool.step advance) ⟨s, ts⟩ (List.range ts.length)).shared = (round advance ts s).2 := by
  rw [run_round]

/-- Tasks that are all alike do the same one after the other, as long as `I` lets them. -/
theorem round_replicate {I : Nat → σ → Prop} {t t' : τ} {f : σ → σ}
    (h : ∀ n s, I (n + 1) s → advance t s = (t', f s) ∧ I n (f s)) {n : Nat} {s : σ}
    (hs : I n s) : round advance (List.replicate n t) s = (List.replicate n t', f^[n] s) := by
  induction n generalizing s with
  | zero => rfl
  | succ n ih =>
    obtain ⟨hstep, hnext⟩ := h n s hs
    rw [List.replicate_succ, round, hstep, ih hnext]
    rfl

theorem run_round_replicate {I : Nat → σ → Prop} {t t' : τ} {f : σ → σ}
    (h : ∀ n s, I (n + 1) s → advance t s = (t', f s) ∧ I n (f s)) {n : Nat} {s : σ}
    (hs : I n s) :
    run (Pool.step advance) ⟨s, List.replicate n t⟩ (List.range n) =
      ⟨f^[n] s, List.replicate n t'⟩ := by
  have hround : run (Pool.step advance) ⟨s, List.replicate n t⟩ (List.range _) = _ :=
    run_round (List.replicate n t) s
  rw [List.length_replicate, round_replicate h hs] at hround
  exact hround

/-- What every section leaves of a task's meaning is still its meaning. -/
theorem alone_meaning {ρ : Type*} (meaning : τ → σ → ρ)
    (h : ∀ t s, meaning t s = meaning (advance t s).1 (advance t s).2) (n : Nat) (t : τ) (s : σ) :
    meaning t s = meaning (alone advance n t s).1 (alone advance n t s).2 := by
  induction n generalizing t s with
  | zero => rfl
  | succ n ih => exact (h t s).trans (ih _ _)

/-- A task whose sections count down is through after so many. -/
theorem alone_finishes (left : τ → Nat) (h : ∀ t s, left (advance t s).1 ≤ left t - 1) {n : Nat}
    {t : τ} (hn : left t ≤ n) (s : σ) : left (alone advance n t s).1 = 0 := by
  induction n generalizing t s with
  | zero => exact Nat.le_zero.mp hn
  | succ n ih =>
    refine ih ?_ _
    have := h t s
    omega

end Wicara.Lib.Interleaving
