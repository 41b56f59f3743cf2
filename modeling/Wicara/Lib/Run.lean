import Mathlib.Logic.Relation

namespace Wicara.Lib.Run

universe u v

variable {σ : Type u} {α : Type v} {step : σ → α → σ}

/-- The state a deterministic system is in after a sequence of inputs. -/
def run (step : σ → α → σ) (s : σ) (as : List α) : σ := as.foldl step s

@[simp] theorem run_nil (s : σ) : run step s [] = s := rfl

@[simp] theorem run_cons (s : σ) (a : α) (as : List α) :
    run step s (a :: as) = run step (step s a) as := rfl

theorem run_append (s : σ) (as bs : List α) :
    run step s (as ++ bs) = run step (run step s as) bs := List.foldl_append

/-- `P` holds of every input of the run together with the state it arrives in. -/
def Along (step : σ → α → σ) (P : σ → α → Prop) : σ → List α → Prop
  | _, [] => True
  | s, a :: as => P s a ∧ Along step P (step s a) as

instance Along.decidable {P : σ → α → Prop} [∀ s a, Decidable (P s a)] :
    ∀ (s : σ) (as : List α), Decidable (Along step P s as)
  | _, [] => inferInstanceAs (Decidable True)
  | s, a :: as => @instDecidableAnd _ _ _ (decidable (step s a) as)

theorem Along.append {P : σ → α → Prop} {s : σ} {as bs : List α} :
    Along step P s (as ++ bs) ↔ Along step P s as ∧ Along step P (run step s as) bs := by
  induction as generalizing s with
  | nil => simp [Along]
  | cons a as ih => simp [Along, ih, and_assoc]

theorem Along.mono {P Q : σ → α → Prop} (h : ∀ s a, P s a → Q s a) {s : σ} {as : List α}
    (hs : Along step P s as) : Along step Q s as := by
  induction as generalizing s with
  | nil => trivial
  | cons a as ih => exact ⟨h _ _ hs.1, ih hs.2⟩

theorem along_of_forall {P : σ → α → Prop} (h : ∀ s a, P s a) (s : σ) (as : List α) :
    Along step P s as := by
  induction as generalizing s with
  | nil => trivial
  | cons a as ih => exact ⟨h s a, ih _⟩

theorem along_of_mem {P : α → Prop} {as : List α} (h : ∀ a ∈ as, P a) (s : σ) :
    Along step (fun _ => P) s as := by
  induction as generalizing s with
  | nil => trivial
  | cons a as ih => exact ⟨h a List.mem_cons_self, ih (fun b hb => h b (.tail _ hb)) _⟩

/-- What every step keeps, the run keeps. -/
theorem Along.invariant {P : σ → α → Prop} {Inv : σ → Prop}
    (hstep : ∀ s a, Inv s → P s a → Inv (step s a)) {s : σ} {as : List α} (h0 : Inv s)
    (h : Along step P s as) : Inv (run step s as) := by
  induction as generalizing s with
  | nil => exact h0
  | cons a as ih => exact ih (hstep s a h0 h.1) h.2

/-- What every step keeps whatever its input, every run keeps. -/
theorem run_invariant {Inv : σ → Prop} (hstep : ∀ s a, Inv s → Inv (step s a)) {s : σ}
    (h0 : Inv s) (as : List α) : Inv (run step s as) :=
  Along.invariant (P := fun _ _ => True) (fun s a h _ => hstep s a h) h0
    (along_of_forall (fun _ _ => trivial) s as)

/-- A step that may fail, and does not where the invariant holds, fails in no run. -/
theorem exists_foldlM {next : σ → α → Option σ} {Inv : σ → Prop}
    (hnext : ∀ s a, Inv s → ∃ s', next s a = some s' ∧ Inv s') {s : σ} (h0 : Inv s)
    (as : List α) : ∃ s', as.foldlM next s = some s' ∧ Inv s' := by
  induction as generalizing s with
  | nil => exact ⟨s, rfl, h0⟩
  | cons a as ih =>
    obtain ⟨s', hs', h'⟩ := hnext s a h0
    rw [List.foldlM_cons, hs']
    exact ih h'

theorem Along.and {P Q : σ → α → Prop} {s : σ} {as : List α} (hP : Along step P s as)
    (hQ : Along step Q s as) : Along step (fun s a => P s a ∧ Q s a) s as := by
  induction as generalizing s with
  | nil => trivial
  | cons a as ih => exact ⟨⟨hP.1, hQ.1⟩, ih hP.2 hQ.2⟩

/-- The same at every moment of the run. -/
theorem Along.throughout {P : σ → α → Prop} {Inv : σ → Prop}
    (hstep : ∀ s a, Inv s → P s a → Inv (step s a)) {s : σ} {as : List α} (h0 : Inv s)
    (h : Along step P s as) (n : Nat) : Inv (run step s (as.take n)) := by
  rw [← List.take_append_drop n as, Along.append] at h
  exact Along.invariant hstep h0 h.1

/-- An invariant of the run may be used at each of its steps. -/
theorem Along.of_invariant {P Q : σ → α → Prop} {Inv : σ → Prop}
    (hstep : ∀ s a, Inv s → P s a → Inv (step s a)) (hQ : ∀ s a, Inv s → P s a → Q s a) {s : σ}
    {as : List α} (h0 : Inv s) (h : Along step P s as) : Along step Q s as := by
  induction as generalizing s with
  | nil => trivial
  | cons a as ih => exact ⟨hQ s a h0 h.1, ih (hstep s a h0 h.1) h.2⟩

/-- Something holds in every state of a run exactly when `P` is true of each step, where a step
from a state in which it holds leads to one in which it does just when `P` says so.  `Q` is what
is known of the steps of the run. -/
theorem Along.iff_throughout_of {P Q : σ → α → Prop} {I G : σ → Prop}
    (hinv : ∀ s a, I s → Q s a → I (step s a))
    (hstep : ∀ s a, I s → Q s a → G s → (G (step s a) ↔ P s a)) {s : σ} {as : List α}
    (h0 : I s) (hs : G s) (hQ : Along step Q s as) :
    (∀ n, G (run step s (as.take n))) ↔ Along step P s as := by
  induction as generalizing s with
  | nil => simp [Along, hs]
  | cons a as ih =>
    have hnext := hstep s a h0 hQ.1 hs
    constructor
    · intro h
      have hG : G (step s a) := by simpa using h 1
      exact ⟨hnext.mp hG, (ih (hinv s a h0 hQ.1) hG hQ.2).mp fun n => by simpa using h (n + 1)⟩
    · rintro ⟨hP, h⟩ n
      cases n with
      | zero => exact hs
      | succ n => exact (ih (hinv s a h0 hQ.1) (hnext.mpr hP) hQ.2).mpr h n

/-- The same where nothing need be known of the steps. -/
theorem Along.iff_throughout {P : σ → α → Prop} {I G : σ → Prop}
    (hinv : ∀ s a, I s → I (step s a))
    (hstep : ∀ s a, I s → G s → (G (step s a) ↔ P s a)) {s : σ} {as : List α}
    (h0 : I s) (hs : G s) :
    (∀ n, G (run step s (as.take n))) ↔ Along step P s as :=
  Along.iff_throughout_of (Q := fun _ _ => True) (fun s a h _ => hinv s a h)
    (fun s a h _ => hstep s a h) h0 hs (along_of_forall (fun _ _ => trivial) s as)

end Wicara.Lib.Run
