import Wicara.Lib.Fallible
import Wicara.Lib.Run

namespace Wicara.Lib.Refinement

open Fallible Run

universe u

section Code

variable {ε σ τ α β : Type u} {f : σ → τ} {Inv : σ → Prop} {s : σ}

/-- From `s`, `m` does what `n` does from what `f` shows of `s`: it ends in the same way, and what
it leaves behind is shown the same.  `Inv` is what holds of every state on the way. -/
def Refines (f : σ → τ) (Inv : σ → Prop) (s : σ) (m : EStateM ε σ α) (n : EStateM ε τ α) : Prop :=
  wp m (fun a s' => Inv s' ∧ n.run (f s) = .ok a (f s'))
    (fun e s' => Inv s' ∧ n.run (f s) = .error e (f s')) s

theorem refines_pure (h : Inv s) (a : α) :
    Refines f Inv s (pure a : EStateM ε σ α) (pure a) := ⟨h, rfl⟩

theorem refines_throw (h : Inv s) (e : ε) :
    Refines f Inv s (throw e : EStateM ε σ α) (throw e) := ⟨h, rfl⟩

theorem refines_modify {g : σ → σ} {g' : τ → τ} (h : Inv (g s)) (hf : f (g s) = g' (f s)) :
    Refines f Inv s (modify g : EStateM ε σ PUnit) (modify g') :=
  ⟨h, congrArg (EStateM.Result.ok PUnit.unit) hf.symm⟩

theorem refines_lift (h : Inv s) (x : Except ε α) :
    Refines f Inv s (lift x : EStateM ε σ α) (lift x) := by
  cases x with
  | ok a => exact refines_pure h a
  | error e => exact refines_throw h e

theorem refines_attempt (h : Inv s) (outcome : Option ε) :
    Refines f Inv s (attempt outcome : EStateM ε σ PUnit) (attempt outcome) := by
  cases outcome with
  | none => exact refines_pure h PUnit.unit
  | some e => exact refines_throw h e

theorem Refines.bind {m : EStateM ε σ β} {n : EStateM ε τ β} {k : β → EStateM ε σ α}
    {l : β → EStateM ε τ α} (hm : Refines f Inv s m n)
    (hk : ∀ b s', Inv s' → m.run s = .ok b s' → Refines f Inv s' (k b) (l b)) :
    Refines f Inv s (m >>= k) (n >>= l) := by
  rcases wp_cases hm with ⟨b, s', hrun, hinv, hn⟩ | ⟨e, s', hrun, hinv, hn⟩
  · have hkl := hk b s' hinv hrun
    unfold Refines wp at hkl ⊢
    rw [EStateM.run_bind, hrun, EStateM.run_bind, hn]
    exact hkl
  · unfold Refines wp
    rw [EStateM.run_bind, hrun, EStateM.run_bind, hn]
    exact ⟨hinv, rfl⟩

/-- Each side reads its own state. -/
theorem refines_get {k : σ → EStateM ε σ α} {l : τ → EStateM ε τ α}
    (h : Refines f Inv s (k s) (l (f s))) : Refines f Inv s (get >>= k) (get >>= l) := h

theorem refines_get_left {k : σ → EStateM ε σ α} {n : EStateM ε τ α}
    (h : Refines f Inv s (k s) n) : Refines f Inv s (get >>= k) n := h

/-- What can go wrong here goes wrong there, in the same way. -/
theorem refines_lift_bind {x : Except ε β} {k : β → EStateM ε σ α} {n : EStateM ε τ α}
    (hok : ∀ b, x = .ok b → Refines f Inv s (k b) n)
    (herr : ∀ e, x = .error e → Inv s ∧ n.run (f s) = .error e (f s)) :
    Refines f Inv s (lift x >>= k) n := by
  cases x with
  | ok b => exact hok b rfl
  | error e => exact herr e rfl

theorem Refines.ignore {m : EStateM ε σ α} {n : EStateM ε τ α} (h : Refines f Inv s m n) :
    Refines f Inv s (ignore m) (ignore n) := by
  unfold Refines wp
  rw [run_ignore, run_ignore]
  rcases wp_cases h with ⟨a, s', hrun, hinv, hn⟩ | ⟨e, s', hrun, hinv, hn⟩ <;>
  · rw [after, after, hrun, hn]
    exact ⟨hinv, rfl⟩

theorem Refines.after {m : EStateM ε σ α} {n : EStateM ε τ α} (h : Refines f Inv s m n) :
    Inv (after m s) ∧ f (after m s) = after n (f s) ∧ succeeds m s = succeeds n (f s) := by
  unfold Fallible.after Fallible.succeeds
  rcases wp_cases h with ⟨a, s', hrun, hinv, hn⟩ | ⟨e, s', hrun, hinv, hn⟩ <;>
  · rw [hrun, hn]
    exact ⟨hinv, rfl, rfl⟩

end Code

section Runs

variable {σ τ α β : Type u} {step : σ → α → σ} {step' : τ → β → τ}

/-- The inputs of a run as another system is given them. -/
def translated (step : σ → α → σ) (g : σ → α → β) : σ → List α → List β
  | _, [] => []
  | s, a :: as => g s a :: translated step g (step s a) as

/-- What refines step by step refines in every run. -/
theorem run_refines {f : σ → τ} {g : σ → α → β} {Inv : σ → Prop} {P : σ → α → Prop}
    (hstep : ∀ s a, Inv s → P s a → Inv (step s a) ∧ f (step s a) = step' (f s) (g s a)) {s : σ}
    {as : List α} (h0 : Inv s) (h : Along step P s as) :
    Inv (run step s as) ∧ f (run step s as) = run step' (f s) (translated step g s as) := by
  induction as generalizing s with
  | nil => exact ⟨h0, rfl⟩
  | cons a as ih =>
    obtain ⟨hinv, heq⟩ := hstep s a h0 h.1
    rw [run_cons, translated, run_cons, ← heq]
    exact ih hinv h.2

end Runs

end Wicara.Lib.Refinement
