import Mathlib.Init

universe u

namespace Wicara.Lib.Fallible

variable {ε σ τ α β : Type u}

/-- What holds once `m` has run from `s`: `ok` when it returns, `err` when it fails.  A
failure keeps what was written before it. -/
def wp (m : EStateM ε σ α) (ok : α → σ → Prop) (err : ε → σ → Prop) (s : σ) : Prop :=
  match m.run s with
  | .ok a s' => ok a s'
  | .error e s' => err e s'

/-- The state `m` leaves behind, whichever way it ends. -/
def after (m : EStateM ε σ α) (s : σ) : σ :=
  match m.run s with
  | .ok _ s' => s'
  | .error _ s' => s'

def succeeds (m : EStateM ε σ α) (s : σ) : Bool :=
  match m.run s with
  | .ok _ _ => true
  | .error _ _ => false

/-- `?` on a pure result. -/
def lift (x : Except ε α) : EStateM ε σ α :=
  match x with
  | .ok a => pure a
  | .error e => throw e

/-- A call out of the program, and what it says when it fails. -/
def attempt (outcome : Option ε) : EStateM ε σ PUnit :=
  match outcome with
  | none => pure .unit
  | some e => throw e

/-- Code that works on one part of the state. -/
def zoom (get : σ → τ) (set : τ → σ → σ) (m : EStateM ε τ α) : EStateM ε σ α := fun s =>
  match m.run (get s) with
  | .ok a t => .ok a (set t s)
  | .error e t => .error e (set t s)

/-- `let _ = …`, or an error that is only logged. -/
def ignore (m : EStateM ε σ α) : EStateM ε σ PUnit := fun s =>
  match m.run s with
  | .ok _ s' => .ok .unit s'
  | .error _ s' => .ok .unit s'

/-- `match … { Ok(…) => …, Err(err) => … }`: what was written before the error stays. -/
def rescue (m : EStateM ε σ α) (handle : ε → EStateM ε σ α) : EStateM ε σ α := fun s =>
  match m.run s with
  | .ok a s' => .ok a s'
  | .error e s' => (handle e).run s'

variable {ok : α → σ → Prop} {err : ε → σ → Prop} {s : σ}

theorem wp_iff {m : EStateM ε σ α} :
    wp m ok err s ↔
      (∀ a s', m.run s = .ok a s' → ok a s') ∧ ∀ e s', m.run s = .error e s' → err e s' := by
  unfold wp
  cases m.run s <;> simp

/-- A run ends in one of two ways, and what is known of it then. -/
theorem wp_cases {m : EStateM ε σ α} (h : wp m ok err s) :
    (∃ a s', m.run s = .ok a s' ∧ ok a s') ∨ ∃ e s', m.run s = .error e s' ∧ err e s' := by
  unfold wp at h
  cases hm : m.run s with
  | ok a s' =>
    rw [hm] at h
    exact .inl ⟨a, s', rfl, h⟩
  | error e s' =>
    rw [hm] at h
    exact .inr ⟨e, s', rfl, h⟩

theorem wp_mono {ok' : α → σ → Prop} {err' : ε → σ → Prop} {m : EStateM ε σ α}
    (hok : ∀ a s', ok a s' → ok' a s') (herr : ∀ e s', err e s' → err' e s')
    (h : wp m ok err s) : wp m ok' err' s := by
  unfold wp
  rcases wp_cases h with ⟨a, s', hm, h⟩ | ⟨e, s', hm, h⟩
  · rw [hm]
    exact hok a s' h
  · rw [hm]
    exact herr e s' h

theorem wp_of_forall {m : EStateM ε σ α} (hok : ∀ a s', ok a s') (herr : ∀ e s', err e s') :
    wp m ok err s :=
  wp_iff.mpr ⟨fun a s' _ => hok a s', fun e s' _ => herr e s'⟩

theorem succeeds_iff {m : EStateM ε σ α} :
    succeeds m s = true ↔ wp m (fun _ _ => True) (fun _ _ => False) s := by
  unfold succeeds wp
  cases m.run s <;> simp

theorem run_of_succeeds {m : EStateM ε σ PUnit} (h : succeeds m s = true) :
    m.run s = .ok .unit (after m s) := by
  unfold succeeds at h
  unfold after
  cases hm : m.run s with
  | ok a s' => rfl
  | error e s' => simp [hm] at h

theorem run_of_not_succeeds {m : EStateM ε σ α} (h : succeeds m s = false) :
    ∃ e, m.run s = .error e (after m s) := by
  unfold succeeds at h
  unfold after
  cases hm : m.run s with
  | ok a s' => simp [hm] at h
  | error e s' => exact ⟨e, rfl⟩

theorem run'_eq_some {m : EStateM ε σ α} {a : α} :
    m.run' s = some a ↔ ∃ s', m.run s = .ok a s' := by
  change (match m.run s with
    | .ok a _ => some a
    | .error _ _ => none) = _ ↔ _
  cases m.run s <;> simp

theorem run_ignore (m : EStateM ε σ α) (s : σ) : (ignore m).run s = .ok .unit (after m s) := by
  unfold ignore after
  simp only [EStateM.run]
  cases m s <;> rfl

@[simp] theorem after_ignore (m : EStateM ε σ α) (s : σ) : after (ignore m) s = after m s := by
  rw [after, run_ignore]

/-- Reading the state a second time gives the same when nothing wrote in between. -/
theorem get_lift_get (x : σ → Except ε α) (f : σ → EStateM ε σ β) :
    (do let s ← get; let _ ← lift (x s); let s ← get; f s) =
      (do let s ← get; let _ ← lift (x s); f s : EStateM ε σ β) := by
  funext s
  change (lift (x s) >>= fun _ => get >>= f) s = (lift (x s) >>= fun _ => f s) s
  cases x s <;> rfl

/-- A condition on the state left behind does not ask how the code ended. -/
theorem wp_after {m : EStateM ε σ α} {P : σ → Prop} :
    wp m (fun _ => P) (fun _ => P) s ↔ P (after m s) := by
  unfold wp after
  cases m.run s <;> rfl

@[simp] theorem after_bind_pure (m : EStateM ε σ β) (f : β → α) (s : σ) :
    after (m >>= fun b => pure (f b)) s = after m s := by
  unfold after
  rw [EStateM.run_bind]
  cases m.run s <;> rfl

@[simp] theorem wp_pure (a : α) : wp (pure a) ok err s ↔ ok a s := Iff.rfl

@[simp] theorem wp_throw (e : ε) : wp (throw e) ok err s ↔ err e s := Iff.rfl

@[simp] theorem wp_bind {m : EStateM ε σ β} {f : β → EStateM ε σ α} :
    wp (m >>= f) ok err s ↔ wp m (fun b s' => wp (f b) ok err s') err s := by
  unfold wp
  rw [EStateM.run_bind]
  cases m.run s <;> rfl

/-- What is left of the whole once its first part has run. -/
theorem wp_run_bind (m : EStateM ε σ β) (f : β → EStateM ε σ α) (s : σ) :
    wp m (fun b s' => (m >>= f).run s = (f b).run s')
      (fun e s' => (m >>= f).run s = .error e s') s := by
  unfold wp
  rw [EStateM.run_bind]
  cases m.run s <;> rfl

@[simp] theorem wp_get {ok : σ → σ → Prop} : wp get ok err s ↔ ok s s := Iff.rfl

@[simp] theorem wp_modify {ok : PUnit → σ → Prop} (f : σ → σ) :
    wp (modify f) ok err s ↔ ok .unit (f s) := Iff.rfl

@[simp] theorem wp_ite {p : Prop} [Decidable p] {m n : EStateM ε σ α} :
    wp (if p then m else n) ok err s ↔ (p → wp m ok err s) ∧ (¬p → wp n ok err s) := by
  by_cases h : p <;> simp [h]

@[simp] theorem wp_lift {x : Except ε α} :
    wp (lift x) ok err s ↔ (∀ a, x = .ok a → ok a s) ∧ ∀ e, x = .error e → err e s := by
  cases x <;> simp [lift]

@[simp] theorem wp_attempt {ok : PUnit → σ → Prop} {outcome : Option ε} :
    wp (attempt outcome) ok err s ↔
      (outcome = none → ok .unit s) ∧ ∀ e, outcome = some e → err e s := by
  cases outcome <;> simp [attempt]

@[simp] theorem wp_zoom {get : σ → τ} {set : τ → σ → σ} {m : EStateM ε τ α} :
    wp (zoom get set m) ok err s ↔
      wp m (fun a t => ok a (set t s)) (fun e t => err e (set t s)) (get s) := by
  simp only [wp, zoom, EStateM.run]
  cases m (get s) <;> rfl

theorem after_zoom (get : σ → τ) (set : τ → σ → σ) (m : EStateM ε τ α) (s : σ) :
    after (zoom get set m) s = set (after m (get s)) s := by
  simp only [after, zoom, EStateM.run]
  cases m (get s) <;> rfl

/-- Working on one part of the state twice is working on it once. -/
theorem zoom_bind {get : σ → τ} {set : τ → σ → σ} (hget : ∀ t s, get (set t s) = t)
    (hset : ∀ t t' s, set t' (set t s) = set t' s) (m : EStateM ε τ β)
    (f : β → EStateM ε τ α) :
    zoom get set (m >>= f) = zoom get set m >>= fun b => zoom get set (f b) := by
  funext s
  simp only [zoom, EStateM.run, bind, EStateM.bind]
  cases m (get s) with
  | error e t => rfl
  | ok b t =>
    simp only [hget]
    cases f b t <;> simp only [hset]

theorem zoom_lift {get : σ → τ} {set : τ → σ → σ} (h : ∀ s, set (get s) s = s)
    (x : Except ε α) : zoom get set (lift x) = lift x := by
  funext s
  cases x with
  | ok a => exact congrArg (EStateM.Result.ok a) (h s)
  | error e => exact congrArg (EStateM.Result.error e) (h s)

@[simp] theorem wp_ignore {ok : PUnit → σ → Prop} {m : EStateM ε σ α} :
    wp (ignore m) ok err s ↔ ok .unit (after m s) := by
  simp only [wp, ignore, after, EStateM.run]
  cases m s <;> rfl

@[simp] theorem wp_rescue {m : EStateM ε σ α} {handle : ε → EStateM ε σ α} :
    wp (rescue m handle) ok err s ↔ wp m ok (fun e s' => wp (handle e) ok err s') s := by
  unfold wp rescue
  simp only [EStateM.run]
  cases m s <;> rfl

section Frames

variable {f : σ → γ}

/-- `m` leaves alone what `f` looks at, whichever way it ends. -/
def Frames (f : σ → γ) (m : EStateM ε σ α) : Prop := ∀ s, f (after m s) = f s

theorem frames_iff {m : EStateM ε σ α} :
    Frames f m ↔ ∀ s, wp m (fun _ s' => f s' = f s) (fun _ s' => f s' = f s) s :=
  forall_congr' fun s => (wp_after (P := fun s' => f s' = f s)).symm

theorem Frames.wp {m : EStateM ε σ α} (h : Frames f m) (s : σ) :
    wp m (fun _ s' => f s' = f s) (fun _ s' => f s' = f s) s :=
  frames_iff.mp h s

theorem frames_pure (a : α) : Frames f (pure a : EStateM ε σ α) := fun _ => rfl

theorem frames_get : Frames f (get : EStateM ε σ σ) := fun _ => rfl

theorem frames_modify {g : σ → σ} (h : ∀ s, f (g s) = f s) :
    Frames f (modify g : EStateM ε σ PUnit) := h

theorem frames_lift (x : Except ε α) : Frames f (lift x : EStateM ε σ α) := by
  cases x <;> exact fun _ => rfl

theorem frames_attempt (outcome : Option ε) : Frames f (attempt outcome : EStateM ε σ PUnit) := by
  cases outcome <;> exact fun _ => rfl

theorem Frames.bind {m : EStateM ε σ β} {k : β → EStateM ε σ α} (hm : Frames f m)
    (hk : ∀ b, Frames f (k b)) : Frames f (m >>= k) := by
  rw [frames_iff]
  intro s
  rw [wp_bind]
  refine wp_mono (fun b s' h => ?_) (fun _ _ h => h) (hm.wp s)
  exact wp_mono (fun _ _ h' => h'.trans h) (fun _ _ h' => h'.trans h) ((hk b).wp s')

theorem Frames.ite {p : Prop} [Decidable p] {m n : EStateM ε σ α} (hm : Frames f m)
    (hn : Frames f n) : Frames f (if p then m else n) := by
  split
  · exact hm
  · exact hn

theorem frames_zoom {get : σ → τ} {set : τ → σ → σ} {m : EStateM ε τ α}
    (h : ∀ s, f (set (after m (get s)) s) = f s) : Frames f (zoom get set m) := by
  intro s
  rw [after_zoom]
  exact h s

theorem Frames.ignore {m : EStateM ε σ α} (h : Frames f m) : Frames f (ignore m) := by
  rw [frames_iff]
  intro s
  rw [wp_ignore]
  exact h s

theorem Frames.rescue {m : EStateM ε σ α} {handle : ε → EStateM ε σ α} (hm : Frames f m)
    (hh : ∀ e, Frames f (handle e)) : Frames f (rescue m handle) := by
  rw [frames_iff]
  intro s
  rw [wp_rescue]
  refine wp_mono (fun _ _ h => h) (fun e s' h => ?_) (hm.wp s)
  exact wp_mono (fun _ _ h' => h'.trans h) (fun _ _ h' => h'.trans h) ((hh e).wp s')

end Frames

section Moves

variable {R : σ → σ → Prop}

/-- `m` goes from every state to one that `R` relates to it, whichever way it ends. -/
def Moves (R : σ → σ → Prop) (m : EStateM ε σ α) : Prop := ∀ s, R s (after m s)

theorem moves_iff {m : EStateM ε σ α} :
    Moves R m ↔ ∀ s, wp m (fun _ => R s) (fun _ => R s) s :=
  forall_congr' fun _ => wp_after.symm

theorem Moves.wp {m : EStateM ε σ α} (h : Moves R m) (s : σ) :
    wp m (fun _ => R s) (fun _ => R s) s :=
  moves_iff.mp h s

theorem moves_modify {g : σ → σ} (h : ∀ s, R s (g s)) : Moves R (modify g : EStateM ε σ PUnit) := h

theorem Moves.ite {p : Prop} [Decidable p] {m n : EStateM ε σ α} (hm : Moves R m)
    (hn : Moves R n) : Moves R (if p then m else n) := by
  split
  · exact hm
  · exact hn

theorem Moves.ignore {m : EStateM ε σ α} (h : Moves R m) : Moves R (ignore m) := by
  rw [moves_iff]
  intro s
  rw [wp_ignore]
  exact h s

theorem moves_zoom {get : σ → τ} {set : τ → σ → σ} {m : EStateM ε τ α}
    (h : ∀ s, R s (set (after m (get s)) s)) : Moves R (zoom get set m) := by
  intro s
  rw [after_zoom]
  exact h s

variable [Std.Refl R]

theorem moves_pure (a : α) : Moves R (pure a : EStateM ε σ α) := fun s => Std.Refl.refl s

theorem moves_get : Moves R (get : EStateM ε σ σ) := fun s => Std.Refl.refl s

theorem moves_lift (x : Except ε α) : Moves R (lift x : EStateM ε σ α) := by
  cases x <;> exact fun s => Std.Refl.refl s

theorem moves_attempt (outcome : Option ε) : Moves R (attempt outcome : EStateM ε σ PUnit) := by
  cases outcome <;> exact fun s => Std.Refl.refl s

omit [Std.Refl R]
variable [Trans R R R]

theorem Moves.bind {m : EStateM ε σ β} {k : β → EStateM ε σ α} (hm : Moves R m)
    (hk : ∀ b, Moves R (k b)) : Moves R (m >>= k) := by
  rw [moves_iff]
  intro s
  rw [wp_bind]
  refine wp_mono (fun b s' h => ?_) (fun _ _ h => h) (hm.wp s)
  exact wp_mono (fun _ _ h' => Trans.trans h h') (fun _ _ h' => Trans.trans h h') ((hk b).wp s')

theorem Moves.rescue {m : EStateM ε σ α} {handle : ε → EStateM ε σ α} (hm : Moves R m)
    (hh : ∀ e, Moves R (handle e)) : Moves R (rescue m handle) := by
  rw [moves_iff]
  intro s
  rw [wp_rescue]
  refine wp_mono (fun _ _ h => h) (fun e s' h => ?_) (hm.wp s)
  exact wp_mono (fun _ _ h' => Trans.trans h h') (fun _ _ h' => Trans.trans h h') ((hh e).wp s')

end Moves

/-- What `m` returns, if it returns, is `Q`. -/
def Yields (Q : α → Prop) (m : EStateM ε σ α) : Prop :=
  ∀ s, wp m (fun a _ => Q a) (fun _ _ => True) s

section Yields

variable {Q : α → Prop}

theorem yields_pure {a : α} (h : Q a) : Yields Q (pure a : EStateM ε σ α) := fun _ => h

theorem Yields.bind {m : EStateM ε σ β} {k : β → EStateM ε σ α} (hk : ∀ b, Yields Q (k b)) :
    Yields Q (m >>= k) := fun _ =>
  wp_bind.mpr (wp_of_forall (fun b s' => hk b s') fun _ _ => trivial)

theorem Yields.rescue {m : EStateM ε σ α} {handle : ε → EStateM ε σ α} (hm : Yields Q m)
    (hh : ∀ e, Yields Q (handle e)) : Yields Q (rescue m handle) := fun s => by
  rw [wp_rescue, wp_iff]
  exact ⟨(wp_iff.mp (hm s)).1, fun e s' _ => hh e s'⟩

theorem yields_zoom {get : σ → τ} {set : τ → σ → σ} {m : EStateM ε τ α} (h : Yields Q m) :
    Yields Q (zoom get set m) := fun s => wp_zoom.mpr (h (get s))

end Yields

end Wicara.Lib.Fallible
