import Wicara.Client.SessionSteps

namespace Wicara.Client

open Wicara.Core Lib Lib.Fallible Lib.Interleaving Lib.Run

variable {C : Crypto} {env : Env C}

namespace NetTasks

def session (p : NetTasks) (i : Nat) : Option LiveSession :=
  match p.tasks[i]? with
  | some (.session s) => some s
  | _ => none

def deliver (p : NetTasks) (i : Nat) : Option Deliver :=
  match p.tasks[i]? with
  | some (.deliver d) => some d
  | _ => none

variable {p p' : NetTasks} {i : Nat}

theorem session_eq_some {s : LiveSession} :
    p.session i = some s ↔ p.tasks[i]? = some (.session s) := by
  unfold session
  split
  · rename_i s' h
    simp [h]
  · rename_i h
    exact ⟨nofun, fun h' => (h s h').elim⟩

theorem deliver_eq_some {d : Deliver} : p.deliver i = some d ↔ p.tasks[i]? = some (.deliver d) := by
  unfold deliver
  split
  · rename_i d' h
    simp [h]
  · rename_i h
    exact ⟨nofun, fun h' => (h d h').elim⟩

/-- The tasks other than the one whose turn it is. -/
structure Others (p : NetTasks) (i : Nat) (p' : NetTasks) : Prop where
  session : ∀ j, j ≠ i → p'.session j = p.session j
  deliver : ∀ j, j ≠ i → p'.deliver j = p.deliver j

/-- All that a step can do. -/
inductive Step (p : NetTasks) (i : Nat) (p' : NetTasks) : Prop
  | session {s : LiveSession} {pc' : SessionPc} (hs : p.session i = some s)
      (h : s.Section p.shared pc' p'.shared) (hs' : p'.session i = some { s with pc := pc' })
      (hd' : p'.deliver i = none) (others : p.Others i p')
  | deliver {d : Deliver} {pc' : DeliverPc} (hd : p.deliver i = some d)
      (h : d.Section p.shared pc' p'.shared) (hd' : p'.deliver i = some { d with pc := pc' })
      (hs : p.session i = none) (hs' : p'.session i = none) (others : p.Others i p')
  | nick (h : Nick.Section p.shared p'.shared) (hs : p.session i = none)
      (sessions : ∀ j, p'.session j = p.session j) (delivers : ∀ j, p'.deliver j = p.deliver j)
  | idle (hs : p.session i = none) (h : p' = p)

theorem others_step (p : NetTasks) (i : Nat) :
    p.Others i (p.step (NetTask.advance env) i) where
  session j hj := by rw [session, session, Pool.getElem?_step_of_ne (Ne.symm hj)]
  deliver j hj := by rw [deliver, deliver, Pool.getElem?_step_of_ne (Ne.symm hj)]

variable (env) in
theorem step_cases (hsilent : ∀ s, p.session i = some s → s.Silent) :
    p.Step i (p.step (NetTask.advance env) i) := by
  cases hi : p.tasks[i]? with
  | none => exact .idle (by simp [session, hi]) (Pool.step_of_none hi)
  | some t =>
    have hshared : (p.step (NetTask.advance env) i).shared = (t.advance env p.shared).2 :=
      congrArg Pool.shared (Pool.step_of_some hi)
    have hown : (p.step (NetTask.advance env) i).tasks[i]? = some (t.advance env p.shared).1 :=
      Pool.getElem?_step_self hi
    cases t with
    | session s =>
      have hs := session_eq_some.mpr hi
      have h : s.Section p.shared (s.advance env p.shared).1.pc
          (p.step (NetTask.advance env) i).shared := by
        rw [hshared]
        exact s.section_advance env p.shared (hsilent s hs)
      refine .session hs h ?_ ?_ (p.others_step i)
      · rw [session_eq_some, hown, ← s.advance_eq p.shared]
        rfl
      · simp [deliver, hown, NetTask.advance]
    | deliver d =>
      have h : d.Section p.shared (d.advance env p.shared).1.pc
          (p.step (NetTask.advance env) i).shared := by
        rw [hshared]
        exact d.section_advance env p.shared
      refine .deliver (deliver_eq_some.mpr hi) h ?_ ?_ ?_ (p.others_step i)
      · rw [deliver_eq_some, hown, ← d.advance_eq p.shared]
        rfl
      · simp [session, hi]
      · simp [session, hown, NetTask.advance]
    | nick k =>
      refine .nick ?_ (by simp [session, hi]) ?_ ?_
      · rw [hshared]
        exact k.section_advance p.shared
      · intro j
        by_cases hj : j = i
        · subst hj
          simp [session, hi, hown, NetTask.advance]
        · exact (p.others_step i).session j hj
      · intro j
        by_cases hj : j = i
        · subst hj
          simp [deliver, hi, hown, NetTask.advance]
        · exact (p.others_step i).deliver j hj

/-- A section keeps what it says of its own session, and does not interfere with the others. -/
theorem Step.sessions {A : Nat → LiveSession → Net → Prop} (hstep : p.Step i p')
    (own : ∀ s pc', p.session i = some s → s.Section p.shared pc' p'.shared → A i s p.shared →
      A i { s with pc := pc' } p'.shared)
    (others : ∀ j s, p.session j = some s → j ≠ i → A j s p.shared → A j s p'.shared)
    (h : ∀ j s, p.session j = some s → A j s p.shared) :
    ∀ j s, p'.session j = some s → A j s p'.shared := by
  intro j s hj
  have hother : p.session i = none → p'.session j = p.session j → A j s p'.shared := by
    intro hi hsame
    rw [hsame] at hj
    refine others j s hj ?_ (h j s hj)
    rintro rfl
    rw [hi] at hj
    cases hj
  cases hstep with
  | session hs hsection hs' hd' hothers =>
    by_cases hij : j = i
    · subst hij
      rw [hs', Option.some.injEq] at hj
      subst hj
      exact own _ _ hs hsection (h j _ hs)
    · rw [hothers.session j hij] at hj
      exact others j s hj hij (h j s hj)
  | deliver hd hsection hd' hs hs' hothers =>
    refine hother hs ?_
    by_cases hij : j = i
    · rw [hij, hs, hs']
    · exact hothers.session j hij
  | nick hsection hs hsessions hdelivers => exact hother hs (hsessions j)
  | idle hs hp => exact hother hs (by rw [hp])

theorem Step.evolves (hstep : p.Step i p') {j : Nat} {s : LiveSession} (hs : p.session j = some s) :
    ∃ pc', p'.session j = some { s with pc := pc' } ∧
      (j ≠ i ∧ pc' = s.pc ∨ j = i ∧ s.Section p.shared pc' p'.shared) := by
  have hother (hij : j ≠ i) (h : p'.session j = p.session j) :
      ∃ pc', p'.session j = some { s with pc := pc' } ∧
        (j ≠ i ∧ pc' = s.pc ∨ j = i ∧ s.Section p.shared pc' p'.shared) :=
    ⟨s.pc, h.trans hs, .inl ⟨hij, rfl⟩⟩
  have hne (hi : p.session i = none) : j ≠ i := by
    rintro rfl
    cases hi.symm.trans hs
  cases hstep with
  | session hi hsection hs' hd' hothers =>
    by_cases hij : j = i
    · subst hij
      cases hi.symm.trans hs
      exact ⟨_, hs', .inr ⟨rfl, hsection⟩⟩
    · exact hother hij (hothers.session j hij)
  | deliver hd hsection hd' hi hi' hothers => exact hother (hne hi) (hothers.session j (hne hi))
  | nick hsection hi hsessions hdelivers => exact hother (hne hi) (hsessions j)
  | idle hi hp => exact hother (hne hi) (by rw [hp])

theorem session_start {store : Store} {nickname : String} {tasks : List NetTask} {s : LiveSession}
    (hs : (NetTasks.start store nickname tasks).session i = some s) :
    s.conn = i ∧ (s.pc = .dial ∨ s.pc = .opening) := by
  rw [session_eq_some, NetTasks.start, List.getElem?_mapIdx, Option.map_eq_some_iff] at hs
  obtain ⟨t, -, ht⟩ := hs
  cases t with
  | session s₀ =>
    cases ht
    cases s₀.dialed
    · exact ⟨rfl, .inr rfl⟩
    · exact ⟨rfl, .inl rfl⟩
  | deliver | nick => cases ht

theorem deliver_start {store : Store} {nickname : String} {tasks : List NetTask} {d : Deliver}
    (hd : (NetTasks.start store nickname tasks).deliver i = some d) : d.pc = .start := by
  rw [deliver_eq_some, NetTasks.start, List.getElem?_mapIdx, Option.map_eq_some_iff] at hd
  obtain ⟨t, -, ht⟩ := hd
  cases t with
  | deliver d₀ =>
    cases ht
    rfl
  | session | nick => cases ht

end NetTasks

theorem SessionPc.entered_of_stay {pc : SessionPc} {stay : Stay} (h : pc.stay = some stay) :
    pc.entered = some stay.entered := by
  cases pc with
  | loop | accepting | refold | rename | renamed | write =>
    exact congrArg (Option.map Stay.entered) h
  | _ => exact (Option.some_ne_none _ h.symm).elim

namespace LiveSession.Section

variable {s : LiveSession} {n n' : Net} {pc' : SessionPc}

/-- When a session put its peer into `live` is settled once and for all. -/
theorem entered_eq (h : s.Section n pc' n') :
    pc'.entered = s.pc.entered ∨
      (∃ them, s.pc = .insert them) ∧ pc'.entered = some ⟨n.app.events.length, n.wired.length⟩ := by
  cases h with
  | before hpc hpc' hstay' => exact .inl (hpc'.trans hpc.symm)
  | entered hpc => exact .inr ⟨⟨_, hpc⟩, rfl⟩
  | stays hstay hstay' same =>
    left
    rw [SessionPc.entered_of_stay hstay, SessionPc.entered_of_stay hstay', same.entered]
  | leaves hpc hentered =>
    left
    rw [hpc]
    exact congrArg some hentered
  | broken hstay => exact .inl (SessionPc.entered_of_stay hstay).symm
  | greeted hpc | subscribed hpc | lagged hpc | skipped hpc | taken hpc | wrote hpc | removed hpc
  | parted hpc | ended hpc | rests hpc => exact .inl (congrArg SessionPc.entered hpc).symm

theorem events (h : s.Section n pc' n') : n.app.events <+: n'.app.events := by
  cases h with
  | before _ _ _ beside | greeted _ beside | stays _ _ _ _ _ _ _ beside | parted _ beside
  | broken _ _ beside | ended _ beside => exact beside.events
  | _ => exact List.prefix_refl _

/-- What a section makes of `live`. -/
inductive Relives (s : LiveSession) (n : Net) : Table Key Nat → Prop
  | same : Relives s n n.live
  | inserts {them : String} (hpc : s.pc = .insert them) : Relives s n (n.live.upsert s.peer s.conn)
  | removes {stay : Stay} {result : Except String PUnit} (hpc : s.pc = .remove stay result) :
      Relives s n (n.live.erase s.peer)

theorem live (h : s.Section n pc' n') : Relives s n n'.live := by
  cases h with
  | before _ _ _ beside | greeted _ beside | stays _ _ _ _ _ _ _ beside | parted _ beside
  | broken _ _ beside | ended _ beside =>
    rw [beside.live]
    exact .same
  | entered hpc => exact .inserts hpc
  | removed hpc => exact .removes hpc
  | _ => exact .same

theorem get_live (h : s.Section n pc' n') {k : Key} {c : Nat} (hget : n'.live.get k = some c) :
    n.live.get k = some c ∨ s.peer = k ∧ s.conn = c ∧ pc'.entered ≠ none := by
  cases h with
  | before _ _ _ beside | greeted _ beside | stays _ _ _ _ _ _ _ beside | parted _ beside
  | broken _ _ beside | ended _ beside => exact .inl (beside.live ▸ hget)
  | entered hpc =>
    rw [Table.get_upsert] at hget
    split at hget
    · rename_i hk
      exact .inr ⟨hk.symm, Option.some.inj hget, Option.some_ne_none _⟩
    · exact .inl hget
  | removed hpc =>
    rw [Table.get_erase] at hget
    split at hget
    · cases hget
    · exact .inl hget
  | _ => exact .inl hget

end LiveSession.Section

namespace NetTasks.Step

variable {p p' : NetTasks} {i : Nat}

theorem events (h : p.Step i p') : p.shared.app.events <+: p'.shared.app.events := by
  cases h with
  | session hs h => exact h.events
  | deliver hd h =>
    cases h with
    | quiet hpc' beside => exact beside.events
    | sent hpc sends => exact sends.events
    | reported hpc hid reports => exact reports.events
  | nick h =>
    cases h with
    | quiet beside => exact beside.events
    | sent sends => exact sends.events
  | idle hs hp => exact hp ▸ List.prefix_refl _

/-- Only a session touches `live`. -/
theorem live (h : p.Step i p') :
    p'.shared.live = p.shared.live ∨
      ∃ s, p.session i = some s ∧ LiveSession.Section.Relives s p.shared p'.shared.live := by
  cases h with
  | session hs h => exact .inr ⟨_, hs, h.live⟩
  | deliver hd h =>
    cases h with
    | quiet hpc' beside => exact .inl beside.live
    | sent hpc sends => exact .inl sends.live
    | reported hpc hid reports => exact .inl reports.live
  | nick h =>
    cases h with
    | quiet beside => exact .inl beside.live
    | sent sends => exact .inl sends.live
  | idle hs hp => exact .inl (by rw [hp])

/-- An entry that is new is that of the session whose turn it was. -/
theorem get_live (h : p.Step i p') {k : Key} {c : Nat}
    (hget : p'.shared.live.get k = some c) :
    p.shared.live.get k = some c ∨
      ∃ s, p'.session i = some s ∧ s.peer = k ∧ s.conn = c ∧ s.pc.entered ≠ none := by
  obtain hlive | ⟨s, hs, -⟩ := h.live
  · exact .inl (hlive ▸ hget)
  · cases h with
    | session hs h hs' =>
      obtain hold | hnew := h.get_live hget
      · exact .inl hold
      · exact .inr ⟨_, hs', hnew⟩
    | deliver _ _ _ hi | nick _ hi | idle hi => cases hi.symm.trans hs

end NetTasks.Step

end Wicara.Client
