import Wicara.Client.Cleanup

namespace Wicara.Client

open Wicara.Core Lib Lib.Fallible Lib.Interleaving Lib.Run

variable {C : Crypto}

namespace LiveSession.Section

variable {s : LiveSession} {n n' : Net} {pc' : SessionPc}

theorem of_remove {stay : Stay} {result : Except String PUnit} (h : s.Section n pc' n')
    (hpc : s.pc = .remove stay result) : n'.live = n.live.erase s.peer := by
  have hstay : s.pc.stay = none := by
    rw [hpc]
    rfl
  cases h with
  | removed => rfl
  | before hnone =>
    rw [hpc] at hnone
    cases hnone
  | stays hsome | broken hsome => cases hstay.symm.trans hsome
  | entered h | greeted h | subscribed h | lagged h | skipped h | taken h | wrote h | leaves h
  | parted h | ended h | rests h => cases hpc.symm.trans h

theorem of_subscribe {entered : Entered} (h : s.Section n pc' n')
    (hpc : s.pc = .subscribe entered) : pc'.stay ≠ none ∧ n' = n := by
  have hstay : s.pc.stay = none := by
    rw [hpc]
    rfl
  cases h with
  | subscribed => exact ⟨Option.some_ne_none _, rfl⟩
  | before hnone =>
    rw [hpc] at hnone
    cases hnone
  | stays hsome | broken hsome => cases hstay.symm.trans hsome
  | entered h | greeted h | removed h | lagged h | skipped h | taken h | wrote h | leaves h
  | parted h | ended h | rests h => cases hpc.symm.trans h

/-- The ways a session comes to be in its loop. -/
theorem stay (h : s.Section n pc' n') (hpc' : pc'.stay ≠ none) :
    n'.live = n.live ∧ (s.pc.stay ≠ none ∨ ∃ entered, s.pc = .subscribe entered) := by
  cases h with
  | before _ _ hnone => exact absurd hnone hpc'
  | subscribed hpc => exact ⟨rfl, .inr ⟨_, hpc⟩⟩
  | stays hsome _ _ _ _ _ _ beside =>
    refine ⟨beside.live, .inl ?_⟩
    rw [hsome]
    exact Option.some_ne_none _
  | lagged hpc | skipped hpc | taken hpc | wrote hpc =>
    refine ⟨rfl, .inl ?_⟩
    rw [hpc]
    exact Option.some_ne_none _
  | entered | greeted | leaves | removed | parted | broken | ended | rests =>
    exact absurd rfl hpc'

end LiveSession.Section

namespace NetTasks

/-- Whoever is in its loop has its peer in `live`. -/
def Listed (p : NetTasks) : Prop :=
  ∀ i s, p.session i = some s → s.pc.stay ≠ none → s.peer ∈ p.shared.live.keys

/-- No session takes its peer out of `live` that another one in its loop has too, and none gets
into its loop without. -/
structure KeepsListed (p : NetTasks) (i : Nat) : Prop where
  removal : ∀ s stay result, p.session i = some s → s.pc = .remove stay result →
    ∀ j u, p.session j = some u → u.pc.stay ≠ none → u.peer ≠ s.peer
  entry : ∀ s entered, p.session i = some s → s.pc = .subscribe entered →
    s.peer ∈ p.shared.live.keys

variable {p p' : NetTasks} {i : Nat}

theorem Step.listed (hstep : p.Step i p') (hlisted : p.Listed) (hkeeps : p.KeepsListed i) :
    p'.Listed := by
  refine hstep.sessions (A := fun _ s n => s.pc.stay ≠ none → s.peer ∈ n.live.keys) ?_ ?_ hlisted
  · intro s pc' hs h hin hstay'
    obtain ⟨hlive, hstay | ⟨entered, hpc⟩⟩ := h.stay hstay'
    · exact hlive ▸ hin hstay
    · exact hlive ▸ hkeeps.entry s entered hs hpc
  · intro j u hu hij hin hstay
    obtain hlive | ⟨s, hs, hlive⟩ := hstep.live
    · exact hlive ▸ hin hstay
    · generalize p'.shared.live = live at hlive
      cases hlive with
      | same => exact hin hstay
      | inserts hpc => exact Table.mem_keys_upsert.mpr (.inr (hin hstay))
      | removes hpc =>
        exact Table.mem_keys_erase.mpr ⟨hkeeps.removal s _ _ hs hpc j u hu hstay, hin hstay⟩

theorem Step.keepsListed (hstep : p.Step i p') (hlisted : p'.Listed) : p.KeepsListed i where
  removal s stay result hs hpc j u hu hstay hpeer := by
    obtain ⟨pc', -, ⟨hii, -⟩ | ⟨-, h⟩⟩ := hstep.evolves hs
    · exact hii rfl
    · obtain ⟨pc'', hu', ⟨-, rfl⟩ | ⟨rfl, -⟩⟩ := hstep.evolves hu
      · have hin := hlisted j _ hu' hstay
        rw [h.of_remove hpc] at hin
        exact (Table.mem_keys_erase.mp hin).1 hpeer
      · cases hs.symm.trans hu
        rw [hpc] at hstay
        exact hstay rfl
  entry s entered hs hpc := by
    obtain ⟨pc', hs', ⟨hii, -⟩ | ⟨-, h⟩⟩ := hstep.evolves hs
    · exact absurd rfl hii
    · obtain ⟨hstay', hn⟩ := h.of_subscribe hpc
      have hin := hlisted i _ hs' hstay'
      rw [hn] at hin
      exact hin

end NetTasks

/-- Sessions of one peer may overlap in any way: `live` has the peer of everyone in its loop
exactly when none takes out a peer that another one in its loop has too, or gets into its loop
after another has taken its peer out. -/
theorem live_tracks_loops_iff (env : Env C) (store : Store) (nickname : String)
    (tasks : List NetTask) (schedule : List Nat) :
    (∀ n, NetTasks.Listed (run (Pool.step (NetTask.advance env))
      (NetTasks.start store nickname tasks) (schedule.take n))) ↔
    Along (Pool.step (NetTask.advance env)) NetTasks.KeepsListed
      (NetTasks.start store nickname tasks) schedule := by
  have hstep (p : NetTasks) (i : Nat) (hp : p.Tracked) :
      p.Step i (p.step (NetTask.advance env) i) := p.step_cases env (hp.silent i)
  refine Along.iff_throughout (I := NetTasks.Tracked) (G := NetTasks.Listed)
    (fun p i hp => hp.step env i)
    (fun p i hp hlisted => ⟨(hstep p i hp).keepsListed, (hstep p i hp).listed hlisted⟩)
    (.start store nickname tasks) ?_
  intro i s hs hstay
  obtain ⟨-, hpc | hpc⟩ := NetTasks.session_start hs <;> rw [hpc] at hstay <;>
    exact absurd rfl hstay

namespace Sample

open Core.Sample

/-- 2 dials while it is dialed, so that there are two sessions … -/
def twice : List NetTask :=
  [.session (answered (key 2) [.incoming (.ok none) .ok .ok none]),
    .session (answered (key 2) [])]

/-- … and ends one of them. -/
def twiceAt (n : Nat) : NetTasks :=
  run (Pool.step (NetTask.advance (client 1 true)))
    (NetTasks.start (Store.fresh (key 1)) "alice" twice)
    ((List.replicate 6 0 ++ List.replicate 6 1 ++ [0, 0]).take n)

end Sample

open Core.Sample Sample in
/-- The other one goes on, with its peer not in `live`. -/
theorem twice_live_forgets_peer :
    ((twiceAt 14).session 1).map (fun s => (s.peer, s.pc.stay.isSome)) = some (key 2, true) ∧
    (twiceAt 14).shared.live.keys = [] ∧ ¬∀ n, (twiceAt n).Listed := by
  have hrun : ((twiceAt 14).session 1).map (fun s => (s.peer, s.pc.stay.isSome)) =
      some (key 2, true) ∧ (twiceAt 14).shared.live.keys = [] := by decide +kernel
  refine ⟨hrun.1, hrun.2, fun h => ?_⟩
  obtain ⟨s, hs, hfields⟩ := Option.map_eq_some_iff.mp hrun.1
  simp only [Prod.mk.injEq] at hfields
  have hin := h 14 1 s hs (Option.isSome_iff_ne_none.mp hfields.2)
  rw [hrun.2] at hin
  cases hin

end Wicara.Client
