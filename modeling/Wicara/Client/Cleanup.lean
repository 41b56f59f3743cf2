import Wicara.Client.NetRuns

namespace Wicara.Client

open Wicara.Core Lib Lib.Fallible Lib.Interleaving Lib.Run

variable {C : Crypto} {env : Env C}

namespace SessionPc

/-- Between the removal from `live` and the farewell. -/
def parting : SessionPc → Bool
  | .farewell _ _ => true
  | _ => false

/-- Set once a session that was in `live` has returned. -/
def left : SessionPc → Option Entered
  | .returned entered _ | .gone entered => entered
  | _ => none

end SessionPc

theorem SessionPc.entered_of_left {pc : SessionPc} {entered : Entered}
    (h : pc.left = some entered) : pc.entered = some entered := by
  cases pc with
  | returned | gone => exact h
  | _ => exact (Option.some_ne_none _ h.symm).elim

theorem SessionPc.left_of_stay {pc : SessionPc} {stay : Stay} (h : pc.stay = some stay) :
    pc.left = none ∧ pc.parting = false := by
  cases pc with
  | loop | accepting | refold | rename | renamed | write => exact ⟨rfl, rfl⟩
  | _ => exact (Option.some_ne_none _ h.symm).elim

/-- The session's own entry is out of `live`, and `Disconnected` has been sent since it was in. -/
structure LiveSession.Clean (s : LiveSession) (entered : Entered) (n : Net) : Prop where
  live : n.live.get s.peer ≠ some s.conn
  events : .disconnected s.peer ∈ n.app.events.drop entered.events

namespace LiveSession.Section

variable {s : LiveSession} {n n' : Net} {pc' : SessionPc}

theorem parting (h : s.Section n pc' n') (hpc' : pc'.parting = true) :
    n'.live = n.live.erase s.peer := by
  cases h with
  | removed => rfl
  | before _ hpc' hstay' =>
    cases pc' with
    | farewell => cases hpc'
    | _ => contradiction
  | stays _ hstay' => simp [(SessionPc.left_of_stay hstay').2] at hpc'
  | _ => contradiction

/-- The ways a session comes to have returned. -/
theorem left {entered : Entered} (h : s.Section n pc' n') (hpc' : pc'.left = some entered) :
    n'.live = n.live ∧
      (s.pc.left = some entered ∨
      s.pc.parting = true ∧ n'.app.events = n.app.events ++ [.disconnected s.peer] ∨
      s.Breaks ∧ n'.app.events = n.app.events) := by
  cases h with
  | before _ hentered => exact absurd (SessionPc.entered_of_left hpc') (by simp [hentered])
  | stays _ hstay' => simp [(SessionPc.left_of_stay hstay').1] at hpc'
  | parted hpc beside hevents => exact ⟨beside.live, .inr (.inl ⟨by rw [hpc]; rfl, hevents⟩)⟩
  | broken _ hbreaks beside hevents => exact ⟨beside.live, .inr (.inr ⟨hbreaks, hevents⟩)⟩
  | ended hpc beside => exact ⟨beside.live, .inl (by rw [hpc]; exact hpc')⟩
  | rests hpc => exact ⟨rfl, .inl (by rw [hpc]; exact hpc')⟩
  | _ => contradiction

theorem of_breaks (h : s.Section n pc' n') (hbreaks : s.Breaks) :
    n'.live = n.live ∧ n'.app.events = n.app.events ∧ pc'.left = s.pc.entered := by
  cases h with
  | broken hstay _ beside hevents =>
    exact ⟨beside.live, hevents, (SessionPc.entered_of_stay hstay).symm⟩
  | stays _ _ _ _ _ hsteady => exact absurd hbreaks hsteady
  | wrote _ hsteady => exact absurd hbreaks hsteady
  | before hpc =>
    obtain ⟨conn, peer, dialed, announce, names, valid, connect, opened, hello, first, setting,
      script, pc⟩ := s
    cases pc with
    | refold | write => cases hpc
    | _ => exact hbreaks.elim
  | entered hpc | greeted hpc | subscribed hpc | lagged hpc | skipped hpc | taken hpc | leaves hpc
  | removed hpc | parted hpc | ended hpc | rests hpc =>
    rw [LiveSession.Breaks, hpc] at hbreaks
    exact hbreaks.elim

end LiveSession.Section

namespace NetTasks

/-- The entries of `live` and the tasks they come from. -/
structure Tracked (p : NetTasks) : Prop where
  numbered : ∀ i s, p.session i = some s → s.conn = i
  silent : ∀ i s, p.session i = some s → s.Silent
  marked : ∀ i s, p.session i = some s → ∀ entered, s.pc.entered = some entered →
    entered.events ≤ p.shared.app.events.length
  parting : ∀ i s, p.session i = some s → s.pc.parting = true →
    p.shared.live.get s.peer ≠ some s.conn
  owned : ∀ k c, p.shared.live.get k = some c →
    ∃ s, p.session c = some s ∧ s.peer = k ∧ s.pc.entered ≠ none

variable {p : NetTasks} {i : Nat}

/-- What a session's own entry is not, another session does not make it. -/
theorem Step.live_ne {p' : NetTasks} (hstep : p.Step i p') (hp : p.Tracked) {j : Nat}
    {s : LiveSession} (hs : p.session j = some s) (hij : j ≠ i)
    (h : p.shared.live.get s.peer ≠ some s.conn) :
    p'.shared.live.get s.peer ≠ some s.conn := by
  obtain hlive | ⟨u, hu, hlive⟩ := hstep.live
  · rwa [hlive]
  · generalize p'.shared.live = live at hlive
    cases hlive with
    | same => exact h
    | inserts hpc =>
      rw [Table.get_upsert, hp.numbered j s hs, hp.numbered i u hu]
      split
      · simp [Ne.symm hij]
      · rwa [← hp.numbered j s hs]
    | removes hpc =>
      rw [Table.get_erase]
      split
      · exact (Option.some_ne_none _).symm
      · exact h

variable (env) in
theorem Tracked.step (hp : p.Tracked) (i : Nat) :
    NetTasks.Tracked (p.step (NetTask.advance env) i) := by
  have hstep := p.step_cases env (hp.silent i)
  have hnumbered := hstep.sessions (A := fun j s _ => s.conn = j) (fun _ _ _ _ h => h)
    (fun _ _ _ _ h => h) hp.numbered
  constructor
  · exact hnumbered
  · exact hstep.sessions (A := fun _ s _ => s.Silent) (fun _ _ _ h _ => h.silent)
      (fun _ _ _ _ h => h) hp.silent
  · refine hstep.sessions (A := fun _ s n => ∀ entered, s.pc.entered = some entered →
      entered.events ≤ n.app.events.length) ?_ ?_ hp.marked
    · intro s pc' hs h hmarked entered hentered
      have hle := h.events.length_le
      obtain heq | ⟨-, heq⟩ := h.entered_eq
      · exact (hmarked entered (heq ▸ hentered)).trans hle
      · cases heq.symm.trans hentered
        exact hle
    · intro j s hs hij hmarked entered hentered
      exact (hmarked entered hentered).trans hstep.events.length_le
  · refine hstep.sessions (A := fun _ s n => s.pc.parting = true → n.live.get s.peer ≠ some s.conn)
      ?_ ?_ hp.parting
    · intro s pc' hs h _ hparting
      rw [h.parting hparting]
      simp
    · intro j s hs hij hparting hpc
      exact hstep.live_ne hp hs hij (hparting hpc)
  · intro k c hget
    obtain hold | ⟨s, hs, hpeer, hconn, hentered⟩ := hstep.get_live hget
    · obtain ⟨s, hs, hpeer, hentered⟩ := hp.owned k c hold
      obtain ⟨pc', hs', hpc⟩ := hstep.evolves hs
      refine ⟨_, hs', hpeer, ?_⟩
      obtain ⟨-, hsame⟩ | ⟨-, h⟩ := hpc
      · rwa [hsame]
      · obtain heq | ⟨-, heq⟩ := h.entered_eq
        · rwa [heq]
        · rw [heq]
          exact Option.some_ne_none _
    · have hi := hnumbered i s hs
      rw [hconn] at hi
      exact ⟨s, hi ▸ hs, hpeer, hentered⟩

theorem Tracked.start (store : Store) (nickname : String) (tasks : List NetTask) :
    (NetTasks.start store nickname tasks).Tracked := by
  have hbefore : ∀ i s, (NetTasks.start store nickname tasks).session i = some s →
      s.pc.entered = none ∧ s.pc.arrival = none ∧ s.pc.parting = false := by
    intro i s hs
    obtain ⟨-, hpc | hpc⟩ := session_start hs <;> rw [hpc] <;> exact ⟨rfl, rfl, rfl⟩
  constructor
  · exact fun i s hs => (session_start hs).1
  · exact fun i s hs => SessionPc.silent_of_arrival_none (hbefore i s hs).2.1
  · intro i s hs entered hentered
    rw [(hbefore i s hs).1] at hentered
    cases hentered
  · intro i s hs hparting
    rw [(hbefore i s hs).2.2] at hparting
    cases hparting
  · intro k c hget
    cases hget

/-- Every session that was in `live` and has returned has cleaned up after itself, and what is
in `live` is a session that is not over. -/
structure Tidy (p : NetTasks) : Prop where
  clean : ∀ i s, p.session i = some s → ∀ entered, s.pc.left = some entered →
    s.Clean entered p.shared
  running : ∀ k c, p.shared.live.get k = some c →
    ∃ s, p.session c = some s ∧ s.peer = k ∧ s.pc.entered ≠ none ∧ s.pc.left = none

/-- A session that is about to return with `?` has nothing left to clean up. -/
def LeavesClean (p : NetTasks) (i : Nat) : Prop :=
  ∀ s, p.session i = some s → s.Breaks → ∀ entered, s.pc.entered = some entered →
    s.Clean entered p.shared

theorem Tracked.tidy (hp : p.Tracked) (h : ∀ i s, p.session i = some s → ∀ entered,
    s.pc.left = some entered → s.Clean entered p.shared) : p.Tidy where
  clean := h
  running k c hget := by
    obtain ⟨s, hs, hpeer, hentered⟩ := hp.owned k c hget
    refine ⟨s, hs, hpeer, hentered, ?_⟩
    rw [Option.eq_none_iff_forall_ne_some]
    intro entered hleft
    apply (h c s hs entered hleft).live
    rw [hpeer, hget, hp.numbered c s hs]

end NetTasks

theorem LiveSession.Clean.mono {s : LiveSession} {entered : Entered} {n n' : Net}
    (h : s.Clean entered n) (pc' : SessionPc) (hlive : n'.live.get s.peer ≠ some s.conn)
    (hevents : n.app.events <+: n'.app.events) :
    LiveSession.Clean { s with pc := pc' } entered n' where
  live := hlive
  events := (hevents.drop entered.events).subset h.events

namespace NetTasks

variable {p : NetTasks} {i : Nat}

/-- Of all that can happen, only a `?` out of the loop can leave something behind. -/
theorem Step.clean {p' : NetTasks} (hstep : p.Step i p') (hp : p.Tracked) (htidy : p.Tidy)
    (hleaves : p.LeavesClean i) :
    ∀ j s, p'.session j = some s → ∀ entered, s.pc.left = some entered →
      s.Clean entered p'.shared := by
  refine hstep.sessions (A := fun _ s n => ∀ entered, s.pc.left = some entered →
    s.Clean entered n) ?_ ?_ htidy.clean
  · intro s pc' hs h hclean entered hleft
    obtain ⟨hlive, hbefore | ⟨hparting, hevents⟩ | ⟨hbreaks, -⟩⟩ := h.left hleft
    · exact (hclean entered hbefore).mono pc' (hlive ▸ (hclean entered hbefore).live) h.events
    · have hentered : s.pc.entered = some entered := by
        obtain heq | ⟨⟨them, hpc⟩, -⟩ := h.entered_eq
        · rw [← heq, SessionPc.entered_of_left hleft]
        · rw [hpc] at hparting
          cases hparting
      refine ⟨hlive ▸ hp.parting i s hs hparting, ?_⟩
      rw [hevents, List.drop_append_of_le_length (hp.marked i s hs entered hentered)]
      exact List.mem_append_right _ (List.mem_singleton_self _)
    · have hentered : s.pc.entered = some entered :=
        (h.of_breaks hbreaks).2.2.symm.trans hleft
      have hbefore := hleaves s hs hbreaks entered hentered
      exact hbefore.mono pc' (hlive ▸ hbefore.live) h.events
  · intro j s hs hij hclean entered hleft
    have hbefore := hclean entered hleft
    exact hbefore.mono s.pc (hstep.live_ne hp hs hij hbefore.live) hstep.events

theorem Step.leavesClean {p' : NetTasks} (hstep : p.Step i p') (htidy : p'.Tidy) :
    p.LeavesClean i := by
  intro s hs hbreaks entered hentered
  obtain ⟨pc', hs', ⟨hii, -⟩ | ⟨-, hsection⟩⟩ := hstep.evolves hs
  · exact absurd rfl hii
  · obtain ⟨hlive, hevents, hleft⟩ := hsection.of_breaks hbreaks
    have hafter := htidy.clean i _ hs' entered (hleft.trans hentered)
    exact ⟨hlive ▸ hafter.live, hevents ▸ hafter.events⟩

end NetTasks

/-- Whatever sessions there are and however they take their turns: they all clean up after
themselves exactly when none of them leaves its loop by a `?` with something to clean up. -/
theorem sessions_tidy_iff (env : Env C) (store : Store) (nickname : String)
    (tasks : List NetTask) (schedule : List Nat) :
    (∀ n, NetTasks.Tidy (run (Pool.step (NetTask.advance env))
      (NetTasks.start store nickname tasks) (schedule.take n))) ↔
    Along (Pool.step (NetTask.advance env)) NetTasks.LeavesClean
      (NetTasks.start store nickname tasks) schedule := by
  have htracked := NetTasks.Tracked.start store nickname tasks
  have hstep (p : NetTasks) (i : Nat) (hp : p.Tracked) :
      p.Step i (p.step (NetTask.advance env) i) := p.step_cases env (hp.silent i)
  refine Along.iff_throughout (I := NetTasks.Tracked) (G := NetTasks.Tidy)
    (fun p i hp => hp.step env i) (fun p i hp htidy => ⟨(hstep p i hp).leavesClean, ?_⟩)
    htracked ?_
  · exact fun hleaves => (hp.step env i).tidy ((hstep p i hp).clean hp htidy hleaves)
  · refine htracked.tidy fun i s hs entered hleft => ?_
    obtain ⟨-, hpc | hpc⟩ := NetTasks.session_start hs <;> rw [hpc] at hleft <;> cases hleft

namespace Sample

open Core.Sample

/-- A connection from this peer, and what comes of its turns. -/
def answered (peer : Key) (script : List Turn) : LiveSession where
  conn := 0
  peer := peer
  dialed := false
  announce := false
  names := (none, none)
  valid := true
  connect := none
  opened := none
  hello := none
  first := .ok (some (.hello "bob"))
  setting := .ok
  script := script
  pc := .opening

/-- `/connect` to this peer. -/
def connecting (peer : Key) (script : List Turn) : LiveSession :=
  { answered peer script with dialed := true, announce := true }

def said (peer : Key) (seq : UInt64) : NetTask :=
  .deliver ⟨peer, .chat ⟨key 1, seq, 7⟩ "are you there?" none, .start⟩

/-- 2 is on the line … -/
def lost : List NetTask :=
  [.session (answered (key 2) [.outgoing (some "connection lost")]), said (key 2) 1,
    said (key 2) 2, .session (connecting (key 2) [])]

/-- … and a write to it fails; then 1 has something else to say to it, and dials it. -/
def lostSchedule : List Nat := List.replicate 6 0 ++ [1, 1, 1, 0, 0, 0, 2, 2, 2, 3]

/-- The client after so many sections of it. -/
def lostAt (n : Nat) : NetTasks :=
  run (Pool.step (NetTask.advance (client 1 true)))
    (NetTasks.start (Store.fresh (key 1)) "alice" lost) (lostSchedule.take n)

theorem lostAt_end :
    ((lostAt 16).session 0).map (fun s => (s.peer, s.conn, s.pc.left)) =
      some (key 2, 0, some ⟨0, 0⟩) ∧
    (lostAt 16).shared.live.get (key 2) = some 0 ∧
    (lostAt 16).shared.app.events = [.connected (key 2) "bob", .delivery ⟨key 1, 1, 7⟩ .wire,
      .status "session ended: connection lost" true, .delivery ⟨key 1, 2, 7⟩ .wire,
      .status s!"already connected to {short (key 2)}" false] := by
  decide +kernel

end Sample

open Core.Sample Sample in
/-- The session is over without a word, and everyone takes its peer to be on the line still. -/
theorem lost_peer_stays_live :
    (lostAt 16).shared.live.get (key 2) = some 0 ∧
    (lostAt 16).shared.app.events = [.connected (key 2) "bob", .delivery ⟨key 1, 1, 7⟩ .wire,
      .status "session ended: connection lost" true, .delivery ⟨key 1, 2, 7⟩ .wire,
      .status s!"already connected to {short (key 2)}" false] ∧
    ¬∀ n, (lostAt n).Tidy := by
  obtain ⟨hsession, hlive, hevents⟩ := lostAt_end
  refine ⟨hlive, hevents, fun h => ?_⟩
  obtain ⟨s, hs, hfields⟩ := Option.map_eq_some_iff.mp hsession
  simp only [Prod.mk.injEq] at hfields
  obtain ⟨hpeer, hconn, hleft⟩ := hfields
  apply ((h 16).clean 0 s hs _ hleft).live
  rw [hpeer, hconn, hlive]

end Wicara.Client
