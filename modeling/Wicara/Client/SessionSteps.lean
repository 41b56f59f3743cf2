import Wicara.Client.Sessions
import Wicara.Core.Framing

namespace Wicara.Client

open Wicara.Core Lib Lib.Fallible Lib.Interleaving

variable {C : Crypto} {env : Env C}

/-- The connections, the broadcast and the reports are left alone; no event is taken back. -/
structure Net.Beside (n n' : Net) : Prop where
  live : n'.live = n.live
  wired : n'.wired = n.wired
  outbound : n'.app.outbound = n.app.outbound
  events : n.app.events <+: n'.app.events

theorem Net.Beside.refl (n : Net) : n.Beside n := ⟨rfl, rfl, rfl, List.prefix_refl _⟩

theorem Net.Beside.trans {a b c : Net} (hab : a.Beside b) (hbc : b.Beside c) : a.Beside c where
  live := hbc.live.trans hab.live
  wired := hbc.wired.trans hab.wired
  outbound := hbc.outbound.trans hab.outbound
  events := hab.events.trans hbc.events

theorem App.Beside.net {n : Net} {app : App} (h : n.view.Beside app) :
    n.Beside { n with app := app } :=
  ⟨rfl, rfl, h.outbound, h.events⟩

/-- A section of `s` that returns with `?`, out of the loop and past what follows it. -/
def LiveSession.Breaks (s : LiveSession) : Prop :=
  match s.pc with
  | .refold _ io _ => io.history ≠ none
  | .write _ _ frame outcome => maxFrame < frame.toStdvec.length ∨ outcome ≠ none
  | _ => False

/-- The two stays differ in their scripts at most. -/
structure Stay.Same (stay stay' : Stay) : Prop where
  entered : stay'.entered = stay.entered
  since : stay'.since = stay.since
  cursor : stay'.cursor = stay.cursor
  written : stay'.written = stay.written

theorem Stay.same_script (stay : Stay) (script : List Turn) :
    stay.Same { stay with script := script } := ⟨rfl, rfl, rfl, rfl⟩

theorem SessionPc.silent_of_arrival_none {pc : SessionPc} (h : pc.arrival = none) :
    ∀ arrival, pc.arrival = some arrival → arrival.Silent := by
  intro arrival harrival
  rw [h] at harrival
  cases harrival

/-- All that a section of a session can do. -/
inductive LiveSession.Section (s : LiveSession) (n : Net) : SessionPc → Net → Prop
  | before {pc' : SessionPc} {n' : Net} (hpc : s.pc.entered = none) (hpc' : pc'.entered = none)
      (hstay' : pc'.stay = none) (beside : n.Beside n') : s.Section n pc' n'
  | entered {them : String} (hpc : s.pc = .insert them) :
      s.Section n (.connected ⟨n.app.events.length, n.wired.length⟩ them)
        { n with live := n.live.upsert s.peer s.conn }
  | greeted {entered : Entered} {them : String} {n' : Net} (hpc : s.pc = .connected entered them)
      (beside : n.Beside n') : s.Section n (.subscribe entered) n'
  | subscribed {entered : Entered} (hpc : s.pc = .subscribe entered) :
      s.Section n (.loop ⟨entered, n.app.outbound.length, n.app.outbound.length, [], s.script⟩) n
  | stays {stay stay' : Stay} {pc' : SessionPc} {n' : Net} (hstay : s.pc.stay = some stay)
      (hstay' : pc'.stay = some stay') (same : stay.Same stay') (hhand : s.pc.hand = none)
      (hhand' : pc'.hand = none)
      (hbreaks : ¬s.Breaks)
      (silent : ∀ arrival, pc'.arrival = some arrival → arrival.Silent)
      (beside : n.Beside n') : s.Section n pc' n'
  | lagged {stay : Stay} {write : Option String} {script : List Turn} (hpc : s.pc = .loop stay)
      (hscript : stay.script = .outgoing write :: script)
      (hlag : stay.cursor + capacity < n.app.outbound.length) :
      s.Section n (.loop { stay with
        cursor := n.app.outbound.length - capacity, script := script }) n
  | skipped {stay : Stay} {script : List Turn} {other : Key} {frame : Frame}
      (hpc : s.pc = .loop stay) (hitem : n.app.outbound[stay.cursor]? = some (some other, frame))
      (hother : other ≠ s.peer) :
      s.Section n (.loop { stay with cursor := stay.cursor + 1, script := script }) n
  | taken {stay : Stay} {script : List Turn} {target : Option Key} {frame : Frame}
      {outcome : Option String} (hpc : s.pc = .loop stay)
      (hitem : n.app.outbound[stay.cursor]? = some (target, frame)) :
      s.Section n (.write { stay with cursor := stay.cursor + 1, script := script } stay.cursor
        frame outcome) n
  | wrote {stay : Stay} {place : Nat} {frame : Frame} {outcome : Option String}
      (hpc : s.pc = .write stay place frame outcome) (hbreaks : ¬s.Breaks) :
      s.Section n (.loop { stay with written := stay.written ++ [place] }) n
  | leaves {stay stay' : Stay} {result : Except String PUnit} (hpc : s.pc = .loop stay)
      (hentered : stay'.entered = stay.entered) : s.Section n (.remove stay' result) n
  | removed {stay : Stay} {result : Except String PUnit} (hpc : s.pc = .remove stay result) :
      s.Section n (.farewell stay.entered result) { n with live := n.live.erase s.peer }
  | parted {entered : Entered} {result : Except String PUnit} {n' : Net}
      (hpc : s.pc = .farewell entered result) (beside : n.Beside n')
      (hevents : n'.app.events = n.app.events ++ [.disconnected s.peer]) :
      s.Section n (.returned (some entered) result) n'
  | broken {stay : Stay} {err : String} {n' : Net} (hstay : s.pc.stay = some stay)
      (hbreaks : s.Breaks) (beside : n.Beside n') (hevents : n'.app.events = n.app.events) :
      s.Section n (.returned (some stay.entered) (.error err)) n'
  | ended {entered : Option Entered} {result : Except String PUnit} {n' : Net}
      (hpc : s.pc = .returned entered result) (beside : n.Beside n') :
      s.Section n (.gone entered) n'
  | rests {entered : Option Entered} (hpc : s.pc = .gone entered) : s.Section n (.gone entered) n

/-- The frame that is being taken in tells nobody. -/
def LiveSession.Silent (s : LiveSession) : Prop :=
  ∀ arrival, s.pc.arrival = some arrival → arrival.Silent

@[simp] theorem wp_onApp {m : Act α} {ok : α → Net → Prop} {err : String → Net → Prop} {n : Net} :
    wp (onApp m) ok err n ↔
      wp m (fun a app => ok a { n with app := app }) (fun e app => err e { n with app := app })
        n.view := by
  rw [onApp, wp_zoom]

theorem run_onApp {m : Act α} {a : α} {app : App} {n : Net} (h : m.run n.view = .ok a app) :
    (onApp m).run n = .ok a { n with app := app } := by
  simp only [EStateM.run] at h
  simp only [onApp, zoom, EStateM.run, h]

theorem Net.beside_emit (n : Net) (event : UiEvent) :
    n.Beside { n with app := { n.view with events := n.app.events ++ [event] } } :=
  ⟨rfl, rfl, rfl, List.prefix_append _ _⟩

namespace LiveSession

/-- The sections before a session has put its peer into `live`. -/
structure Before (n : Net) (pc' : SessionPc) (n' : Net) : Prop where
  entered : pc'.entered = none
  stay : pc'.stay = none
  beside : n.Beside n'

theorem wp_dial (s : LiveSession) (n : Net) :
    wp (s.dial env) (Before n) (fun _ _ => False) n := by
  simp only [dial, status, wp_bind, wp_get, wp_ite, wp_pure, wp_onApp, wp_emit]
  have hsays : ∀ event, Before n (.gone none) _ := fun event => ⟨rfl, rfl, n.beside_emit event⟩
  have hquiet : ∀ {pc : SessionPc}, pc.entered = none → pc.stay = none → Before n pc n :=
    fun h h' => ⟨h, h', .refl n⟩
  exact ⟨fun _ => ⟨fun _ => hsays _, fun _ => hquiet rfl rfl⟩,
    fun _ => ⟨fun _ => ⟨fun _ => hsays _, fun _ => hquiet rfl rfl⟩, fun _ => hquiet rfl rfl⟩⟩

theorem wp_reserve (s : LiveSession) (n : Net) :
    wp s.reserve (Before n) (fun _ _ => False) n := by
  simp only [reserve, wp_bind, wp_get, wp_ite, wp_pure, wp_modify]
  exact ⟨fun _ => ⟨rfl, rfl, .refl n⟩, fun _ => ⟨rfl, rfl, ⟨rfl, rfl, rfl, List.prefix_refl _⟩⟩⟩

theorem wp_resolve (s : LiveSession) (n : Net) :
    wp s.resolve (Before n) (fun _ _ => False) n := by
  simp only [resolve, release, status, wp_bind, wp_ite, wp_pure, wp_modify, wp_onApp, wp_emit]
  exact ⟨fun _ => ⟨fun _ => ⟨rfl, rfl, n.beside_emit _⟩, fun _ => ⟨rfl, rfl, .refl n⟩⟩,
    fun _ => ⟨fun _ => ⟨rfl, rfl, ⟨rfl, rfl, rfl, List.prefix_append _ _⟩⟩,
      fun _ => ⟨rfl, rfl, ⟨rfl, rfl, rfl, List.prefix_refl _⟩⟩⟩⟩

theorem wp_undial (s : LiveSession) (n : Net) :
    wp s.undial (Before n) (fun _ _ => False) n := by
  simp only [undial, release, warn, wp_bind, wp_modify]
  cases s.connect with
  | none => exact ⟨rfl, rfl, ⟨rfl, rfl, rfl, List.prefix_refl _⟩⟩
  | some err =>
    simp only [wp_bind, wp_ite, wp_pure, wp_onApp, wp_emit]
    exact ⟨fun _ => ⟨rfl, rfl, ⟨rfl, rfl, rfl, List.prefix_append _ _⟩⟩,
      fun _ => ⟨rfl, rfl, ⟨rfl, rfl, rfl, List.prefix_refl _⟩⟩⟩

theorem wp_openBi (s : LiveSession) (n : Net) :
    wp s.openBi (Before n) (fun _ => n.Beside) n := by
  simp only [openBi, wp_bind, wp_attempt, wp_get, wp_lift, wp_pure]
  exact ⟨fun _ => ⟨fun _ _ => ⟨fun _ => ⟨rfl, rfl, .refl n⟩, fun _ _ => .refl n⟩,
    fun _ _ => .refl n⟩, fun _ _ => .refl n⟩

theorem wp_greet (s : LiveSession) (n : Net) : wp s.greet (Before n) (fun _ => n.Beside) n := by
  unfold greet
  split
  · exact .refl n
  · exact ⟨rfl, rfl, .refl n⟩
  · exact .refl n

theorem wp_announcePeer (names : Option String × Option String) (peer : Key) (n : Net) :
    wp (announcePeer names peer) (fun _ => n.Beside) (fun _ _ => False) n := by
  simp only [announcePeer, wp_bind, wp_get, wp_onApp, wp_emit]
  exact n.beside_emit _

theorem wp_rememberNick (setting : Sqlite) (peer : Key) (nick : String) (n : Net) :
    wp (rememberNick setting peer nick) (fun _ => n.Beside) (fun _ _ => False) n := by
  rw [rememberNick, wp_onApp, inStore, wp_zoom, wp_ignore]
  exact ⟨rfl, rfl, rfl, List.prefix_refl _⟩

theorem wp_ended (s : LiveSession) (result : Except String PUnit) (n : Net) :
    wp (s.ended result) (fun _ => n.Beside) (fun _ _ => False) n := by
  unfold ended
  split
  · exact n.beside_emit _
  · exact .refl n

variable {s : LiveSession} {stay : Stay} {n : Net}

theorem not_breaks_of_loop (hpc : s.pc = .loop stay) : ¬s.Breaks := by
  rw [Breaks, hpc]
  exact id

theorem section_incoming (hpc : s.pc = .loop stay) (script : List Turn)
    (read : Except String (Option Frame)) (io : Io) (setting : Sqlite) (reply : Reply) :
    s.Section n (s.incoming { stay with script := script } read io setting reply) n := by
  have hstay : s.pc.stay = some stay := by
    rw [hpc]
    rfl
  have hhand : s.pc.hand = none := by
    rw [hpc]
    rfl
  cases read with
  | error err => exact .leaves hpc rfl
  | ok frame =>
    cases frame with
    | none => exact .leaves hpc rfl
    | some frame =>
      cases frame with
      | hello nickname =>
        exact .stays hstay rfl (stay.same_script script) hhand rfl (not_breaks_of_loop hpc)
          (SessionPc.silent_of_arrival_none rfl) (.refl n)
      | _ =>
        refine .stays hstay rfl (stay.same_script script) hhand rfl (not_breaks_of_loop hpc) ?_
          (.refl n)
        intro arrival harrival
        cases harrival
        exact Arrival.silent_of_task_none rfl

theorem section_receive {write : Option String} {script : List Turn} (hpc : s.pc = .loop stay)
    (hscript : stay.script = .outgoing write :: script) :
    s.Section n (s.receive stay write script n.app.outbound) n := by
  have hstay : s.pc.stay = some stay := by
    rw [hpc]
    rfl
  have hhand : s.pc.hand = none := by
    rw [hpc]
    rfl
  unfold receive
  split
  · rename_i hlag
    exact .lagged hpc hscript hlag
  · split
    · exact .stays hstay rfl ⟨rfl, rfl, rfl, rfl⟩ hhand rfl (not_breaks_of_loop hpc)
        (SessionPc.silent_of_arrival_none rfl) (.refl n)
    · rename_i target frame hitem
      split
      · exact .taken hpc hitem
      · rename_i hother
        cases target with
        | none => simp at hother
        | some other => exact .skipped hpc hitem (by simpa using hother)

theorem wp_turn (hpc : s.pc = .loop stay) :
    wp (s.turn stay) (s.Section n) (fun _ _ => False) n := by
  have hstay : s.pc.stay = some stay := by
    rw [hpc]
    rfl
  have hhand : s.pc.hand = none := by
    rw [hpc]
    rfl
  unfold turn
  split
  · exact .stays hstay rfl ⟨rfl, rfl, rfl, rfl⟩ hhand rfl (not_breaks_of_loop hpc)
      (SessionPc.silent_of_arrival_none rfl) (.refl n)
  · exact section_incoming hpc _ _ _ _ _
  · rename_i hscript
    exact section_receive hpc hscript

theorem accepted_stay (stay : Stay) (arrival : Arrival) :
    (accepted stay arrival).stay = some stay ∧ (accepted stay arrival).hand = none := by
  unfold accepted
  split <;> exact ⟨rfl, rfl⟩

theorem accepted_arrival {stay : Stay} {arrival arrival' : Arrival}
    (h : (accepted stay arrival).arrival = some arrival') : arrival' = arrival := by
  unfold accepted at h
  split at h
  · cases h
  · cases h
  · cases h
    rfl

theorem wp_accept {arrival : Arrival} (hpc : s.pc = .accepting stay arrival)
    (hsilent : arrival.Silent) :
    wp (accept env stay arrival) (s.Section n) (fun _ _ => False) n := by
  obtain ⟨hbeside, hsilent'⟩ : n.view.Beside (arrival.advance env n.view).2 ∧
      (arrival.advance env n.view).1.Silent := hsilent.advance n.view
  obtain ⟨hstay', hhand'⟩ := accepted_stay stay (arrival.advance env n.view).1
  have hstay : s.pc.stay = some stay := by
    rw [hpc]
    rfl
  have hhand : s.pc.hand = none := by
    rw [hpc]
    rfl
  have hbreaks : ¬s.Breaks := by
    rw [Breaks, hpc]
    exact id
  refine .stays hstay hstay' ⟨rfl, rfl, rfl, rfl⟩ hhand hhand' hbreaks ?_ hbeside.net
  intro arrival'' harrival
  rw [accepted_arrival harrival]
  exact hsilent'

theorem wp_writeFrame {place : Nat} {frame : Frame} {outcome : Option String}
    (hpc : s.pc = .write stay place frame outcome) :
    wp (writeFrame stay place frame outcome) (s.Section n)
      (fun err => s.Section n (.returned (some stay.entered) (.error err))) n := by
  have hstay : s.pc.stay = some stay := by
    rw [hpc]
    rfl
  have hbreaks : s.Breaks ↔ maxFrame < frame.toStdvec.length ∨ outcome ≠ none := by
    rw [Breaks, hpc]
  simp only [writeFrame, wp_bind, wp_lift, wp_attempt, wp_pure]
  refine ⟨fun bytes hbytes => ⟨fun hok => ?_, fun err herr => ?_⟩, fun err herr => ?_⟩
  · refine .wrote hpc ?_
    rw [hbreaks, not_or, not_lt, not_not]
    exact ⟨(encode_eq_ok.mp hbytes).1, hok⟩
  · refine .broken hstay (hbreaks.mpr (.inr ?_)) (.refl n) rfl
    rw [herr]
    exact Option.some_ne_none err
  · exact .broken hstay (hbreaks.mpr (.inl (encode_eq_error herr))) (.refl n) rfl

theorem wp_refold {io : Io} {conversation : Key} (hpc : s.pc = .refold stay io conversation) :
    wp (onApp (sendLog io conversation)) (fun _ n' => s.Section n (.loop stay) n')
      (fun err => s.Section n (.returned (some stay.entered) (.error err))) n := by
  have hstay : s.pc.stay = some stay := by
    rw [hpc]
    rfl
  have hhand : s.pc.hand = none := by
    rw [hpc]
    rfl
  have hbreaks : s.Breaks ↔ io.history ≠ none := by rw [Breaks, hpc]
  simp only [sendLog, Store.history, wp_onApp, wp_bind, wp_get, wp_lift, wp_emit]
  refine ⟨fun entries hentries => ?_, fun err herr => ?_⟩
  · refine .stays hstay rfl ⟨rfl, rfl, rfl, rfl⟩ hhand rfl ?_
      (SessionPc.silent_of_arrival_none rfl) (n.beside_emit _)
    rw [hbreaks, not_not]
    cases hio : io.history with
    | none => rfl
    | some err =>
      rw [hio] at hentries
      cases hentries
  · refine .broken hstay (hbreaks.mpr ?_) ⟨rfl, rfl, rfl, List.prefix_refl _⟩ rfl
    intro hnone
    rw [hnone] at herr
    cases herr

/-- Before a session is in `live`, whatever it does is out of the way. -/
theorem wp_before (hpc : s.pc.entered = none) {m : NetAct SessionPc}
    (hm : wp m (Before n) (fun _ => n.Beside) n) :
    wp m (s.Section n) (fun err => s.Section n (.returned s.pc.entered (.error err))) n :=
  wp_mono (fun _ _ h => .before hpc h.entered h.stay h.beside)
    (fun _ _ h => .before hpc hpc rfl h) hm

theorem wp_of_never {m : NetAct SessionPc} {ok : SessionPc → Net → Prop}
    {err : String → Net → Prop} (hm : wp m ok (fun _ _ => False) n) : wp m ok err n :=
  wp_mono (fun _ _ h => h) (fun _ _ h => h.elim) hm

theorem wp_next (s : LiveSession) (n : Net) (hsilent : s.Silent) :
    wp (s.next env) (s.Section n)
      (fun err => s.Section n (.returned s.pc.entered (.error err))) n := by
  have hentered : ∀ {pc}, s.pc = pc → s.pc.entered = pc.entered := fun h => congrArg _ h
  cases hpc : s.pc with
  | dial =>
    simp only [next, hpc]
    exact hpc ▸ wp_before (hentered hpc) (wp_of_never (s.wp_dial n))
  | reserve =>
    simp only [next, hpc]
    exact hpc ▸ wp_before (hentered hpc) (wp_of_never (s.wp_reserve n))
  | announcing =>
    simp only [next, hpc]
    refine hpc ▸ wp_before (hentered hpc) ?_
    simp only [wp_bind, wp_pure]
    exact wp_mono (fun _ _ h => ⟨rfl, rfl, h⟩) (fun _ _ h => h.elim)
      (wp_announcePeer s.names s.peer n)
  | resolving =>
    simp only [next, hpc]
    exact hpc ▸ wp_before (hentered hpc) (wp_of_never (s.wp_resolve n))
  | undial =>
    simp only [next, hpc]
    exact hpc ▸ wp_before (hentered hpc) (wp_of_never (s.wp_undial n))
  | opening =>
    simp only [next, hpc]
    exact hpc ▸ wp_before (hentered hpc) (s.wp_openBi n)
  | greeting =>
    simp only [next, hpc]
    exact hpc ▸ wp_before (hentered hpc) (s.wp_greet n)
  | remember them =>
    simp only [next, hpc]
    refine hpc ▸ wp_before (hentered hpc) ?_
    simp only [wp_bind, wp_pure]
    exact wp_mono (fun _ _ h => ⟨rfl, rfl, h⟩) (fun _ _ h => h.elim)
      (wp_rememberNick s.setting s.peer them n)
  | insert them =>
    simp only [next, hpc, enter, wp_bind, wp_get, wp_modify, wp_pure]
    exact .entered hpc
  | connected entered them =>
    simp only [next, hpc, wp_bind, wp_onApp, wp_emit, wp_pure]
    exact .greeted hpc (n.beside_emit _)
  | subscribe entered =>
    simp only [next, hpc, subscribe, wp_bind, wp_get, wp_pure]
    exact .subscribed hpc
  | loop stay =>
    simp only [next, hpc]
    exact wp_of_never (wp_turn hpc)
  | accepting stay arrival =>
    simp only [next, hpc]
    refine wp_of_never (wp_accept hpc (hsilent arrival ?_))
    rw [hpc]
    rfl
  | refold stay io conversation =>
    simp only [next, hpc, wp_bind, wp_pure]
    exact wp_refold hpc
  | rename stay setting nickname =>
    simp only [next, hpc, wp_bind, wp_pure]
    refine wp_mono (fun _ n' h => ?_) (fun _ _ h => h.elim)
      (wp_rememberNick setting s.peer nickname n)
    exact .stays (congrArg _ hpc) rfl ⟨rfl, rfl, rfl, rfl⟩ (congrArg _ hpc) rfl
      (by rw [Breaks, hpc]; exact id) (SessionPc.silent_of_arrival_none rfl) h
  | renamed stay nickname =>
    simp only [next, hpc, wp_bind, wp_onApp, wp_emit, wp_pure]
    exact .stays (congrArg _ hpc) rfl ⟨rfl, rfl, rfl, rfl⟩ (congrArg _ hpc) rfl
      (by rw [Breaks, hpc]; exact id) (SessionPc.silent_of_arrival_none rfl) (n.beside_emit _)
  | write stay place frame outcome =>
    simp only [next, hpc]
    exact wp_writeFrame hpc
  | remove stay result =>
    simp only [next, hpc, wp_bind, wp_modify, wp_pure]
    exact .removed hpc
  | farewell entered result =>
    simp only [next, hpc, wp_bind, wp_onApp, wp_emit, wp_pure]
    exact .parted hpc (n.beside_emit _) rfl
  | returned entered result =>
    simp only [next, hpc, wp_bind, wp_pure]
    exact wp_mono (fun _ _ h => .ended hpc h) (fun _ _ h => h.elim) (s.wp_ended result n)
  | gone entered =>
    simp only [next, hpc, wp_pure]
    exact .rests hpc

variable (env) in
theorem section_advance (s : LiveSession) (n : Net) (hsilent : s.Silent) :
    s.Section n (s.advance env n).1.pc (s.advance env n).2 := by
  have h : wp (s.next env) _ _ n := s.wp_next n hsilent
  unfold advance
  rcases wp_cases h with ⟨pc, n', hrun, h⟩ | ⟨err, n', hrun, h⟩
  · rw [hrun]
    exact h
  · rw [hrun]
    exact h

/-- A section changes where a session stands and nothing else about it. -/
theorem advance_eq (s : LiveSession) (n : Net) :
    (s.advance env n).1 = { s with pc := (s.advance env n).1.pc } := by
  unfold advance
  cases (s.next env).run n <;> rfl

theorem Section.silent {pc' : SessionPc} {n' : Net} (h : s.Section n pc' n') :
    ∀ arrival, pc'.arrival = some arrival → arrival.Silent := by
  cases h with
  | before hpc hpc' hstay' =>
    cases pc' with
    | accepting stay arrival => cases hpc'
    | _ => exact SessionPc.silent_of_arrival_none rfl
  | stays hstay hstay' same hhand hhand' hbreaks silent => exact silent
  | _ => exact SessionPc.silent_of_arrival_none rfl

end LiveSession

/-- One more item is in the broadcast. -/
structure Net.Sends (n : Net) (item : Option Key × Frame) (n' : Net) : Prop where
  live : n'.live = n.live
  wired : n'.wired = n.wired
  outbound : n'.app.outbound = n.app.outbound ++ [item]
  events : n.app.events <+: n'.app.events

/-- One more report of `Wire` has been made. -/
structure Net.Reports (n : Net) (peer : Key) (place : Nat) (n' : Net) : Prop where
  live : n'.live = n.live
  wired : n'.wired = n.wired ++ [(peer, place)]
  outbound : n'.app.outbound = n.app.outbound
  events : n.app.events <+: n'.app.events

@[simp] theorem mem_live_view {n : Net} {peer : Key} :
    peer ∈ n.view.live ↔ n.live.containsKey peer = true := by
  simp [Net.view]

/-- The events of a report. -/
def reported (frame : Frame) (state : Delivery) : List UiEvent :=
  match frame.id with
  | some id => [.delivery id state]
  | none => []

theorem run_report (frame : Frame) (state : Delivery) (app : App) :
    (report frame state).run app =
      .ok .unit { app with events := app.events ++ reported frame state } := by
  cases hid : frame.id with
  | none => simp [report, reported, hid]
  | some id =>
    simp only [report, reported, hid]
    rfl

@[simp] theorem wp_report_iff {frame : Frame} {state : Delivery} {ok : PUnit → App → Prop}
    {err : String → App → Prop} {app : App} :
    wp (report frame state) ok err app ↔
      ok .unit { app with events := app.events ++ reported frame state } := by
  unfold wp
  rw [run_report]

theorem beside_report (n : Net) (frame : Frame) (state : Delivery) :
    n.view.Beside { n.view with events := n.app.events ++ reported frame state } :=
  ⟨rfl, rfl, List.prefix_append _ _⟩

namespace Deliver

/-- All that a section of `deliver_to` can do. -/
inductive Section (d : Deliver) (n : Net) : DeliverPc → Net → Prop
  | quiet {pc' : DeliverPc} {n' : Net} (hpc' : pc'.place = none)
      (beside : n.Beside n') : d.Section n pc' n'
  | sent {n' : Net} (hpc : d.pc = .send) (sends : n.Sends (some d.peer, d.frame) n') :
      d.Section n (.report n.app.outbound.length) n'
  | reported {place : Nat} {n' : Net} (hpc : d.pc = .report place) (hid : d.frame.id.isSome)
      (reports : n.Reports d.peer place n') : d.Section n .done n'

theorem wp_next (d : Deliver) (n : Net) :
    wp (d.next env) (d.Section n) (fun _ _ => False) n := by
  cases hpc : d.pc with
  | start =>
    simp only [next, hpc, wp_bind, wp_onApp, wp_modify, wp_get, wp_pure]
    refine .quiet ?_ ⟨rfl, rfl, rfl, List.prefix_refl _⟩
    split
    · rfl
    · split <;> rfl
  | send =>
    simp only [next, hpc, wp_bind, wp_onApp, wp_modify, wp_get, wp_pure]
    exact .sent hpc ⟨rfl, rfl, rfl, List.prefix_refl _⟩
  | report place =>
    simp only [next, hpc, wp_bind, wp_onApp, wp_report_iff, wp_ite, wp_modify, wp_pure]
    refine ⟨fun hid => .reported hpc hid ⟨rfl, rfl, rfl, List.prefix_append _ _⟩, fun _ => ?_⟩
    exact .quiet rfl (beside_report n d.frame .wire).net
  | mail =>
    simp only [next, hpc, wp_bind, wp_onApp, wp_report_iff, wp_modify, wp_pure]
    exact .quiet rfl ⟨rfl, rfl, rfl, List.prefix_append _ _⟩
  | fail =>
    simp only [next, hpc, status, wp_bind, wp_onApp, wp_report_iff, wp_emit, wp_pure]
    refine .quiet rfl ⟨rfl, rfl, rfl, ?_⟩
    exact (List.prefix_append _ _).trans (List.prefix_append _ _)
  | done =>
    simp only [next, hpc, wp_pure]
    exact .quiet rfl (.refl n)

variable (env) in
theorem section_advance (d : Deliver) (n : Net) :
    d.Section n (d.advance env n).1.pc (d.advance env n).2 := by
  have h : wp (d.next env) _ _ n := d.wp_next n
  unfold advance
  rcases wp_cases h with ⟨pc, n', hrun, h⟩ | ⟨err, n', hrun, h⟩
  · rw [hrun]
    exact h
  · rw [hrun]
    exact h.elim

theorem advance_eq (d : Deliver) (n : Net) :
    (d.advance env n).1 = { d with pc := (d.advance env n).1.pc } := by
  unfold advance
  cases (d.next env).run n <;> rfl

theorem advance_start (peer : Key) (frame : Frame) (n : Net) :
    advance env ⟨peer, frame, .start⟩ n =
      (⟨peer, frame,
          if n.live.containsKey peer then .send else if env.hub then .mail else .fail⟩,
        { n with app := { n.view with handed := n.app.handed ++ [(peer, frame)] } }) := rfl

theorem advance_send (peer : Key) (frame : Frame) (n : Net) :
    advance env ⟨peer, frame, .send⟩ n =
      (⟨peer, frame, .report n.app.outbound.length⟩,
        { n with app := { n.view with outbound := n.app.outbound ++ [(some peer, frame)] } }) := rfl

theorem advance_report (peer : Key) (frame : Frame) (place : Nat) (n : Net) :
    advance env ⟨peer, frame, .report place⟩ n =
      (⟨peer, frame, .done⟩,
        { n with
          app := { n.view with events := n.app.events ++ reported frame .wire }
          wired := n.wired ++ if frame.id.isSome then [(peer, place)] else [] }) := by
  simp only [advance, next, EStateM.run_bind, run_onApp (run_report frame .wire n.view)]
  cases frame.id with
  | none =>
    simp
    rfl
  | some id => rfl

theorem advance_mail (peer : Key) (frame : Frame) (n : Net) :
    advance env ⟨peer, frame, .mail⟩ n =
      (⟨peer, frame, .done⟩,
        { n with app := { n.view with
          events := n.app.events ++ reported frame .mailbox
          mailing := n.app.mailing ++ [(peer, frame)] } }) := by
  have hrun : (do
      report frame .mailbox
      modify fun app => { app with mailing := app.mailing ++ [(peer, frame)] } : Act PUnit).run
        n.view = .ok .unit { n.view with
          events := n.app.events ++ reported frame .mailbox
          mailing := n.app.mailing ++ [(peer, frame)] } := by
    rw [EStateM.run_bind, run_report]
    rfl
  simp only [advance, next, EStateM.run_bind, run_onApp hrun, EStateM.run_pure]

theorem advance_fail (peer : Key) (frame : Frame) (n : Net) :
    advance env ⟨peer, frame, .fail⟩ n =
      (⟨peer, frame, .done⟩,
        { n with app := { n.view with
          events := n.app.events ++ reported frame .failed ++
            [.status "peer is offline and no hub is configured — saved locally only" false] } }) := by
  have hrun : (do
      report frame .failed
      status "peer is offline and no hub is configured — saved locally only" : Act PUnit).run
        n.view = .ok .unit { n.view with
          events := n.app.events ++ reported frame .failed ++
            [.status "peer is offline and no hub is configured — saved locally only" false] } := by
    rw [EStateM.run_bind, run_report]
    rfl
  simp only [advance, next, EStateM.run_bind, run_onApp hrun, EStateM.run_pure]

/-- `deliver_to` with its report as a function of its own. -/
theorem deliverTo_eq (peer : Key) (frame : Frame) :
    deliverTo env peer frame = (do
      modify fun app => { app with handed := app.handed ++ [(peer, frame)] }
      let app ← get
      if peer ∈ app.live then do
        modify fun app => { app with outbound := app.outbound ++ [(some peer, frame)] }
        report frame .wire
      else if env.hub then do
        report frame .mailbox
        modify fun app => { app with mailing := app.mailing ++ [(peer, frame)] }
      else do
        report frame .failed
        status "peer is offline and no hub is configured — saved locally only") := rfl

/-- What `deliver_to` leaves behind. -/
theorem after_deliverTo (peer : Key) (frame : Frame) (n : Net) :
    after (deliverTo env peer frame) n.view =
      if n.live.containsKey peer then { n.view with
        handed := n.app.handed ++ [(peer, frame)]
        outbound := n.app.outbound ++ [(some peer, frame)]
        events := n.app.events ++ reported frame .wire }
      else if env.hub then { n.view with
        handed := n.app.handed ++ [(peer, frame)]
        events := n.app.events ++ reported frame .mailbox
        mailing := n.app.mailing ++ [(peer, frame)] }
      else { n.view with
        handed := n.app.handed ++ [(peer, frame)]
        events := n.app.events ++ reported frame .failed ++
          [.status "peer is offline and no hub is configured — saved locally only" false] } := by
  rw [← wp_after (P := (· = _)), deliverTo_eq]
  simp only [wp_bind, wp_modify, wp_get, wp_ite, wp_report_iff, status, wp_emit]
  refine ⟨fun hlive => ?_, fun hlive => ⟨fun hhub => ?_, fun hhub => ?_⟩⟩
  · rw [if_pos (mem_live_view.mp hlive)]
    rfl
  · rw [if_neg (mt mem_live_view.mpr hlive), if_pos hhub]
    rfl
  · rw [if_neg (mt mem_live_view.mpr hlive), if_neg hhub]
    rfl

/-- Run on its own, it is `deliver_to`, and what it has reported as `Wire` is the last of the
broadcast. -/
theorem alone_eq_deliverTo (peer : Key) (frame : Frame) (n : Net) :
    alone (advance env) 3 ⟨peer, frame, .start⟩ n =
      (⟨peer, frame, .done⟩,
        { n with
          app := after (deliverTo env peer frame) n.view
          wired := n.wired ++ if n.live.containsKey peer ∧ frame.id.isSome then
            [(peer, n.app.outbound.length)] else [] }) := by
  simp only [alone, advance_start, after_deliverTo]
  by_cases hlive : n.live.containsKey peer
  · simp only [hlive, if_true, advance_send, advance_report, true_and]
    rfl
  · by_cases hhub : env.hub
    · simp only [hlive, hhub, Bool.false_eq_true, if_false, if_true, advance_mail, false_and,
        List.append_nil]
      rfl
    · simp only [hlive, hhub, Bool.false_eq_true, if_false, advance_fail, false_and,
        List.append_nil]
      rfl

end Deliver

namespace Nick

/-- All that a section of `/nick` can do. -/
inductive Section (n : Net) : Net → Prop
  | quiet {n' : Net} (beside : n.Beside n') : Section n n'
  | sent {frame : Frame} {n' : Net} (sends : n.Sends (none, frame) n') : Section n n'

theorem wp_next (k : Nick) (n : Net) :
    wp k.next (fun _ => Section n) (fun _ _ => False) n := by
  cases hpc : k.pc with
  | start =>
    simp only [next, hpc, wp_bind, wp_modify, wp_pure]
    exact .quiet ⟨rfl, rfl, rfl, List.prefix_refl _⟩
  | save =>
    simp only [next, hpc, wp_bind, wp_rescue, wp_onApp, wp_pure]
    refine wp_mono (fun _ _ h => .quiet h.net) (fun err app h => ?_) (wp_inStore_beside n.view)
    exact .quiet ⟨rfl, rfl, h.outbound, h.events.trans (List.prefix_append _ _)⟩
  | send =>
    simp only [next, hpc, wp_bind, wp_onApp, wp_modify, wp_pure]
    exact .sent ⟨rfl, rfl, rfl, List.prefix_refl _⟩
  | done =>
    simp only [next, hpc, wp_pure]
    exact .quiet (.refl n)

theorem section_advance (k : Nick) (n : Net) : Section n (k.advance n).2 := by
  have h := k.wp_next n
  unfold advance
  rcases wp_cases h with ⟨pc, n', hrun, h⟩ | ⟨err, n', hrun, h⟩
  · rw [hrun]
    exact h
  · rw [hrun]
    exact h.elim

end Nick

end Wicara.Client
