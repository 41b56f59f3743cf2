import Wicara.Client.Overlap

namespace Wicara.Client

open Wicara.Core Lib Lib.Fallible Lib.Interleaving Lib.Run

variable {C : Crypto} {env : Env C}

/-- At this place of the broadcast is a frame for the peer that gets a report. -/
def Net.sent (n : Net) (peer : Key) (place : Nat) : Bool :=
  match n.app.outbound[place]? with
  | some (some target, frame) => target = peer && frame.id.isSome
  | _ => false

/-- In `live` and not yet subscribed to the broadcast. -/
def SessionPc.waiting : SessionPc → Option Entered
  | .connected entered _ | .subscribe entered => some entered
  | _ => none

/-- In its loop, and the next turn receives. -/
def SessionPc.receiving : SessionPc → Option Stay
  | .loop stay =>
    match stay.script with
    | .outgoing _ :: _ => some stay
    | _ => none
  | _ => none

/-- What stands at this place of the broadcast was sent to the session's receiver. -/
def LiveSession.Hears (s : LiveSession) (place : Nat) : Prop :=
  s.pc.waiting = none ∧ ∀ stay ∈ s.pc.stay, stay.since ≤ place

instance (s : LiveSession) (place : Nat) : Decidable (s.Hears place) :=
  inferInstanceAs (Decidable (_ ∧ _))

/-- If the receiver has fallen behind, it does not skip anything that gets a report. -/
def LiveSession.Keeps (s : LiveSession) (n : Net) : Prop :=
  ∀ stay ∈ s.pc.receiving, ∀ place < n.app.outbound.length - capacity,
    stay.cursor ≤ place → n.sent s.peer place = false

instance (s : LiveSession) (n : Net) : Decidable (s.Keeps n) :=
  inferInstanceAs (Decidable (∀ _ ∈ _, _))

namespace Net

variable {n n' : Net} {peer : Key} {place : Nat}

theorem lt_of_sent (h : n.sent peer place = true) : place < n.app.outbound.length := by
  unfold sent at h
  split at h
  · rename_i hitem
    exact (List.getElem?_eq_some_iff.mp hitem).1
  · cases h

theorem sent_of_getElem? {frame : Frame} (hid : frame.id.isSome)
    (h : n.app.outbound[place]? = some (some peer, frame)) : n.sent peer place = true := by
  simp [sent, h, hid]

/-- What is in the broadcast stays where it is. -/
theorem sent_of_lt (hout : n.app.outbound <+: n'.app.outbound)
    (hplace : place < n.app.outbound.length) :
    n'.sent peer place = n.sent peer place := by
  obtain ⟨more, hmore⟩ := hout
  rw [sent, sent, ← hmore, List.getElem?_append_left hplace]

theorem getElem?_outbound {item : Option Key × Frame} (hout : n.app.outbound <+: n'.app.outbound)
    (h : n.app.outbound[place]? = some item) : n'.app.outbound[place]? = some item := by
  obtain ⟨more, hmore⟩ := hout
  rw [← hmore, List.getElem?_append_left (List.getElem?_eq_some_iff.mp h).1, h]

theorem sent_mono (hout : n.app.outbound <+: n'.app.outbound) (h : n.sent peer place = true) :
    n'.sent peer place = true := by
  rw [sent_of_lt hout (lt_of_sent h)]
  exact h

end Net

/-- A session in its loop has what was sent to its receiver up to where that stands, and the
reports since the session is in `live` are of what was sent to its receiver. -/
structure Stay.Follows (stay : Stay) (peer : Key) (hand : Option Nat) (n : Net) : Prop where
  marked : stay.entered.wired ≤ n.wired.length
  cursor : stay.cursor ≤ n.app.outbound.length
  read : ∀ place, stay.since ≤ place → place < stay.cursor → n.sent peer place = true →
    place ∈ stay.written ∨ hand = some place
  heard : ∀ place, (peer, place) ∈ n.wired.drop stay.entered.wired → stay.since ≤ place

/-- Nothing has been reported since the session is in `live`. -/
structure Entered.Quiet (entered : Entered) (peer : Key) (n : Net) : Prop where
  marked : entered.wired ≤ n.wired.length
  unreported : ∀ place, (peer, place) ∉ n.wired.drop entered.wired

structure LiveSession.Follows (s : LiveSession) (n : Net) : Prop where
  waiting : ∀ entered, s.pc.waiting = some entered → entered.Quiet s.peer n
  stay : ∀ stay, s.pc.stay = some stay → stay.Follows s.peer s.pc.hand n

/-- The broadcast and the reports only grow, by what the session hears of. -/
structure LiveSession.Heard (s : LiveSession) (n n' : Net) : Prop where
  outbound : n.app.outbound <+: n'.app.outbound
  wired : ∃ more, n'.wired = n.wired ++ more ∧ ∀ place, (s.peer, place) ∈ more → s.Hears place

theorem Net.Beside.heard {n n' : Net} (h : n.Beside n') (s : LiveSession) : s.Heard n n' where
  outbound := h.outbound ▸ List.prefix_refl _
  wired := ⟨[], by rw [h.wired, List.append_nil], nofun⟩

theorem LiveSession.Follows.mono {s : LiveSession} {n n' : Net} (h : s.Follows n)
    (heard : s.Heard n n') : s.Follows n' := by
  obtain ⟨hout, more, hwired, hmore⟩ := heard
  have hle : n.wired.length ≤ n'.wired.length := by
    rw [hwired, List.length_append]
    exact Nat.le_add_right _ _
  constructor
  · intro entered hentered
    have hquiet := h.waiting entered hentered
    refine ⟨hquiet.marked.trans hle, fun place hplace => ?_⟩
    rw [hwired, List.drop_append_of_le_length hquiet.marked, List.mem_append] at hplace
    obtain hold | hnew := hplace
    · exact hquiet.unreported place hold
    · rw [(hmore place hnew).1] at hentered
      cases hentered
  · intro stay hstay
    have hfollows := h.stay stay hstay
    refine ⟨hfollows.marked.trans hle, hfollows.cursor.trans hout.length_le, ?_, ?_⟩
    · intro place hsince hcursor hsent
      rw [Net.sent_of_lt hout (hcursor.trans_le hfollows.cursor)] at hsent
      exact hfollows.read place hsince hcursor hsent
    · intro place hplace
      rw [hwired, List.drop_append_of_le_length hfollows.marked, List.mem_append] at hplace
      obtain hold | hnew := hplace
      · exact hfollows.heard place hold
      · exact (hmore place hnew).2 stay hstay

namespace SessionPc

variable {pc : SessionPc}

theorem entered_of_waiting {entered : Entered} (h : pc.waiting = some entered) :
    pc.entered = some entered := by
  cases pc with
  | connected | subscribe => exact h
  | _ => exact (Option.some_ne_none _ h.symm).elim

theorem waiting_of_stay {stay : Stay} (h : pc.stay = some stay) : pc.waiting = none := by
  cases pc with
  | loop | accepting | refold | rename | renamed | write => rfl
  | _ => exact (Option.some_ne_none _ h.symm).elim

end SessionPc

namespace LiveSession

variable {s : LiveSession} {n n' : Net} {pc' : SessionPc}

theorem follows_of_out (hwaiting : pc'.waiting = none) (hstay : pc'.stay = none) :
    Follows { s with pc := pc' } n where
  waiting _ h := (Option.some_ne_none _ (h.symm.trans hwaiting)).elim
  stay _ h := (Option.some_ne_none _ (h.symm.trans hstay)).elim

theorem follows_of_stay {stay : Stay} (hstay : pc'.stay = some stay)
    (h : stay.Follows s.peer pc'.hand n) : Follows { s with pc := pc' } n where
  waiting entered hentered :=
    (Option.some_ne_none _ (hentered.symm.trans (SessionPc.waiting_of_stay hstay))).elim
  stay stay' hstay' := by
    cases hstay.symm.trans hstay'
    exact h

theorem Follows.of_pc (h : s.Follows n) (hpc : s.pc = pc') {stay : Stay}
    (hstay : pc'.stay = some stay) : stay.Follows s.peer pc'.hand n := by
  subst hpc
  exact h.stay stay hstay

/-- What a session has written, or still has to write, it goes on having. -/
theorem Section.follows (h : s.Section n pc' n') (hfollows : s.Follows n) (hkeeps : s.Keeps n) :
    Follows { s with pc := pc' } n' := by
  cases h with
  | before hpc hpc' hstay' beside =>
    refine follows_of_out ?_ hstay'
    rw [Option.eq_none_iff_forall_ne_some]
    intro entered hentered
    rw [SessionPc.entered_of_waiting hentered] at hpc'
    cases hpc'
  | entered hpc =>
    constructor
    · intro entered hentered
      cases hentered
      exact ⟨le_refl _, by simp⟩
    · intro stay hstay
      cases hstay
  | greeted hpc beside =>
    constructor
    · intro entered hentered
      cases hentered
      exact (hfollows.mono (beside.heard s)).waiting _ (congrArg SessionPc.waiting hpc)
    · intro stay hstay
      cases hstay
  | subscribed hpc =>
    have hquiet := hfollows.waiting _ (congrArg SessionPc.waiting hpc)
    refine follows_of_stay rfl ⟨hquiet.marked, le_refl _, ?_, ?_⟩
    · intro place hsince hcursor
      exact absurd hcursor (not_lt.mpr hsince)
    · intro place hplace
      exact absurd hplace (hquiet.unreported place)
  | stays hstay hstay' same hhand hhand' hbreaks silent beside =>
    have hold := (hfollows.mono (beside.heard s)).stay _ hstay
    refine follows_of_stay hstay' ⟨?_, ?_, ?_, ?_⟩
    · rw [same.entered]
      exact hold.marked
    · rw [same.cursor]
      exact hold.cursor
    · rw [same.since, same.cursor, same.written, hhand', ← hhand]
      exact hold.read
    · rw [same.entered, same.since]
      exact hold.heard
  | @lagged stay write script hpc hscript hlag =>
    have hold := hfollows.of_pc hpc rfl
    have hreceiving : stay ∈ s.pc.receiving := by
      rw [hpc, SessionPc.receiving, hscript]
      rfl
    refine follows_of_stay rfl ⟨hold.marked, Nat.sub_le _ _, ?_, hold.heard⟩
    intro place hsince hcursor hsent
    by_cases hread : place < stay.cursor
    · exact hold.read place hsince hread hsent
    · rw [hkeeps stay hreceiving place hcursor (not_lt.mp hread)] at hsent
      cases hsent
  | @skipped stay script other frame hpc hitem hother =>
    have hold := hfollows.of_pc hpc rfl
    have hlt := (List.getElem?_eq_some_iff.mp hitem).1
    refine follows_of_stay rfl ⟨hold.marked, hlt, ?_, hold.heard⟩
    intro place hsince hcursor hsent
    obtain hread | rfl := Nat.lt_succ_iff_lt_or_eq.mp hcursor
    · exact hold.read place hsince hread hsent
    · simp [Net.sent, hitem, hother] at hsent
  | @taken stay script target frame outcome hpc hitem =>
    have hold := hfollows.of_pc hpc rfl
    have hlt := (List.getElem?_eq_some_iff.mp hitem).1
    refine follows_of_stay rfl ⟨hold.marked, hlt, ?_, hold.heard⟩
    intro place hsince hcursor hsent
    obtain hread | rfl := Nat.lt_succ_iff_lt_or_eq.mp hcursor
    · exact .inl ((hold.read place hsince hread hsent).resolve_right nofun)
    · exact .inr rfl
  | @wrote stay place frame outcome hpc hbreaks =>
    have hold := hfollows.of_pc hpc rfl
    refine follows_of_stay rfl ⟨hold.marked, hold.cursor, ?_, hold.heard⟩
    intro place' hsince hcursor hsent
    left
    obtain hwritten | hhand := hold.read place' hsince hcursor hsent
    · exact List.mem_append_left _ hwritten
    · cases hhand
      exact List.mem_append_right _ (List.mem_singleton_self _)
  | leaves | removed | parted | broken | ended | rests => exact follows_of_out rfl rfl

theorem Section.wired (h : s.Section n pc' n') : n'.wired = n.wired := by
  cases h with
  | before _ _ _ beside | greeted _ beside | stays _ _ _ _ _ _ _ beside | parted _ beside
  | broken _ _ beside | ended _ beside => exact beside.wired
  | _ => rfl

theorem Section.outbound (h : s.Section n pc' n') : n'.app.outbound = n.app.outbound := by
  cases h with
  | before _ _ _ beside | greeted _ beside | stays _ _ _ _ _ _ _ beside | parted _ beside
  | broken _ _ beside | ended _ beside => exact beside.outbound
  | _ => rfl

end LiveSession

namespace NetTasks

/-- What is reported now was sent to every session of the peer that is in `live`, and what is
skipped now gets no report. -/
structure Reaches (p : NetTasks) (i : Nat) : Prop where
  report : ∀ d ∈ p.deliver i, ∀ place ∈ d.pc.place, d.frame.id.isSome →
    ∀ j < p.tasks.length, ∀ s ∈ p.session j, s.peer = d.peer → s.Hears place
  receive : ∀ s ∈ p.session i, s.Keeps p.shared

instance (p : NetTasks) (i : Nat) : Decidable (p.Reaches i) :=
  decidable_of_iff ((∀ d ∈ p.deliver i, ∀ place ∈ d.pc.place, d.frame.id.isSome →
    ∀ j < p.tasks.length, ∀ s ∈ p.session j, s.peer = d.peer → s.Hears place) ∧
    ∀ s ∈ p.session i, s.Keeps p.shared) ⟨fun h => ⟨h.1, h.2⟩, fun h => ⟨h.report, h.receive⟩⟩

structure Followed (p : NetTasks) : Prop where
  silent : ∀ i s, p.session i = some s → s.Silent
  sessions : ∀ i s, p.session i = some s → s.Follows p.shared
  delivers : ∀ i d, p.deliver i = some d → ∀ place, d.pc = .report place →
    p.shared.app.outbound[place]? = some (some d.peer, d.frame)
  wired : ∀ peer place, (peer, place) ∈ p.shared.wired → p.shared.sent peer place = true

variable {p p' : NetTasks} {i : Nat}

theorem lt_of_session {s : LiveSession} (h : p.session i = some s) : i < p.tasks.length :=
  (List.getElem?_eq_some_iff.mp (session_eq_some.mp h)).1

theorem Step.outbound (hstep : p.Step i p') : p.shared.app.outbound <+: p'.shared.app.outbound := by
  cases hstep with
  | session hs h => exact h.outbound ▸ List.prefix_refl _
  | deliver hd h =>
    cases h with
    | quiet hpc' beside => exact beside.outbound ▸ List.prefix_refl _
    | sent hpc sends => exact sends.outbound ▸ List.prefix_append _ _
    | reported hpc hid reports => exact reports.outbound ▸ List.prefix_refl _
  | nick h =>
    cases h with
    | quiet beside => exact beside.outbound ▸ List.prefix_refl _
    | sent sends => exact sends.outbound ▸ List.prefix_append _ _
  | idle hs hp => exact hp ▸ List.prefix_refl _

/-- What a step adds to the reports. -/
theorem Step.wired (hstep : p.Step i p') :
    p'.shared.wired = p.shared.wired ∨
      ∃ d place, p.deliver i = some d ∧ d.pc = .report place ∧ d.frame.id.isSome ∧
        p'.shared.wired = p.shared.wired ++ [(d.peer, place)] := by
  cases hstep with
  | session hs h => exact .inl h.wired
  | deliver hd h =>
    cases h with
    | quiet hpc' beside => exact .inl beside.wired
    | sent hpc sends => exact .inl sends.wired
    | reported hpc hid reports => exact .inr ⟨_, _, hd, hpc, hid, reports.wired⟩
  | nick h =>
    cases h with
    | quiet beside => exact .inl beside.wired
    | sent sends => exact .inl sends.wired
  | idle hs hp => exact .inl (by rw [hp])

theorem Step.heard (hstep : p.Step i p') (hreaches : p.Reaches i) {j : Nat} {s : LiveSession}
    (hs : p.session j = some s) : s.Heard p.shared p'.shared where
  outbound := hstep.outbound
  wired := by
    obtain hsame | ⟨d, place, hd, hpc, hid, hwired⟩ := hstep.wired
    · exact ⟨[], by rw [hsame, List.append_nil], nofun⟩
    · refine ⟨_, hwired, fun place' hplace' => ?_⟩
      obtain ⟨hpeer, rfl⟩ := Prod.mk.inj (List.mem_singleton.mp hplace')
      exact hreaches.report d hd place' (by rw [hpc]; rfl) hid j (lt_of_session hs) s hs hpeer

theorem Step.delivers (hstep : p.Step i p') (hp : p.Followed) {j : Nat} {d : Deliver}
    (hd : p'.deliver j = some d) {place : Nat} (hplace : d.pc = .report place) :
    p'.shared.app.outbound[place]? = some (some d.peer, d.frame) := by
  have hold (h : p'.deliver j = p.deliver j) :
      p'.shared.app.outbound[place]? = some (some d.peer, d.frame) :=
    Net.getElem?_outbound hstep.outbound (hp.delivers j d (h ▸ hd) place hplace)
  cases hstep with
  | session hs h hs' hd' others =>
    refine hold (others.deliver j ?_)
    rintro rfl
    cases hd'.symm.trans hd
  | deliver hd₀ h hd' hs hs' others =>
    by_cases hij : j = i
    · subst hij
      cases hd'.symm.trans hd
      cases h with
      | quiet hpc' beside =>
        cases hplace
        cases hpc'
      | sent hpc sends =>
        cases hplace
        rw [sends.outbound, List.getElem?_concat_length]
      | reported hpc hid reports => cases hplace
    · exact hold (others.deliver j hij)
  | nick h hs sessions delivers => exact hold (delivers j)
  | idle hs hp' => exact hold (by rw [hp'])

variable (env) in
theorem Followed.step (hp : p.Followed) (hreaches : p.Reaches i) :
    NetTasks.Followed (p.step (NetTask.advance env) i) := by
  have hstep := p.step_cases env (hp.silent i)
  constructor
  · exact hstep.sessions (A := fun _ s _ => s.Silent) (fun _ _ _ h _ => h.silent)
      (fun _ _ _ _ h => h) hp.silent
  · refine hstep.sessions (A := fun _ s n => s.Follows n) ?_ ?_ hp.sessions
    · exact fun s pc' hs h hfollows => h.follows hfollows (hreaches.receive s hs)
    · exact fun j s hs hij hfollows => hfollows.mono (hstep.heard hreaches hs)
  · exact fun j d hd place hplace => hstep.delivers hp hd hplace
  · intro peer place hplace
    obtain hsame | ⟨d, place', hd, hpc, hid, hwired⟩ := hstep.wired
    · exact Net.sent_mono hstep.outbound (hp.wired peer place (hsame ▸ hplace))
    · rw [hwired, List.mem_append, List.mem_singleton] at hplace
      obtain hold | hnew := hplace
      · exact Net.sent_mono hstep.outbound (hp.wired peer place hold)
      · cases hnew
        exact Net.sent_mono hstep.outbound (Net.sent_of_getElem? hid (hp.delivers i d hd place hpc))

theorem Followed.start (store : Store) (nickname : String) (tasks : List NetTask) :
    (NetTasks.start store nickname tasks).Followed where
  silent := (Tracked.start store nickname tasks).silent
  sessions i s hs := by
    have hout : s.pc.waiting = none ∧ s.pc.stay = none := by
      obtain ⟨-, hpc | hpc⟩ := session_start hs <;> rw [hpc] <;> exact ⟨rfl, rfl⟩
    exact LiveSession.follows_of_out (s := s) hout.1 hout.2
  delivers i d hd place hplace := by
    rw [deliver_start hd] at hplace
    cases hplace
  wired peer place hplace := by cases hplace

/-- Whoever is in its loop with nothing left to receive has written what has been reported for
its peer since it is in `live`. -/
def Written (p : NetTasks) : Prop :=
  ∀ i s, p.session i = some s → ∀ stay, s.pc.stay = some stay → s.pc.hand = none →
    stay.cursor = p.shared.app.outbound.length →
    ∀ place, (s.peer, place) ∈ p.shared.wired.drop stay.entered.wired → place ∈ stay.written

theorem Followed.written (hp : p.Followed) : p.Written := by
  intro i s hs stay hstay hhand hdrained place hplace
  have hfollows := (hp.sessions i s hs).stay stay hstay
  have hsent := hp.wired s.peer place (List.mem_of_mem_drop hplace)
  have hcursor : place < stay.cursor := hdrained ▸ Net.lt_of_sent hsent
  obtain hwritten | hin := hfollows.read place (hfollows.heard place hplace) hcursor hsent
  · exact hwritten
  · rw [hhand] at hin
    cases hin

end NetTasks

/-- In every run in which each report is of something that the sessions of the peer in `live`
were sent, and no receiver skips what gets a report: what is reported as `Wire` is written. -/
theorem wire_reports_are_written (env : Env C) (store : Store) (nickname : String)
    (tasks : List NetTask) (schedule : List Nat)
    (h : Along (Pool.step (NetTask.advance env)) NetTasks.Reaches
      (NetTasks.start store nickname tasks) schedule) (n : Nat) :
    NetTasks.Written (run (Pool.step (NetTask.advance env))
      (NetTasks.start store nickname tasks) (schedule.take n)) := by
  rw [← List.take_append_drop n schedule, Along.append] at h
  have hstep (p : NetTasks) (i : Nat) (hp : p.Followed) (hreaches : p.Reaches i) :
      NetTasks.Followed (p.step (NetTask.advance env) i) := hp.step env hreaches
  exact (h.1.invariant hstep (.start store nickname tasks)).written

namespace Sample

open Core.Sample

/-- 2 is on the line, and 1 says something to it. -/
def talk : List NetTask := [.session (answered (key 2) [.outgoing none]), said (key 2) 1]

/-- The client after this schedule. -/
def talkAfter (schedule : List Nat) : NetTasks :=
  run (Pool.step (NetTask.advance (client 1 true)))
    (NetTasks.start (Store.fresh (key 1)) "alice" talk) schedule

/-- The session is in its loop before anything is said. -/
def inTime : List Nat := List.replicate 6 0 ++ [1, 1, 1, 0, 0]

/-- It is said when the session is in `live` and has not subscribed yet. -/
def tooEarly : List Nat := List.replicate 4 0 ++ [1, 1, 1, 0, 0, 0]

end Sample

open Core.Sample Sample in
theorem talk_in_time_is_written :
    Along (Pool.step (NetTask.advance (client 1 true))) NetTasks.Reaches
      (NetTasks.start (Store.fresh (key 1)) "alice" talk) inTime ∧
    (talkAfter (inTime.take 11)).Written := by
  have hreaches : Along (Pool.step (NetTask.advance (client 1 true))) NetTasks.Reaches
      (NetTasks.start (Store.fresh (key 1)) "alice" talk) inTime := by decide +kernel
  exact ⟨hreaches, wire_reports_are_written _ _ _ _ _ hreaches 11⟩

open Core.Sample Sample in
/-- The message is reported as `Wire`; the session has nothing left to receive, and has not
written it. -/
theorem talk_too_early_is_lost :
    ((talkAfter tooEarly).session 0).bind (fun s => s.pc.stay.map fun stay =>
      (s.peer, s.pc.hand, stay.entered.wired, stay.cursor, stay.written)) =
        some (key 2, none, 0, 1, []) ∧
    (talkAfter tooEarly).shared.wired = [(key 2, 0)] ∧
    (talkAfter tooEarly).shared.app.outbound.length = 1 ∧ ¬(talkAfter tooEarly).Written := by
  have hrun : ((talkAfter tooEarly).session 0).bind (fun s => s.pc.stay.map fun stay =>
      (s.peer, s.pc.hand, stay.entered.wired, stay.cursor, stay.written)) =
        some (key 2, none, 0, 1, []) ∧
    (talkAfter tooEarly).shared.wired = [(key 2, 0)] ∧
    (talkAfter tooEarly).shared.app.outbound.length = 1 := by decide +kernel
  obtain ⟨hsession, hwired, hlength⟩ := hrun
  refine ⟨hsession, hwired, hlength, fun h => ?_⟩
  obtain ⟨s, hs, hfields⟩ := Option.bind_eq_some_iff.mp hsession
  obtain ⟨stay, hstay, hfields⟩ := Option.map_eq_some_iff.mp hfields
  simp only [Prod.mk.injEq] at hfields
  obtain ⟨hpeer, hhand, hentered, hcursor, hwritten⟩ := hfields
  have hin := h 0 s hs stay hstay hhand (hcursor.trans hlength.symm) 0 (by
    rw [hpeer, hentered, hwired]
    exact List.mem_singleton_self _)
  rw [hwritten] at hin
  cases hin

end Wicara.Client
