import Wicara.Core.Sample
import Wicara.Lib.Run
import Wicara.Ui.Selection

namespace Wicara.Client

open Wicara.Core Lib Lib.Run

/-- A UI, and every message that was picked with the chat cursor so far to be replied to or
edited, with the conversation it was picked in. -/
structure Session where
  ui : Ui
  picks : List (Key × MessageId)

namespace Session

def start (me nickname : String) : Session := ⟨.new me nickname, []⟩

/-- A panic would leave the UI as it is; in a run there is none. -/
def step (deps : Deps) (s : Session) (input : Input) : Session where
  ui := (s.ui.step deps input).getD s.ui
  picks := s.picks ++ (s.ui.picked input).toList

/-- Whatever has replied to a message or edited one has gone to the conversation that the
message was picked in, and so will what is pending. -/
structure Aimed (s : Session) : Prop where
  commands : ∀ command ∈ s.ui.commands, ∀ aim ∈ command.aim, aim ∈ s.picks
  pending : ∀ pending ∈ s.ui.pending, ∃ peer, s.ui.selectedKey = some peer ∧
    s.picks.getLast? = some (peer, pending.target)

/-- While a reply or an edit is pending, no other conversation is selected. -/
def StaysPut (s : Session) (input : Input) : Prop := s.ui.pending = none ∨ ¬s.ui.Strays input

end Session

instance (ui : Ui) (input : Input) : Decidable (ui.Strays input) := by
  unfold Ui.Strays
  split
  · infer_instance
  · split <;> infer_instance
  · split <;> infer_instance
  · infer_instance
  · infer_instance

instance (s : Session) (input : Input) : Decidable (s.StaysPut input) :=
  inferInstanceAs (Decidable (_ ∨ _))

namespace Ui

variable {ui ui' : Ui} {input : Input}

theorem aim_message {pending : Option Pending} {peer : Key} {body : String}
    {aim : Key × MessageId} (h : aim ∈ (message pending peer body).aim) :
    ∃ p ∈ pending, aim = (peer, p.target) := by
  cases pending with
  | none => cases h
  | some p =>
    cases p with
    | reply target => exact ⟨_, rfl, (Option.some.inj h).symm⟩
    | edit target => exact ⟨_, rfl, (Option.some.inj h).symm⟩

/-- A command aimed at a message is what was pending, going to the selected conversation. -/
theorem Effect.commands (h : Effect ui input ui') {command : UiCommand}
    (hcommand : command ∈ ui'.commands) : command ∈ ui.commands ∨
      ∀ aim ∈ command.aim, ∃ p ∈ ui.pending, ∃ peer, ui.selectedKey = some peer ∧
        aim = (peer, p.target) := by
  have hplain (hi : SameIntent ui ui') : command ∈ ui.commands ∨ command.aim = none := by
    obtain ⟨sent, hsent, hno⟩ := hi.commands
    rw [hsent] at hcommand
    exact (List.mem_append.mp hcommand).imp_right (hno command)
  have hnone (hi : SameIntent ui ui') := (hplain hi).imp_right fun hno =>
    show ∀ aim ∈ command.aim, ∃ p ∈ ui.pending, ∃ peer, ui.selectedKey = some peer ∧
        aim = (peer, p.target) from fun aim haim => by simp [hno] at haim
  cases h with
  | edits _ hi => exact hnone hi
  | drops _ _ hcommands =>
    rw [hcommands] at hcommand
    exact .inl hcommand
  | selects hs => exact hnone hs.toSameIntent
  | picks hp =>
    rw [hp.commands] at hcommand
    exact .inl hcommand
  | submits hpeer _ _ hcommands =>
    rw [hcommands, List.mem_append, List.mem_singleton] at hcommand
    refine hcommand.imp_right ?_
    rintro rfl aim haim
    obtain ⟨p, hp, rfl⟩ := aim_message haim
    exact ⟨p, hp, _, hpeer, rfl⟩
  | meets hm => exact hnone hm.toSameIntent
  | forgets => exact .inl hcommand
  | wipes => exact .inl hcommand

/-- What is pending was so before, or was picked just now in the selected conversation. -/
theorem Effect.pending (h : Effect ui input ui') {p : Pending} (hp : p ∈ ui'.pending) :
    (p ∈ ui.pending ∧ ui.picked input = none) ∨
      ∃ peer, ui.selectedKey = some peer ∧ ui'.selectedKey = some peer ∧
        ui.picked input = some (peer, p.target) := by
  cases h with
  | edits _ hi _ hpick => exact .inl ⟨hi.pending ▸ hp, hpick⟩
  | drops _ hpending => simp [hpending] at hp
  | selects hs _ hpick => exact .inl ⟨hs.pending ▸ hp, hpick⟩
  | picks hpicks hpick =>
    rw [hpicks.pending] at hp
    obtain rfl := Option.some.inj hp
    have hsel := hpicks.selected
    exact .inr ⟨_, hsel, by rw [hpicks.selectedKey, hsel], hpick⟩
  | submits _ _ hpending => simp [hpending] at hp
  | meets hm hpick => exact .inl ⟨hm.pending ▸ hp, hpick⟩
  | forgets heq =>
    subst heq
    exact .inl ⟨hp, rfl⟩
  | wipes heq =>
    subst heq
    exact .inl ⟨hp, rfl⟩

end Ui

namespace Session

variable {s : Session}

/-- In a run no step panics. -/
theorem effect_step (deps : Deps) (h : s.ui.Sound) (input : Input) :
    s.ui.step deps input = some (s.step deps input).ui ∧
      s.ui.Effect input (s.step deps input).ui := by
  obtain ⟨ui', hstep, heffect⟩ := Ui.effect_step deps h input
  simp only [step, hstep, Option.getD_some]
  exact ⟨trivial, heffect⟩

theorem sound_step (deps : Deps) (h : s.ui.Sound) (input : Input) :
    (s.step deps input).ui.Sound :=
  (effect_step deps h input).2.sound h

theorem sound_run (deps : Deps) (me nickname : String) (inputs : List Input) :
    (run (step deps) (start me nickname) inputs).ui.Sound := by
  have hstep : ∀ (s : Session) input, s.ui.Sound → (s.step deps input).ui.Sound :=
    fun _ input h => sound_step deps h input
  exact run_invariant hstep (Ui.sound_new me nickname) inputs

/-- No input panics in a state that a UI gets into. -/
theorem no_panic (deps : Deps) (me nickname : String) (inputs : List Input) (input : Input) :
    (run (step deps) (start me nickname) inputs).ui.step deps input ≠ none := by
  rw [(effect_step deps (sound_run deps me nickname inputs) input).1]
  exact Option.some_ne_none _

theorem aimed_step (deps : Deps) (h : s.ui.Sound) (haimed : s.Aimed) {input : Input}
    (hput : s.StaysPut input) : (s.step deps input).Aimed := by
  obtain ⟨-, heffect⟩ := effect_step deps h input
  refine ⟨fun command hcommand aim haim => ?_, fun p hp => ?_⟩
  · refine List.mem_append_left _ ?_
    obtain hold | hnew := heffect.commands hcommand
    · exact haimed.commands command hold aim haim
    · obtain ⟨p, hp, peer, hpeer, rfl⟩ := hnew aim haim
      obtain ⟨peer', hpeer', hlast⟩ := haimed.pending p hp
      rw [hpeer] at hpeer'
      obtain rfl := Option.some.inj hpeer'
      exact List.mem_of_getLast? hlast
  · obtain ⟨hold, hpick⟩ | ⟨peer, -, hpeer, hpick⟩ := heffect.pending hp
    · obtain ⟨peer, hpeer, hlast⟩ := haimed.pending p hold
      -- Something is pending already, so the selection has to stay where it is.
      have hno : ¬s.ui.Strays input := hput.resolve_left (by rintro hnone; simp [hnone] at hold)
      refine ⟨peer, heffect.selectedKey h hpeer hno, ?_⟩
      simp only [step, hpick, Option.toList_none, List.append_nil, hlast]
    · refine ⟨peer, hpeer, ?_⟩
      simp only [step, hpick, Option.toList_some, List.getLast?_concat]

end Session

namespace Sample

open Core.Sample

/-- Enough for plain text. -/
def plain : Deps where
  decodeHex _ := none
  charWidth _ := some 1

def press (code : KeyCode) : Input := .key ⟨.press, false, code⟩

def mine : Entry := ⟨⟨key 1, 1, 5⟩, "on my way", true, false, none, [], none⟩

/-- There are 2 and 3 to talk to.  The message that 2 was sent is picked to be edited. -/
def editing : List Input :=
  [.event 0 (.known (key 2) none none), .event 0 (.known (key 3) none none),
    .event 0 (.log (key 2) [mine]), press .tab, press .tab, press (.char 'e')]

/-- Then 3 is selected and the line submitted. -/
def astray : List Input := editing ++ [press .tab, press .down, press .enter]

/-- Or the line is edited and submitted, while 3 is forgotten and 4 comes up. -/
def settled : List Input :=
  editing ++ [press (.char '!'), .event 0 (.forgotten (key 3)), .event 0 (.connected (key 4) "bob"),
    press .enter]

end Sample

open Core.Sample Sample in
/-- An edit of a message to 2 goes to 3. -/
theorem edit_goes_to_another :
    let s := run (Session.step plain) (.start "mykey" "me") astray
    s.picks = [(key 2, mine.id)] ∧ s.ui.commands = [.edit (key 3) mine.id "on my way"] ∧
      ¬∀ command ∈ s.ui.commands, ∀ aim ∈ command.aim, aim ∈ s.picks := by
  decide +kernel

/-- If no other conversation is selected while a reply or an edit is pending, then every
reply and every edit has gone to the conversation in which its message was picked, and so will
what is pending. -/
theorem replies_and_edits_stay (deps : Deps) (me nickname : String) (inputs : List Input)
    (h : Along (Session.step deps) Session.StaysPut (.start me nickname) inputs) :
    (run (Session.step deps) (.start me nickname) inputs).Aimed := by
  have hstep : ∀ (s : Session) input, s.ui.Sound ∧ s.Aimed → s.StaysPut input →
      (s.step deps input).ui.Sound ∧ (s.step deps input).Aimed :=
    fun s input h hput =>
      ⟨Session.sound_step deps h.1 input, Session.aimed_step deps h.1 h.2 hput⟩
  have hstart : (Session.start me nickname).ui.Sound ∧ (Session.start me nickname).Aimed :=
    ⟨Ui.sound_new me nickname, nofun, nofun⟩
  exact (h.invariant hstep hstart).2

open Core.Sample Sample in
theorem replies_and_edits_stay_settled :
    let s := run (Session.step plain) (.start "mykey" "me") settled
    s.ui.commands = [.edit (key 2) mine.id "on my way!"] ∧ s.Aimed :=
  ⟨by decide +kernel, replies_and_edits_stay plain "mykey" "me" settled (by decide +kernel)⟩

end Wicara.Client
