import Wicara.Ui.Bounds

namespace Wicara.Client

open Wicara.Core Lib Lib.Run

namespace Input

/-- The conversation that is introduced. -/
def introduces : Input → Option Key
  | .event _ (.known peer _ _) | .event _ (.connected peer _) | .event _ (.log peer _)
  | .event _ (.room peer _) => some peer
  | _ => none

/-- The conversation that something is still said about. -/
def trails : Input → Option Key
  | .event _ (.path peer _) | .event _ (.disconnected peer) | .event _ (.note peer _) => some peer
  | _ => none

def removes (key : Key) : Input → Bool
  | .event _ (.forgotten peer) => key = peer
  | .event _ .wiped => true
  | _ => false

theorem of_trails {input : Input} {key : Key} (h : input.trails = some key) :
    input.introduces = none ∧ ∀ key', input.removes key' = false := by
  unfold trails at h
  split at h
  · exact ⟨rfl, fun _ => rfl⟩
  · exact ⟨rfl, fun _ => rfl⟩
  · exact ⟨rfl, fun _ => rfl⟩
  · cases h

end Input

namespace Ui

variable {ui ui' : Ui} {key : Key}

theorem mem_keys_peerMut (h : ui.Sound) {peer : Key} {f : Peer → Peer}
    (hf : ∀ p, (f p).key = p.key) (hrun : ui.peerMut peer f = some ui') :
    key ∈ ui'.keys ↔ key ∈ ui.keys ∨ peer = key := by
  rw [peerMut] at hrun
  split at hrun
  · rename_i i hi
    have hmem : peer ∈ ui.keys := List.mem_of_getElem? ((h.index peer i).mp hi)
    split at hrun
    · cases hrun
      rw [keys, keys_modify hf]
      exact (or_iff_left_of_imp fun heq => heq ▸ hmem).symm
    · cases hrun
  · cases hrun
    simp [keys, hf, eq_comm]

/-- What a step makes of the list. -/
theorem mem_keys_step (deps : Deps) (h : ui.Sound) {input : Input}
    (hrun : ui.step deps input = some ui') :
    key ∈ ui'.keys ↔ key ∈ ui.keys ∧ input.removes key = false ∨ input.introduces = some key ∨
      input.trails = some key := by
  have hrevises (hr : Revises ui ui') : key ∈ ui'.keys ↔ key ∈ ui.keys := by
    obtain ⟨i, f, hf, -, hpeers⟩ := hr
    rw [keys, hpeers, keys_modify hf]
    rfl
  cases input with
  | key ev =>
    obtain ⟨r, hkey, rfl⟩ := Option.map_eq_some_iff.mp hrun
    simp [hrevises (revises_onKey hkey), Input.removes, Input.introduces, Input.trails]
  | mouse ev =>
    cases hrun
    simp [hrevises (revises_onMouse deps ui ev), Input.removes, Input.introduces, Input.trails]
  | drawn =>
    cases hrun
    simp [hrevises (.of_eq rfl), Input.removes, Input.introduces, Input.trails]
  | event now ev =>
    cases ev with
    | forgotten peer =>
      cases hrun
      simp [keys_forgotten, Input.removes, Input.introduces, Input.trails]
    | wiped =>
      cases hrun
      simp [keys, wiped, Input.removes, Input.introduces, Input.trails]
    | delivery | transfer | status =>
      cases hrun
      simp [hrevises (.of_eq rfl), Input.removes, Input.introduces, Input.trails]
    | known | connected | disconnected | room =>
      simp [mem_keys_peerMut h (by intro p; rfl) hrun, Input.removes, Input.introduces,
        Input.trails]
    | path peer link =>
      simp [mem_keys_peerMut h (Peer.key_setPath link) hrun, Input.removes, Input.introduces,
        Input.trails]
    | note peer text =>
      simp [mem_keys_peerMut h (Peer.key_addNote now text) hrun, Input.removes, Input.introduces,
        Input.trails]
    | log peer entries =>
      obtain ⟨ui'', hpeer, rfl⟩ := Option.map_eq_some_iff.mp hrun
      have hkeys : Ui.keys (if ui.selectedKey = some peer then { ui'' with scroll := 0 }
          else ui'') = ui''.keys := by
        split <;> rfl
      simp [hkeys, mem_keys_peerMut h (Peer.key_setLog entries _) hpeer, Input.removes,
        Input.introduces, Input.trails]

theorem Sound.peers_eq_nil (h : ui.Sound) (hnone : ui.selectedKey = none) : ui.peers = [] := by
  have hsel := h.sel
  rw [selectedKey_eq, List.getElem?_eq_none_iff] at hnone
  rw [← List.length_eq_zero_iff, ← length_keys]
  omega

/-- Of two conversations that stand around the selected one, the second comes up for it if the
first is forgotten. -/
theorem selectedKey_forgotten_of_ne (h : ui.Sound) {peer : Key}
    (hne : ui.selectedKey ≠ some peer) : (ui.forgotten peer).selectedKey = ui.selectedKey ↔
      ¬∃ i, ui.keys[i]? = some peer ∧ i < ui.sel ∧ ui.sel + 1 < ui.peers.length := by
  cases hsel : ui.selectedKey with
  | none =>
    have hnil := h.peers_eq_nil hsel
    simp [selectedKey, forgotten, keys, hnil]
  | some key =>
    rw [selectedKey_forgotten h hsel 0]
    simp only [Strays, ← h.index]
    cases hi : ui.index.get peer with
    | none => simp
    | some i =>
      have hother : i ≠ ui.sel := by
        rintro rfl
        rw [selectedKey_eq] at hne
        exact hne ((h.index peer _).mp hi)
      simp [hother]

end Ui

/-- A UI, and the conversations that were introduced since they were last removed. -/
structure Roster where
  ui : Ui
  introduced : List Key

namespace Roster

def start (me nickname : String) : Roster := ⟨.new me nickname, []⟩

def step (deps : Deps) (r : Roster) (input : Input) : Roster where
  ui := (r.ui.step deps input).getD r.ui
  introduced := r.introduced.filter (!input.removes ·) ++ input.introduces.toList

/-- What is listed was introduced, and has not been removed since. -/
def Introduced (r : Roster) : Prop := ∀ key ∈ r.ui.keys, key ∈ r.introduced

/-- What is still said is about a conversation that is listed. -/
def Timely (r : Roster) (input : Input) : Prop := ∀ peer ∈ input.trails, peer ∈ r.ui.keys

instance (r : Roster) : Decidable r.Introduced :=
  inferInstanceAs (Decidable (∀ key ∈ r.ui.keys, key ∈ r.introduced))

instance (r : Roster) (input : Input) : Decidable (r.Timely input) :=
  inferInstanceAs (Decidable (∀ peer ∈ input.trails, peer ∈ r.ui.keys))

variable {r : Roster} {key : Key}

theorem ui_step (deps : Deps) (h : r.ui.Sound) (input : Input) :
    r.ui.step deps input = some (r.step deps input).ui ∧ (r.step deps input).ui.Sound := by
  obtain ⟨ui', hstep, heffect⟩ := Ui.effect_step deps h input
  simp only [step, hstep, Option.getD_some]
  exact ⟨trivial, heffect.sound h⟩

theorem mem_introduced_step (deps : Deps) (input : Input) :
    key ∈ (r.step deps input).introduced ↔
      key ∈ r.introduced ∧ input.removes key = false ∨ input.introduces = some key := by
  simp [step]

/-- A step keeps the list to what was introduced exactly if nothing is said about a conversation
that is not there. -/
theorem introduced_step_iff (deps : Deps) (h : r.ui.Sound)
    (hlisted : ∀ key ∈ r.introduced, key ∈ r.ui.keys) (hr : r.Introduced) (input : Input) :
    (r.step deps input).Introduced ↔ r.Timely input := by
  have hkeys (key : Key) : key ∈ (r.step deps input).ui.keys ↔
      key ∈ r.ui.keys ∧ input.removes key = false ∨ input.introduces = some key ∨
        input.trails = some key :=
    Ui.mem_keys_step deps h (ui_step deps h input).1
  constructor
  · intro hnext peer hpeer
    have hpeer : input.trails = some peer := hpeer
    obtain ⟨hnew, -⟩ := Input.of_trails hpeer
    have hmem := hnext peer ((hkeys peer).mpr (.inr (.inr hpeer)))
    rw [mem_introduced_step, hnew] at hmem
    obtain ⟨hold, -⟩ | hnone := hmem
    · exact hlisted peer hold
    · cases hnone
  · intro htimely key hkey
    rw [mem_introduced_step]
    obtain ⟨hold, hstays⟩ | hnew | htrails := (hkeys key).mp hkey
    · exact .inl ⟨hr key hold, hstays⟩
    · exact .inr hnew
    · exact .inl ⟨hr key (htimely key htrails), (Input.of_trails htrails).2 key⟩

end Roster

/-- In every state of a run a conversation that was forgotten is off the list until it is
introduced again, exactly when nothing trails in about a conversation that is not listed. -/
theorem forgotten_stays_off_the_list_iff (deps : Deps) (me nickname : String)
    (inputs : List Input) :
    (∀ n, (run (Roster.step deps) (.start me nickname) (inputs.take n)).Introduced) ↔
      Along (Roster.step deps) Roster.Timely (.start me nickname) inputs := by
  refine Along.iff_throughout
    (I := fun r => r.ui.Sound ∧ ∀ key ∈ r.introduced, key ∈ r.ui.keys) ?_ ?_ ?_ nofun
  · rintro r input ⟨hsound, hlisted⟩
    refine ⟨(Roster.ui_step deps hsound input).2, fun key hkey => ?_⟩
    rw [Ui.mem_keys_step deps hsound (Roster.ui_step deps hsound input).1]
    obtain ⟨hold, hstays⟩ | hnew := (Roster.mem_introduced_step deps input).mp hkey
    · exact .inl ⟨hlisted key hold, hstays⟩
    · exact .inr (.inl hnew)
  · rintro r input ⟨hsound, hlisted⟩ hr
    exact Roster.introduced_step_iff deps hsound hlisted hr input
  · exact ⟨Ui.sound_new me nickname, nofun⟩

open Core.Sample Sample in
/-- The session that `forget` has closed ends, and says so. -/
theorem forgotten_comes_back :
    ¬(run (Roster.step plain) (.start "mykey" "me") [.event 0 (.known (key 2) none none),
      .event 0 (.forgotten (key 2)), .event 0 (.disconnected (key 2))]).Introduced := by
  decide +kernel

/-- Whatever came before, a conversation that is forgotten leaves the selection where it is unless
it is selected itself, exactly if it does not stand before the selected one with another behind
that. -/
theorem forgetting_keeps_the_selection_iff (deps : Deps) (me nickname : String)
    (inputs : List Input) (now : UInt64) (peer : Key) :
    let ui := (run (Session.step deps) (.start me nickname) inputs).ui
    (ui.selectedKey ≠ some peer →
      ∃ ui', ui.apply now (.forgotten peer) = some ui' ∧ ui'.selectedKey = ui.selectedKey) ↔
    ¬∃ i, ui.keys[i]? = some peer ∧ i < ui.sel ∧ ui.sel + 1 < ui.peers.length := by
  intro ui
  have hsound : ui.Sound := Session.sound_run deps me nickname inputs
  have happly : (∃ ui', ui.apply now (.forgotten peer) = some ui' ∧
      ui'.selectedKey = ui.selectedKey) ↔ (ui.forgotten peer).selectedKey = ui.selectedKey := by
    simp [Ui.apply]
  rw [happly]
  by_cases hsel : ui.selectedKey = some peer
  · refine iff_of_true (absurd hsel) ?_
    rintro ⟨i, hi, hlt, -⟩
    have := hsound.sel_eq hsel hi
    omega
  · rw [← Ui.selectedKey_forgotten_of_ne hsound hsel]
    exact forall_prop_of_true hsel

open Core.Sample Sample in
/-- 1, 2 and 3 are listed and 2 is selected.  A line that is typed for 2 goes to 3 once 1 has been
forgotten. -/
theorem forgetting_moves_the_selection :
    let select : List Input := [.event 0 (.known (key 1) none none),
      .event 0 (.known (key 2) none none), .event 0 (.known (key 3) none none), press .tab,
      press .down, press .tab, press .tab, press (.char 'x')]
    let forget : Input := .event 0 (.forgotten (key 1))
    let ui inputs := (run (Session.step plain) (.start "mykey" "me") inputs).ui
    (ui select).selectedKey = some (key 2) ∧
      (ui (select ++ [forget])).selectedKey = some (key 3) ∧
      (ui (select ++ [forget, press .enter])).commands = [.send (key 3) "x" none] := by
  decide +kernel

end Wicara.Client
