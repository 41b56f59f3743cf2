import Wicara.Ui.Pending

namespace Wicara.Client

open Wicara.Core Lib Lib.Run

namespace Peer

theorem placed_new (key : Key) : (new key).Placed := .inr rfl

theorem Placed.setPath {p : Peer} (h : p.Placed) (link : Option Link) :
    (p.setPath link).Placed := by
  cases link <;> exact h

/-- Wherever the cursor was, it is moved back onto the log. -/
theorem placed_setLog (entries : List Entry) (selected : Bool) (p : Peer) :
    (p.setLog entries selected).Placed := by
  have hcursor (cursor : Nat) :
      min cursor (entries.length - 1) < entries.length ∨ entries = [] := by
    rw [← List.length_eq_zero_iff]
    omega
  simp only [Peer.setLog]
  split
  · exact hcursor _
  · exact hcursor _

end Peer

namespace Ui

section Handlers

variable (deps : Deps) (ui : Ui)

theorem revises_selectPeer (delta : Int) : Revises ui (ui.selectPeer delta) := by
  rw [selectPeer]
  split
  · exact .of_eq rfl
  · exact revises_modify ui (f := Peer.seen) (fun _ => rfl) (fun _ h => h) rfl

theorem revises_clickPeer (row : Nat) : Revises ui (ui.clickPeer row) := by
  simp only [clickPeer]
  split
  · exact revises_modify ui (f := Peer.seen) (fun _ => rfl) (fun _ h => h) rfl
  · exact .of_eq rfl

theorem peers_chatAction (c : Char) : (ui.chatAction c).peers = ui.peers := by
  rw [chatAction]
  split
  · rfl
  · split
    · rfl
    · split <;> rfl
    · split <;> rfl
    · split <;> rfl

theorem revises_submit : Revises ui (ui.submit deps).1 := by
  obtain h | h | ⟨peer, body, -, h⟩ := submit_cases deps ui
  · exact h.revises
  · rw [h]
    exact .of_eq rfl
  · rw [h]
    exact .of_eq rfl

end Handlers

section Keys

variable {deps : Deps} {ui : Ui} {r : Ui × Bool}

theorem revises_onLine {edit : Ui → List Char → List Char → Ui}
    (hedit : ∀ ui l r, (edit ui l r).peers = ui.peers) (h : ui.onLine edit = some r) :
    Revises ui r.1 := by
  rw [onLine] at h
  split at h
  · rw [atCaret, Option.map_map, Option.map_eq_some_iff] at h
    obtain ⟨⟨left, right⟩, -, rfl⟩ := h
    exact .of_eq (hedit ui left right)
  · cases h
    exact .of_eq rfl

theorem revises_press {code : KeyCode} (h : ui.press deps code = some r) : Revises ui r.1 := by
  cases code with
  | tab | backTab | esc | pageUp | pageDown | home | endKey | other =>
    cases h
    exact .of_eq rfl
  | up | down =>
    simp only [press] at h
    split at h
    · cases h
      exact revises_selectPeer _ _
    · cases h
      exact (answers_moveCursor _ _).revises
    · cases h
      exact .of_eq rfl
  | enter =>
    cases h
    exact revises_submit deps ui
  | backspace =>
    refine revises_onLine (fun ui l r => ?_) h
    rw [backspace]
    split <;> rfl
  | delete =>
    simp only [press] at h
    split at h
    · refine revises_onLine ?_ h
      exact fun _ _ _ => rfl
    · cases h
      exact .of_eq rfl
  | left =>
    refine revises_onLine (fun ui l r => ?_) h
    rw [left]
    split <;> rfl
  | right =>
    refine revises_onLine (fun ui l r => ?_) h
    cases r <;> rfl
  | char c =>
    simp only [press] at h
    split at h
    · cases h
      exact .of_eq (peers_chatAction ui c)
    · refine revises_onLine ?_ h
      exact fun _ _ _ => rfl
    · cases h
      exact .of_eq rfl

theorem revises_onKey {ev : KeyEvent} (h : ui.onKey deps ev = some r) : Revises ui r.1 := by
  rw [onKey] at h
  split at h
  · cases h
    exact .of_eq rfl
  · split at h
    · cases h
      exact .of_eq rfl
    · split at h
      · cases h
        exact .of_eq rfl
      · have hpress : Revises ui.shown r.1 := revises_press h
        exact hpress

theorem revises_onMouse (deps : Deps) (ui : Ui) (ev : MouseEvent) :
    Revises ui (ui.onMouse deps ev) := by
  simp only [onMouse]
  split
  · split
    · exact .of_eq rfl
    · exact revises_selectPeer _ _
  · split
    · exact .of_eq rfl
    · exact revises_selectPeer _ _
  · split
    · exact revises_clickPeer _ _
    · split
      · exact (answers_clickChat _ _).revises
      · split
        · exact .of_eq rfl
        · exact .of_eq rfl
  · exact .of_eq rfl

end Keys

/-- What the handlers rely on: the caret is within the line and between two characters, every
conversation is listed once and found where it is, and neither the selection nor a chat cursor
dangles past the end of its list. -/
structure WellPlaced (ui : Ui) : Prop where
  caret : ui.caret ≤ byteSize ui.input ∧ OnBoundary ui.input ui.caret
  nodup : ui.keys.Nodup
  index : ∀ key i, ui.index.get key = some i ↔ ui.keys[i]? = some key
  sel : ui.sel < ui.peers.length ∨ ui.peers = [] ∧ ui.sel = 0
  cursor : ∀ p ∈ ui.peers, p.Placed

section Runs

variable {ui ui' : Ui}

theorem wellPlaced_iff : ui.WellPlaced ↔ ui.Sound ∧ ∀ p ∈ ui.peers, p.Placed := by
  have hsel : (ui.sel < ui.peers.length ∨ ui.peers = [] ∧ ui.sel = 0) ↔
      ui.sel ≤ ui.keys.length - 1 := by
    rw [← List.length_eq_zero_iff, length_keys]
    omega
  constructor
  · rintro ⟨⟨-, hcaret⟩, -, hindex, hsel', hcursor⟩
    exact ⟨⟨hindex, hsel.mp hsel', hcaret⟩, hcursor⟩
  · rintro ⟨hsound, hcursor⟩
    exact ⟨⟨hsound.caret.le, hsound.caret⟩, hsound.nodup, hsound.index, hsel.mpr hsound.sel,
      hcursor⟩

theorem placed_modify {f : Peer → Peer} (hf : ∀ p, p.Placed → (f p).Placed) {peers : List Peer}
    (h : ∀ p ∈ peers, p.Placed) (i : Nat) : ∀ p ∈ peers.modify i f, p.Placed := by
  intro p hp
  obtain ⟨j, hj⟩ := List.mem_iff_getElem?.mp hp
  rw [List.getElem?_modify, Option.map_eq_map, Option.map_eq_some_iff] at hj
  obtain ⟨q, hq, rfl⟩ := hj
  have hplaced := h q (List.mem_of_getElem? hq)
  split
  · exact hf q hplaced
  · exact hplaced

theorem Revises.placed (h : Revises ui ui') (hplaced : ∀ p ∈ ui.peers, p.Placed) :
    ∀ p ∈ ui'.peers, p.Placed := by
  obtain ⟨i, f, -, hf, hpeers⟩ := h
  rw [hpeers]
  exact placed_modify hf hplaced i

theorem placed_peerMut {key : Key} {f : Peer → Peer} (hrun : ui.peerMut key f = some ui')
    (hf : ∀ p, p.Placed → (f p).Placed) (hplaced : ∀ p ∈ ui.peers, p.Placed) :
    ∀ p ∈ ui'.peers, p.Placed := by
  rw [peerMut] at hrun
  split at hrun
  · split at hrun
    · cases hrun
      exact placed_modify hf hplaced _
    · cases hrun
  · cases hrun
    intro p hp
    obtain hold | hnew := List.mem_append.mp hp
    · exact hplaced p hold
    · obtain rfl := List.mem_singleton.mp hnew
      exact hf _ (Peer.placed_new key)

theorem placed_apply {now : UInt64} {ev : UiEvent} (hrun : ui.apply now ev = some ui')
    (hplaced : ∀ p ∈ ui.peers, p.Placed) : ∀ p ∈ ui'.peers, p.Placed := by
  cases ev with
  | known | connected | disconnected | room => exact placed_peerMut hrun (fun _ h => h) hplaced
  | path peer link => exact placed_peerMut hrun (fun _ h => h.setPath link) hplaced
  | note peer text => exact placed_peerMut hrun (fun _ h => h) hplaced
  | log peer entries =>
    obtain ⟨ui'', hpeer, rfl⟩ := Option.map_eq_some_iff.mp hrun
    have hlog := placed_peerMut hpeer (fun p _ => p.placed_setLog entries _) hplaced
    split
    · exact hlog
    · exact hlog
  | delivery | transfer | status =>
    cases hrun
    exact hplaced
  | forgotten peer =>
    cases hrun
    exact fun p hp => hplaced p (List.mem_filter.mp hp).1
  | wiped =>
    cases hrun
    exact nofun

/-- No step panics, and everything stays where it may be. -/
theorem WellPlaced.step (h : ui.WellPlaced) (deps : Deps) (input : Input) :
    ∃ ui', ui.step deps input = some ui' ∧ ui'.WellPlaced := by
  obtain ⟨hsound, hplaced⟩ := wellPlaced_iff.mp h
  obtain ⟨ui', hrun, heffect⟩ := effect_step deps hsound input
  refine ⟨ui', hrun, wellPlaced_iff.mpr ⟨heffect.sound hsound, ?_⟩⟩
  cases input with
  | key ev =>
    obtain ⟨r, hkey, rfl⟩ := Option.map_eq_some_iff.mp hrun
    exact (revises_onKey hkey).placed hplaced
  | mouse ev =>
    cases hrun
    exact (revises_onMouse deps ui ev).placed hplaced
  | event now ev => exact placed_apply hrun hplaced
  | drawn =>
    cases hrun
    exact hplaced

end Runs

end Ui

/-- Whatever is pressed, clicked and sent, no slice and no index is out of bounds. -/
theorem ui_stays_well_placed (deps : Deps) (me nickname : String) (inputs : List Input) :
    ∃ ui, inputs.foldlM (Ui.step deps) (Ui.new me nickname) = some ui ∧ ui.WellPlaced ∧
      (∀ input, ui.step deps input ≠ none) ∧
      (∀ delta, ui.peers ≠ [] → (ui.selectPeer delta).sel < ui.peers.length) ∧
      ∀ c : Char, '1' ≤ c → c ≤ '5' → c.toNat - '1'.toNat < reactions.length := by
  have hnew : (Ui.new me nickname).WellPlaced :=
    Ui.wellPlaced_iff.mpr ⟨Ui.sound_new me nickname, nofun⟩
  obtain ⟨ui, hrun, hplaced⟩ := exists_foldlM
    (fun ui input (h : Ui.WellPlaced ui) => h.step deps input) hnew inputs
  refine ⟨ui, hrun, hplaced, fun input => ?_, fun delta hne => ?_, fun c _ hc => ?_⟩
  · obtain ⟨ui', hstep, -⟩ := hplaced.step deps input
    simp [hstep]
  · have hlt := hplaced.sel.resolve_right fun h => hne h.1
    rw [← Ui.length_keys] at hlt ⊢
    obtain hsame | hmoved := (Ui.selects_selectPeer ui delta).sel
    · rwa [hsame]
    · exact hmoved
  · have hle : c.toNat ≤ '5'.toNat := hc
    have hfive : '5'.toNat - '1'.toNat < reactions.length := by decide
    omega

end Wicara.Client
