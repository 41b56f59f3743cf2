import Wicara.Ui.Steps

namespace Wicara.Client

open Wicara.Core Lib

namespace Ui

variable {ui ui' : Ui} {input : Input} {key : Key}

theorem Sound.sel_eq (h : ui.Sound) (hsel : ui.selectedKey = some key) {i : Nat}
    (hi : ui.keys[i]? = some key) : i = ui.sel := by
  rw [selectedKey_eq] at hsel
  have hindex := (h.index key i).mpr hi
  rw [(h.index key ui.sel).mpr hsel] at hindex
  cases hindex
  rfl

theorem sel_lt (hsel : ui.selectedKey = some key) : ui.sel < ui.keys.length := by
  rw [selectedKey_eq] at hsel
  exact (List.getElem?_eq_some_iff.mp hsel).1

theorem Sound.keys_forgotten_of_mem (h : ui.Sound) {peer : Key} {i : Nat}
    (hi : ui.index.get peer = some i) : (ui.forgotten peer).keys = ui.keys.eraseIdx i := by
  obtain ⟨hlt, hpeer⟩ := List.getElem?_eq_some_iff.mp ((h.index peer i).mp hi)
  rw [keys_forgotten, ← h.nodup.erase_getElem i hlt, hpeer, h.nodup.erase_eq_filter]
  refine List.filter_congr fun k _ => ?_
  by_cases hk : k = peer <;> simp [hk]

theorem Sound.keys_forgotten_of_not_mem (h : ui.Sound) {peer : Key}
    (hnone : ui.index.get peer = none) : (ui.forgotten peer).keys = ui.keys := by
  rw [keys_forgotten, List.filter_eq_self]
  intro k hk
  obtain ⟨i, hi⟩ := List.mem_iff_getElem?.mp hk
  have hindex := (h.index k i).mpr hi
  exact decide_eq_true (by rintro rfl; simp [hnone] at hindex)

theorem sel_forgotten (ui : Ui) (peer : Key) :
    (ui.forgotten peer).sel = min ui.sel ((ui.forgotten peer).keys.length - 1) := by
  rw [length_keys]
  rfl

/-- A conversation that is forgotten takes the selection along only if it is the selected one,
or if what stood behind the selected one moves up to its place. -/
theorem selectedKey_forgotten (h : ui.Sound) (hsel : ui.selectedKey = some key) (now : UInt64)
    (peer : Key) : (ui.forgotten peer).selectedKey = some key ↔
      ¬ui.Strays (.event now (.forgotten peer)) := by
  have hlt := sel_lt hsel
  have hkey : ui.keys[ui.sel]? = some key := by rwa [selectedKey_eq] at hsel
  rw [selectedKey_eq, sel_forgotten]
  simp only [Strays, ← length_keys]
  cases hi : ui.index.get peer with
  | none =>
    have hmin : min ui.sel (ui.keys.length - 1) = ui.sel := min_eq_left (by omega)
    rw [h.keys_forgotten_of_not_mem hi, hmin]
    simp [hkey]
  | some i =>
    obtain ⟨hilt, -⟩ := List.getElem?_eq_some_iff.mp ((h.index peer i).mp hi)
    rw [h.keys_forgotten_of_mem hi, List.length_eraseIdx_of_lt hilt, List.getElem?_eraseIdx]
    constructor
    · intro hmoved
      split at hmoved
      · have := h.sel_eq hsel hmoved
        omega
      · have := h.sel_eq hsel hmoved
        omega
    · intro hno
      split
      · rw [show min ui.sel (ui.keys.length - 1 - 1) = ui.sel by omega]
        exact hkey
      · rw [show min ui.sel (ui.keys.length - 1 - 1) + 1 = ui.sel by omega]
        exact hkey

/-- While the selection stays, so does the selected conversation. -/
theorem Effect.selectedKey (h : ui.Sound) (heffect : Effect ui input ui')
    (hsel : ui.selectedKey = some key) (hno : ¬ui.Strays input) : ui'.selectedKey = some key := by
  cases heffect with
  | edits hl => rw [hl.selectedKey, hsel]
  | drops hl => rw [hl.selectedKey, hsel]
  | selects hs hstays =>
    rw [selectedKey_eq, hs.keys, hstays.resolve_right hno, ← selectedKey_eq, hsel]
  | picks hp => rw [hp.selectedKey, hsel]
  | submits _ hl => rw [hl.selectedKey, hsel]
  | meets hm =>
    have hlt := sel_lt hsel
    rw [selectedKey_eq] at hsel ⊢
    rw [hm.sel]
    obtain ⟨hkeys, -⟩ | ⟨-, hkeys, -⟩ := hm.listed
    · rw [hkeys, hsel]
    · rw [hkeys, List.getElem?_append_left hlt, hsel]
  | forgets heq =>
    subst heq
    exact (selectedKey_forgotten h hsel _ _).mpr hno
  | wipes heq =>
    subst heq
    have hlt := sel_lt hsel
    rw [length_keys] at hlt
    exact absurd (List.ne_nil_of_length_pos (by omega)) hno

theorem sel_selectPeer_ne (h : ui.Sound) (hmany : 1 < ui.peers.length) {delta : Int}
    (hdelta : delta = 1 ∨ delta = -1) : (ui.selectPeer delta).sel ≠ ui.sel := by
  have hsel := h.sel
  rw [length_keys] at hsel
  have hne : ui.peers ≠ [] := List.ne_nil_of_length_pos (by omega)
  rw [selectPeer, if_neg hne]
  intro heq
  -- Around the whole list the selection would have moved by a multiple of its length.
  have hnonneg := Int.emod_nonneg ((ui.sel : Int) + delta) (b := ui.peers.length) (by omega)
  have hself : (ui.sel : Int) % ui.peers.length = ui.sel := Int.emod_eq_of_lt (by omega) (by omega)
  have hmod : ((ui.sel : Int) + delta) % ui.peers.length = (ui.sel : Int) % ui.peers.length := by
    rw [hself]
    dsimp only at heq
    omega
  rw [Int.emod_eq_emod_iff_emod_sub_eq_zero, show (ui.sel : Int) + delta - ui.sel = delta by omega]
    at hmod
  have hle := Int.le_of_dvd (b := 1) (by omega) (a := (ui.peers.length : Int)) (by
    obtain rfl | rfl := hdelta
    · exact Int.dvd_of_emod_eq_zero hmod
    · exact Int.dvd_neg.mp (Int.dvd_of_emod_eq_zero hmod))
  omega

theorem step_up_down (deps : Deps) (control : Bool) {code : KeyCode}
    (hcode : code = .up ∨ code = .down) (hfocus : ui.focus = .peers)
    (hopen : ¬(ui.help ∨ ui.members ∨ ui.net)) :
    ∃ delta, (delta = 1 ∨ delta = -1) ∧
      ui.step deps (.key ⟨.press, control, code⟩) = some (ui.selectPeer delta) := by
  have hshown := shown_eq hopen
  obtain rfl | rfl := hcode
  · refine ⟨-1, .inr rfl, ?_⟩
    simp [step, onKey, hopen, hshown, press, hfocus]
  · refine ⟨1, .inl rfl, ?_⟩
    simp [step, onKey, hopen, hshown, press, hfocus]

/-- The condition on the input is the exact one: what strays does select another
conversation. -/
theorem selectedKey_step_iff (deps : Deps) (h : ui.Sound) (hsel : ui.selectedKey = some key)
    (hstep : ui.step deps input = some ui') : ui'.selectedKey = some key ↔ ¬ui.Strays input := by
  have hselects {ui' : Ui} (hs : Selects ui ui') (hne : ui'.sel ≠ ui.sel) :
      ui'.selectedKey ≠ some key := by
    rw [selectedKey_eq, hs.keys]
    exact fun hmoved => hne (h.sel_eq hsel hmoved)
  have hselect (delta : Int) (hdelta : delta = 1 ∨ delta = -1) (hmany : 1 < ui.peers.length) :
      (ui.selectPeer delta).selectedKey ≠ some key :=
    hselects (selects_selectPeer ui delta) (sel_selectPeer_ne h hmany hdelta)
  constructor
  · intro hstays hstrays
    cases input with
    | key ev =>
      obtain ⟨kind, control, code⟩ := ev
      obtain ⟨rfl, hcode, hfocus, hopen, hmany⟩ := hstrays
      obtain ⟨delta, hdelta, hrun⟩ := step_up_down deps control hcode hfocus hopen
      obtain rfl := Option.some.inj (hrun.symm.trans hstep)
      exact hselect delta hdelta hmany hstays
    | mouse ev =>
      obtain rfl := Option.some.inj hstep
      obtain ⟨kind, column, row⟩ := ev
      cases kind with
      | scrollUp =>
        simp only [onMouse, if_neg hstrays.1] at hstays
        exact hselect (-1) (.inr rfl) hstrays.2 hstays
      | scrollDown =>
        simp only [onMouse, if_neg hstrays.1] at hstays
        exact hselect 1 (.inl rfl) hstrays.2 hstays
      | downLeft =>
        obtain ⟨hinside, hrow, hne⟩ := hstrays
        simp only [onMouse, if_pos hinside] at hstays
        refine hselects (selects_clickPeer ui _) ?_ hstays
        rw [clickPeer, if_pos hrow]
        exact hne
      | other => exact hstrays
    | event now ev =>
      cases ev with
      | forgotten peer =>
        obtain rfl := Option.some.inj hstep
        exact (selectedKey_forgotten h hsel now peer).mp hstays hstrays
      | wiped =>
        obtain rfl := Option.some.inj hstep
        cases hstays
      | _ => exact hstrays
    | drawn => exact hstrays
  · intro hno
    obtain ⟨ui'', hstep', heffect⟩ := effect_step deps h input
    obtain rfl : ui' = ui'' := Option.some.inj (hstep.symm.trans hstep')
    exact heffect.selectedKey h hsel hno

end Ui

end Wicara.Client
