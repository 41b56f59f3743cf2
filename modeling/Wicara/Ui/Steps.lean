import Wicara.Ui.Effects

namespace Wicara.Client

open Wicara.Core Lib

namespace Ui

/-- The index finds every conversation where it is listed, the selection does not dangle past
the end, and the caret is between two characters. -/
structure Sound (ui : Ui) : Prop where
  index : ∀ key i, ui.index.get key = some i ↔ ui.keys[i]? = some key
  sel : ui.sel ≤ ui.keys.length - 1
  caret : OnBoundary ui.input ui.caret

/-- The input moves the selection to another conversation. -/
def Strays (ui : Ui) : Input → Prop
  | .key ev =>
    ev.kind = .press ∧ (ev.code = .up ∨ ev.code = .down) ∧ ui.focus = .peers ∧
      ¬(ui.help ∨ ui.members ∨ ui.net) ∧ 1 < ui.peers.length
  | .mouse ev =>
    match ev.kind with
    | .scrollUp | .scrollDown =>
      ¬ui.chatArea.inner.Inside ev.column ev.row ∧ 1 < ui.peers.length
    | .downLeft =>
      let peers := ui.peersArea.inner
      let row := ev.row - peers.y + ui.offset
      peers.Inside ev.column ev.row ∧ row < ui.peers.length ∧ row ≠ ui.sel
    | .other => False
  | .event _ (.forgotten peer) =>
    match ui.index.get peer with
    | some i => i = ui.sel ∨ i < ui.sel ∧ ui.sel + 1 < ui.peers.length
    | none => False
  | .event _ .wiped => ui.peers ≠ []
  | _ => False

/-- What the input picks with the chat cursor. -/
def picked (ui : Ui) : Input → Option (Key × MessageId)
  | .key ⟨.press, _, .char c⟩ => if ui.focus = .chat then ui.pick c else none
  | _ => none

/-- All that can happen in a step. -/
inductive Effect (ui : Ui) (input : Input) : Ui → Prop
  | edits {ui'} : SameList ui ui' → SameIntent ui ui' → OnBoundary ui'.input ui'.caret →
      ui.picked input = none → Effect ui input ui'
  | drops {ui'} : SameList ui ui' → ui'.pending = none → ui'.commands = ui.commands →
      OnBoundary ui'.input ui'.caret → ui.picked input = none → Effect ui input ui'
  | selects {ui'} : Selects ui ui' → ui'.sel = ui.sel ∨ ui.Strays input →
      ui.picked input = none → Effect ui input ui'
  | picks {ui' peer pending} : Picks peer pending ui ui' →
      ui.picked input = some (peer, pending.target) → Effect ui input ui'
  | submits {ui' peer body} : ui.selectedKey = some peer → SameList ui ui' →
      ui'.pending = none → ui'.commands = ui.commands ++ [message ui.pending peer body] →
      OnBoundary ui'.input ui'.caret → ui.picked input = none → Effect ui input ui'
  | meets {ui' key} : Meets key ui ui' → ui.picked input = none → Effect ui input ui'
  | forgets {now peer} : input = .event now (.forgotten peer) → Effect ui input (ui.forgotten peer)
  | wipes {now} : input = .event now .wiped → Effect ui input ui.wiped

section

variable {ui ui' : Ui} {input : Input}

theorem Effect.of_keeps (h : ui.Sound) (hk : Keeps ui ui') (hpick : ui.picked input = none) :
    Effect ui input ui' := by
  refine .edits hk.toSameList hk.toSameIntent ?_ hpick
  rw [hk.input, hk.caret]
  exact h.caret

theorem pick_of_ne {c : Char} (hr : c ≠ 'r') (he : c ≠ 'e') : ui.pick c = none := by
  rw [pick]
  split
  · rfl
  · exact if_neg fun h => h.elim hr fun h => he h.1

theorem picked_of_not_char {ev : KeyEvent} (h : ¬ev.code.isChar) : ui.picked (.key ev) = none := by
  unfold picked
  split
  · rename_i heq
    cases heq
    exact (h rfl).elim
  · rfl

/-- With one conversation at most there is nowhere to go. -/
theorem sel_selectPeer (h : ui.Sound) (delta : Int) :
    (ui.selectPeer delta).sel = ui.sel ∨ 1 < ui.peers.length := by
  by_cases hmany : 1 < ui.peers.length
  · exact .inr hmany
  · left
    have hsel := h.sel
    rw [length_keys] at hsel
    rw [selectPeer]
    split
    · rfl
    · rename_i hne
      have hpos : 0 < ui.peers.length := List.length_pos_of_ne_nil hne
      have hone : ui.peers.length = 1 := by omega
      simp only [hone]
      omega

theorem effect_selectPeer (h : ui.Sound) (delta : Int)
    (hstrays : 1 < ui.peers.length → ui.Strays input) (hpick : ui.picked input = none) :
    Effect ui input (ui.selectPeer delta) :=
  .selects (selects_selectPeer ui delta) ((sel_selectPeer h delta).imp_right hstrays) hpick

theorem effect_submit (deps : Deps) (hpick : ui.picked input = none) :
    Effect ui input (ui.submit deps).1 := by
  have hlist := sameList_submit deps ui
  have hcaret : OnBoundary (ui.submit deps).1.input (ui.submit deps).1.caret := by
    rw [(line_submit deps ui).1, (line_submit deps ui).2]
    exact onBoundary_zero _
  obtain h | h | ⟨peer, body, hpeer, h⟩ := submit_cases deps ui
  · exact .edits hlist ⟨h.pending, h.commands⟩ hcaret hpick
  · exact .drops hlist (by rw [h]) (by rw [h]; rfl) hcaret hpick
  · exact .submits hpeer hlist (by rw [h]) (by rw [h]; rfl) hcaret hpick

theorem effect_press (deps : Deps) (h : ui.Sound) (hopen : ¬(ui.help ∨ ui.members ∨ ui.net))
    (control : Bool) (code : KeyCode) : ∃ r, ui.press deps code = some r ∧
      Effect ui (.key ⟨.press, control, code⟩) r.1 := by
  have hkeeps {ui' : Ui} (hk : Keeps ui ui') (hcode : ¬code.isChar) :
      Effect ui (.key ⟨.press, control, code⟩) ui' :=
    .of_keeps h hk (picked_of_not_char hcode)
  have hedits {ui' : Ui} (hcaret : OnBoundary ui'.input ui'.caret) (hl : SameList ui ui')
      (hi : SameIntent ui ui') (hcode : ¬code.isChar) :
      Effect ui (.key ⟨.press, control, code⟩) ui' :=
    .edits hl hi hcaret (picked_of_not_char hcode)
  have hselect (delta : Int) (hcode : code = .up ∨ code = .down) (hfocus : ui.focus = .peers) :
      Effect ui (.key ⟨.press, control, code⟩) (ui.selectPeer delta) :=
    effect_selectPeer h delta (fun hmany => ⟨rfl, hcode, hfocus, hopen, hmany⟩)
      (picked_of_not_char (by obtain rfl | rfl := hcode <;> simp [KeyCode.isChar]))
  have hline {edit : Ui → List Char → List Char → Ui} (hedit : EditsLine edit)
      (hpick : ui.picked (.key ⟨.press, control, code⟩) = none) :
      ∃ r, ui.onLine edit = some r ∧ Effect ui (.key ⟨.press, control, code⟩) r.1 := by
    obtain ⟨r, hrun, hcaret, hl, hi⟩ := onLine_spec h.caret hedit
    exact ⟨r, hrun, .edits hl hi hcaret hpick⟩
  cases code with
  | tab | backTab | pageUp | pageDown =>
    exact ⟨_, rfl, hkeeps ⟨⟨rfl, rfl, rfl⟩, ⟨rfl, rfl⟩, .of_eq rfl rfl⟩ nofun⟩
  | esc => exact ⟨_, rfl, .drops ⟨rfl, rfl, rfl⟩ rfl rfl (onBoundary_zero _) rfl⟩
  | up =>
    simp only [press]
    split
    · rename_i hfocus
      exact ⟨_, rfl, hselect (-1) (.inl rfl) hfocus⟩
    · exact ⟨_, rfl, hkeeps (answers_moveCursor _ _).toKeeps nofun⟩
    · exact ⟨_, rfl, hkeeps ⟨⟨rfl, rfl, rfl⟩, ⟨rfl, rfl⟩, .of_eq rfl rfl⟩ nofun⟩
  | down =>
    simp only [press]
    split
    · rename_i hfocus
      exact ⟨_, rfl, hselect 1 (.inr rfl) hfocus⟩
    · exact ⟨_, rfl, hkeeps (answers_moveCursor _ _).toKeeps nofun⟩
    · exact ⟨_, rfl, hkeeps ⟨⟨rfl, rfl, rfl⟩, ⟨rfl, rfl⟩, .of_eq rfl rfl⟩ nofun⟩
  | enter => exact ⟨_, rfl, effect_submit deps rfl⟩
  | char c =>
    simp only [press]
    split
    · rename_i hfocus
      have hpicked : ui.picked (.key ⟨.press, control, .char c⟩) = ui.pick c := if_pos hfocus
      refine ⟨_, rfl, ?_⟩
      obtain ⟨hpick, hk⟩ | ⟨peer, pending, hpick, hpicks⟩ := chatAction_cases ui c
      · exact .of_keeps h hk (hpicked.trans hpick)
      · exact .picks hpicks (hpicked.trans hpick)
    · rename_i hfocus
      exact hline (editsLine_insert c) (if_neg (by simp [hfocus]))
    · rename_i hfocus
      exact ⟨_, rfl, .of_keeps h (.refl ui) (if_neg (by simp [hfocus]))⟩
  | backspace => exact hline editsLine_backspace rfl
  | delete =>
    simp only [press]
    split
    · exact hline editsLine_delete rfl
    · exact ⟨_, rfl, hkeeps (.refl ui) nofun⟩
  | left => exact hline editsLine_left rfl
  | right => exact hline editsLine_right rfl
  | home => exact ⟨_, rfl, hedits (onBoundary_zero _) ⟨rfl, rfl, rfl⟩ (.of_eq rfl rfl) nofun⟩
  | endKey => exact ⟨_, rfl, hedits (onBoundary_byteSize _) ⟨rfl, rfl, rfl⟩ (.of_eq rfl rfl) nofun⟩
  | other => exact ⟨_, rfl, hkeeps (.refl ui) nofun⟩

theorem shown_eq (h : ¬(ui.help ∨ ui.members ∨ ui.net)) : ui.shown = ui := by
  cases ui
  simp_all [shown]

/-- A character that also dismisses what covers the chat does what it does without. -/
theorem Effect.of_shown {ev : KeyEvent} (hchar : ev.code.isChar)
    (h : Effect ui.shown (.key ev) ui') : Effect ui (.key ev) ui' := by
  cases h with
  | edits hl hi hcaret hpick =>
    exact .edits ⟨hl.keys, hl.index, hl.sel⟩ ⟨hi.pending, hi.commands⟩ hcaret hpick
  | drops hl hpending hcommands hcaret hpick =>
    exact .drops ⟨hl.keys, hl.index, hl.sel⟩ hpending hcommands hcaret hpick
  | selects hs hsel hpick =>
    refine .selects ⟨⟨hs.input, hs.caret⟩, ⟨hs.pending, hs.commands⟩, hs.keys, hs.index, hs.sel⟩
      (hsel.imp_right fun hstrays => ?_) hpick
    obtain ⟨-, hcode | hcode, -⟩ := hstrays
    · rw [hcode] at hchar
      cases hchar
    · rw [hcode] at hchar
      cases hchar
  | picks hp hpick =>
    exact .picks ⟨⟨hp.keys, hp.index, hp.sel⟩, hp.selected, hp.pending, hp.commands,
      hp.line.imp_left fun hline => ⟨hline.input, hline.caret⟩⟩ hpick
  | submits hpeer hl hpending hcommands hcaret hpick =>
    exact .submits hpeer ⟨hl.keys, hl.index, hl.sel⟩ hpending hcommands hcaret hpick
  | meets hm hpick =>
    exact .meets ⟨⟨hm.input, hm.caret⟩, ⟨hm.pending, hm.commands⟩, hm.sel, hm.listed⟩ hpick
  | forgets heq => cases heq
  | wipes heq => cases heq

theorem effect_onKey (deps : Deps) (h : ui.Sound) (ev : KeyEvent) :
    ∃ r, ui.onKey deps ev = some r ∧ Effect ui (.key ev) r.1 := by
  obtain ⟨kind, control, code⟩ := ev
  simp only [onKey]
  split
  · rename_i hkind
    refine ⟨_, rfl, .of_keeps h (.refl ui) ?_⟩
    cases kind with
    | press => exact (hkind rfl).elim
    | repeated => rfl
    | release => rfl
  · rename_i hkind
    obtain rfl : kind = .press := not_not.mp hkind
    split
    · rename_i hquit
      obtain ⟨-, rfl⟩ := hquit
      have hpick : ui.picked (.key ⟨.press, control, .char 'c'⟩) = none := by
        simp [picked, pick_of_ne]
      exact ⟨_, rfl, .of_keeps h (keeps_send ui rfl) hpick⟩
    · split
      · rename_i hcovered
        exact ⟨_, rfl, .of_keeps h ⟨⟨rfl, rfl, rfl⟩, ⟨rfl, rfl⟩, .of_eq rfl rfl⟩
          (picked_of_not_char hcovered.2)⟩
      · rename_i hcovered
        have hshown : Sound ui.shown := ⟨h.index, h.sel, h.caret⟩
        obtain ⟨r, hrun, heffect⟩ := effect_press deps hshown (by simp [shown]) control code
        refine ⟨r, hrun, ?_⟩
        by_cases hopen : ui.help ∨ ui.members ∨ ui.net
        · have hchar : code.isChar := not_not.mp fun hno => hcovered ⟨hopen, hno⟩
          exact heffect.of_shown hchar
        · rwa [shown_eq hopen] at heffect

theorem effect_onMouse (deps : Deps) (h : ui.Sound) (ev : MouseEvent) :
    Effect ui (.mouse ev) (ui.onMouse deps ev) := by
  have hkeeps {ui' : Ui} (hk : Keeps ui ui') : Effect ui (.mouse ev) ui' := .of_keeps h hk rfl
  simp only [onMouse]
  split
  · rename_i hkind
    split
    · exact hkeeps ⟨⟨rfl, rfl, rfl⟩, ⟨rfl, rfl⟩, .of_eq rfl rfl⟩
    · rename_i houtside
      refine effect_selectPeer h (-1) (fun hmany => ?_) rfl
      simp only [Strays, hkind]
      exact ⟨houtside, hmany⟩
  · rename_i hkind
    split
    · exact hkeeps ⟨⟨rfl, rfl, rfl⟩, ⟨rfl, rfl⟩, .of_eq rfl rfl⟩
    · rename_i houtside
      refine effect_selectPeer h 1 (fun hmany => ?_) rfl
      simp only [Strays, hkind]
      exact ⟨houtside, hmany⟩
  · rename_i hkind
    split
    · rename_i hinside
      refine .selects (selects_clickPeer ui _) ?_ rfl
      simp only [Strays, hkind, clickPeer]
      split
      · rename_i hrow
        exact (Decidable.em _).imp_right fun hne => ⟨hinside, hrow, hne⟩
      · exact .inl rfl
    · split
      · exact hkeeps (answers_clickChat _ _).toKeeps
      · split
        · exact .edits ⟨rfl, rfl, rfl⟩ (.of_eq rfl rfl) (onBoundary_byteAtColumn _ _ _) rfl
        · exact hkeeps (.refl ui)
  · exact hkeeps (.refl ui)

/-- The index never points past the end. -/
theorem peerMut_spec (h : ui.Sound) {f : Peer → Peer} (hf : ∀ p, (f p).key = p.key) (key : Key) :
    ∃ ui', ui.peerMut key f = some ui' ∧ Meets key ui ui' := by
  have hsome : ∃ ui', ui.peerMut key f = some ui' := by
    rw [peerMut]
    split
    · rename_i i hi
      obtain ⟨hlt, -⟩ := List.getElem?_eq_some_iff.mp ((h.index key i).mp hi)
      rw [length_keys] at hlt
      rw [if_pos hlt]
      exact ⟨_, rfl⟩
    · exact ⟨_, rfl⟩
  obtain ⟨ui', hrun⟩ := hsome
  exact ⟨ui', hrun, meets_peerMut hf hrun⟩

theorem effect_apply (h : ui.Sound) (now : UInt64) (ev : UiEvent) :
    ∃ ui', ui.apply now ev = some ui' ∧ Effect ui (.event now ev) ui' := by
  have hmeets {f : Peer → Peer} (hf : ∀ p, (f p).key = p.key) (key : Key) :
      ∃ ui', ui.peerMut key f = some ui' ∧ Effect ui (.event now ev) ui' := by
    obtain ⟨ui', hrun, hm⟩ := peerMut_spec h hf key
    exact ⟨ui', hrun, .meets hm rfl⟩
  have hkeeps {ui' : Ui} (hk : Keeps ui ui') : Effect ui (.event now ev) ui' := .of_keeps h hk rfl
  cases ev with
  | known peer nick aliased => exact hmeets (by intro p; rfl) peer
  | connected peer nick => exact hmeets (by intro p; rfl) peer
  | path peer link => exact hmeets (Peer.key_setPath link) peer
  | disconnected peer => exact hmeets (by intro p; rfl) peer
  | log peer entries =>
    simp only [apply]
    obtain ⟨ui', hrun, hm⟩ := peerMut_spec h (Peer.key_setLog entries _) peer
    have hscroll : Meets peer ui
        (if ui.selectedKey = some peer then { ui' with scroll := 0 } else ui') := by
      split
      · exact ⟨⟨hm.input, hm.caret⟩, ⟨hm.pending, hm.commands⟩, hm.sel, hm.listed⟩
      · exact hm
    exact ⟨_, by rw [hrun, Option.map_some], .meets hscroll rfl⟩
  | delivery id state => exact ⟨_, rfl, hkeeps ⟨⟨rfl, rfl, rfl⟩, ⟨rfl, rfl⟩, .of_eq rfl rfl⟩⟩
  | transfer id done total => exact ⟨_, rfl, hkeeps ⟨⟨rfl, rfl, rfl⟩, ⟨rfl, rfl⟩, .of_eq rfl rfl⟩⟩
  | note peer text => exact hmeets (Peer.key_addNote now text) peer
  | forgotten peer => exact ⟨_, rfl, .forgets rfl⟩
  | wiped => exact ⟨_, rfl, .wipes rfl⟩
  | room id view => exact hmeets (by intro p; rfl) id
  | status text bad => exact ⟨_, rfl, hkeeps ⟨⟨rfl, rfl, rfl⟩, ⟨rfl, rfl⟩, .of_eq rfl rfl⟩⟩

/-- No step panics, and these are all that it can do. -/
theorem effect_step (deps : Deps) (h : ui.Sound) (input : Input) :
    ∃ ui', ui.step deps input = some ui' ∧ Effect ui input ui' := by
  cases input with
  | key ev =>
    obtain ⟨r, hrun, heffect⟩ := effect_onKey deps h ev
    exact ⟨r.1, by rw [step, hrun]; rfl, heffect⟩
  | mouse ev => exact ⟨_, rfl, effect_onMouse deps h ev⟩
  | event now ev => exact effect_apply h now ev
  | drawn =>
    exact ⟨_, rfl, .of_keeps h ⟨⟨rfl, rfl, rfl⟩, ⟨rfl, rfl⟩, .of_eq rfl rfl⟩ rfl⟩

theorem Sound.nodup (h : ui.Sound) : ui.keys.Nodup := by
  rw [List.nodup_iff_getElem?_ne_getElem?]
  intro i j hij hj heq
  have hkey : ui.keys[j]? = some ui.keys[j] := List.getElem?_eq_getElem hj
  have hi := (h.index _ _).mpr (heq.trans hkey)
  rw [(h.index _ _).mpr hkey] at hi
  cases hi
  exact absurd hij (lt_irrefl _)

theorem Sound.of_list (h : ui.Sound) (hl : SameList ui ui')
    (hcaret : OnBoundary ui'.input ui'.caret) : ui'.Sound where
  index key i := by
    rw [hl.index, hl.keys]
    exact h.index key i
  sel := by
    rw [hl.sel, hl.keys]
    exact h.sel
  caret := hcaret

theorem Sound.selects (h : ui.Sound) (hs : Selects ui ui') : ui'.Sound where
  index key i := by
    rw [hs.index, hs.keys]
    exact h.index key i
  sel := by
    rw [hs.keys]
    obtain hsel | hlt := hs.sel
    · rw [hsel]
      exact h.sel
    · omega
  caret := by
    rw [hs.input, hs.caret]
    exact h.caret

theorem Sound.meets (h : ui.Sound) {key : Key} (hm : Meets key ui ui') : ui'.Sound where
  index key' i := by
    obtain ⟨hkeys, hindex⟩ | ⟨hnone, hkeys, hindex⟩ := hm.listed
    · rw [hkeys, hindex]
      exact h.index key' i
    · rw [hkeys, hindex, Table.get_upsert]
      have hnew (j : Nat) : ui.keys[j]? ≠ some key := fun hj => by
        rw [(h.index key j).mpr hj] at hnone
        cases hnone
      by_cases hkey : key' = key
      · subst hkey
        rw [if_pos rfl, List.getElem?_append]
        split
        · have hne := hnew i
          simp only [Option.some.injEq]
          constructor
          · omega
          · exact fun hi => absurd hi hne
        · rw [List.getElem?_singleton]
          split
          · simp
            omega
          · simp
            omega
      · rw [if_neg hkey, h.index, List.getElem?_append]
        split
        · rfl
        · rw [List.getElem?_eq_none (by omega), List.getElem?_singleton]
          split
          · simp [Ne.symm hkey]
          · rfl
  sel := by
    rw [hm.sel]
    have hsel := h.sel
    obtain ⟨hkeys, -⟩ | ⟨-, hkeys, -⟩ := hm.listed
    · rw [hkeys]
      exact hsel
    · rw [hkeys, List.length_append]
      omega
  caret := by
    rw [hm.input, hm.caret]
    exact h.caret

theorem keys_forgotten (ui : Ui) (peer : Key) :
    (ui.forgotten peer).keys = ui.keys.filter (· ≠ peer) := by
  simp only [keys, forgotten, List.filter_map]
  rfl

theorem Sound.forgotten (h : ui.Sound) (peer : Key) : (ui.forgotten peer).Sound where
  index key i := by
    have hrows (ps : List Peer) : (ps.zipIdx.map fun r => (r.1.key, r.2)).map Prod.fst =
        ps.map Peer.key := by
      rw [List.map_map]
      change ps.zipIdx.map (Peer.key ∘ Prod.fst) = ps.map Peer.key
      rw [← List.map_map, List.zipIdx_map_fst]
    have hnodup : ((ui.forgotten peer).keys).Nodup := by
      rw [keys_forgotten]
      exact h.nodup.filter _
    rw [keys, Ui.forgotten, Table.get_collect (by rw [hrows]; exact hnodup)]
    simp [List.mem_zipIdx_iff_getElem?]
  sel := by
    rw [length_keys]
    exact min_le_right _ _
  caret := h.caret

theorem Effect.sound (h : ui.Sound) (heffect : Effect ui input ui') : ui'.Sound := by
  cases heffect with
  | edits hl _ hcaret => exact h.of_list hl hcaret
  | drops hl _ _ hcaret => exact h.of_list hl hcaret
  | selects hs => exact h.selects hs
  | picks hp =>
    refine h.of_list hp.toSameList ?_
    obtain hline | hcaret := hp.line
    · rw [hline.input, hline.caret]
      exact h.caret
    · rw [hcaret]
      exact onBoundary_byteSize _
  | submits _ hl _ _ hcaret => exact h.of_list hl hcaret
  | meets hm => exact h.meets hm
  | forgets => exact h.forgotten _
  | wipes => exact ⟨fun key i => by simp [wiped, keys], Nat.zero_le _, h.caret⟩

theorem sound_new (me nickname : String) : (new me nickname).Sound :=
  ⟨fun key i => by simp [new, keys], le_rfl, onBoundary_zero _⟩

end

end Ui

end Wicara.Client
