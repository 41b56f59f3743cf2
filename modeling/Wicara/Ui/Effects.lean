import Wicara.Ui.Handlers

namespace Wicara.Client

open Wicara.Core Lib

/-- Where a command goes, if it is to reply to a message or to edit one, and that message. -/
def UiCommand.aim : UiCommand → Option (Key × MessageId)
  | .edit peer target _ => some (peer, target)
  | .send peer _ (some target) => some (peer, target)
  | _ => none

/-- The chat cursor is on a message, if there is one. -/
def Peer.Placed (p : Peer) : Prop := p.cursor < p.log.length ∨ p.log = []

theorem keys_modify {f : Peer → Peer} (h : ∀ p, (f p).key = p.key) (peers : List Peer) (i : Nat) :
    (peers.modify i f).map Peer.key = peers.map Peer.key := by
  refine List.ext_getElem? fun j => ?_
  rw [List.getElem?_map, List.getElem?_map, List.getElem?_modify]
  cases peers[j]? with
  | none => rfl
  | some p => by_cases hij : i = j <;> simp [hij, h]

namespace Ui

/-- The same conversations are listed, and the same one is selected. -/
structure SameList (ui ui' : Ui) : Prop where
  keys : ui'.keys = ui.keys
  index : ui'.index = ui.index
  sel : ui'.sel = ui.sel

structure SameLine (ui ui' : Ui) : Prop where
  input : ui'.input = ui.input
  caret : ui'.caret = ui.caret

/-- What Enter will do stays, and what has been sent meanwhile is aimed at no message. -/
structure SameIntent (ui ui' : Ui) : Prop where
  pending : ui'.pending = ui.pending
  commands : ∃ sent, ui'.commands = ui.commands ++ sent ∧ ∀ c ∈ sent, c.aim = none

structure Keeps (ui ui' : Ui) : Prop extends SameList ui ui', SameLine ui ui', SameIntent ui ui'

/-- One of the peers at most is changed, and neither its key nor that its cursor is on the log. -/
def Revises (ui ui' : Ui) : Prop :=
  ∃ i f, (∀ p, Peer.key (f p) = p.key) ∧ (∀ p, p.Placed → (f p).Placed) ∧
    ui'.peers = ui.peers.modify i f

/-- What a command of the UI's own does, and what moves the chat cursor. -/
structure Answers (ui ui' : Ui) : Prop extends Keeps ui ui' where
  revises : Revises ui ui'

variable {ui ui' ui'' : Ui}

theorem SameList.refl (ui : Ui) : SameList ui ui := ⟨rfl, rfl, rfl⟩

theorem SameList.selectedKey (h : SameList ui ui') : ui'.selectedKey = ui.selectedKey := by
  rw [selectedKey_eq, selectedKey_eq, h.keys, h.sel]

theorem SameLine.refl (ui : Ui) : SameLine ui ui := ⟨rfl, rfl⟩

theorem SameIntent.refl (ui : Ui) : SameIntent ui ui := ⟨rfl, [], by simp, by simp⟩

theorem SameIntent.of_eq (hpending : ui'.pending = ui.pending)
    (hcommands : ui'.commands = ui.commands) : SameIntent ui ui' :=
  ⟨hpending, [], by simp [hcommands], by simp⟩

theorem SameIntent.send (ui : Ui) {c : UiCommand} (h : c.aim = none) : SameIntent ui (ui.send c) :=
  ⟨rfl, [c], rfl, by simpa using h⟩

theorem Keeps.refl (ui : Ui) : Keeps ui ui := ⟨.refl ui, .refl ui, .refl ui⟩

theorem Keeps.trans (h : Keeps ui ui') (h' : Keeps ui' ui'') : Keeps ui ui'' where
  keys := h'.keys.trans h.keys
  index := h'.index.trans h.index
  sel := h'.sel.trans h.sel
  input := h'.input.trans h.input
  caret := h'.caret.trans h.caret
  pending := h'.pending.trans h.pending
  commands := by
    obtain ⟨sent, hsent, hplain⟩ := h.commands
    obtain ⟨sent', hsent', hplain'⟩ := h'.commands
    refine ⟨sent ++ sent', by rw [hsent', hsent, List.append_assoc], fun c hc => ?_⟩
    exact (List.mem_append.mp hc).elim (hplain c) (hplain' c)

theorem keeps_report (ui : Ui) (text : String) : Keeps ui (ui.report text) :=
  ⟨⟨rfl, rfl, rfl⟩, ⟨rfl, rfl⟩, .of_eq rfl rfl⟩

theorem keeps_send (ui : Ui) {c : UiCommand} (h : c.aim = none) : Keeps ui (ui.send c) :=
  ⟨⟨rfl, rfl, rfl⟩, ⟨rfl, rfl⟩, .send ui h⟩

theorem keeps_modify (ui : Ui) {f : Peer → Peer} (h : ∀ p, (f p).key = p.key) (i : Nat) :
    Keeps ui { ui with peers := ui.peers.modify i f } :=
  ⟨⟨keys_modify h _ _, rfl, rfl⟩, ⟨rfl, rfl⟩, .of_eq rfl rfl⟩

theorem Revises.of_eq {ui ui' : Ui} (h : ui'.peers = ui.peers) : Revises ui ui' :=
  ⟨0, id, fun _ => rfl, fun _ h => h, by rw [h, List.modify_id]⟩

theorem revises_modify (ui : Ui) {i : Nat} {f : Peer → Peer} (hkey : ∀ p, (f p).key = p.key)
    (hplaced : ∀ p, p.Placed → (f p).Placed) {ui' : Ui} (h : ui'.peers = ui.peers.modify i f) :
    Revises ui ui' :=
  ⟨i, f, hkey, hplaced, h⟩

theorem answers_report (ui : Ui) (text : String) : Answers ui (ui.report text) :=
  ⟨keeps_report ui text, .of_eq rfl⟩

theorem answers_send (ui : Ui) {c : UiCommand} (h : c.aim = none) : Answers ui (ui.send c) :=
  ⟨keeps_send ui h, .of_eq rfl⟩

theorem answers_modify (ui : Ui) {f : Peer → Peer} (hkey : ∀ p, (f p).key = p.key)
    (hplaced : ∀ p, p.Placed → (f p).Placed) (i : Nat) :
    Answers ui { ui with peers := ui.peers.modify i f } :=
  ⟨keeps_modify ui hkey i, revises_modify ui hkey hplaced rfl⟩

theorem Answers.report (h : Answers ui ui') (text : String) : Answers ui (ui'.report text) :=
  ⟨h.toKeeps.trans (keeps_report ui' text), h.revises⟩

theorem Answers.send (h : Answers ui ui') {c : UiCommand} (hc : c.aim = none) :
    Answers ui (ui'.send c) :=
  ⟨h.toKeeps.trans (keeps_send ui' hc), h.revises⟩

theorem answers_moveCursor (ui : Ui) (delta : Int) : Answers ui (ui.moveCursor delta) := by
  refine answers_modify ui (fun p => ?_) (fun p h => ?_) _
  · split <;> rfl
  · split
    · exact h
    · rename_i hne
      have hpos := List.length_pos_of_ne_nil hne
      left
      dsimp only
      omega

theorem answers_clickChat (ui : Ui) (row : Nat) : Answers ui (ui.clickChat row) := by
  have hfocus : Answers ui { ui with focus := .chat } :=
    ⟨⟨⟨rfl, rfl, rfl⟩, ⟨rfl, rfl⟩, .of_eq rfl rfl⟩, .of_eq rfl⟩
  simp only [clickChat]
  split
  · split
    · refine ⟨hfocus.toKeeps.trans (keeps_modify _ (by intro p; rfl) _),
        revises_modify ui (fun p => ?_) (fun p _ => ?_) rfl⟩
      · rfl
      · rw [Peer.Placed, ← List.length_eq_zero_iff]
        dsimp only
        omega
    · exact hfocus
  · exact hfocus

section Commands

variable (deps : Deps) (ui : Ui) (arg : List Char)

theorem answers_memberCommand (verb : String) : Answers ui (ui.memberCommand deps verb arg) := by
  rw [memberCommand]
  split
  · exact answers_report _ _
  · split
    · exact answers_report _ _
    · split
      · exact answers_send _ rfl
      · exact answers_report _ _

theorem answers_roomCommand : Answers ui (ui.roomCommand deps arg) := by
  simp only [roomCommand]
  split
  · split
    · exact answers_send _ rfl
    · exact answers_report _ _
  · exact answers_memberCommand _ _ _ _
  · exact answers_memberCommand _ _ _ _
  · exact answers_report _ _

/-- `/name` is the one command that changes a peer. -/
theorem answers_nameCommand : Answers ui (ui.nameCommand arg) := by
  simp only [nameCommand]
  split
  · exact answers_report _ _
  · split
    · exact answers_report _ _
    · refine ((answers_modify ui ?_ ?_ _).report _).send rfl
      · intro p
        rfl
      · exact fun _ h => h

theorem answers_forgetCommand : Answers ui (ui.forgetCommand arg) := by
  rw [forgetCommand]
  split
  · exact answers_report _ _
  · exact answers_send _ rfl

theorem answers_clearCommand : Answers ui (ui.clearCommand arg) := by
  rw [clearCommand]
  split
  · exact answers_report _ _
  · exact answers_send _ rfl

theorem answers_whois : Answers ui ui.whois := by
  rw [whois]
  split
  · exact answers_report _ _
  · exact answers_report _ _

theorem answers_nickCommand : Answers ui (ui.nickCommand arg) := by
  have hnick (nickname : String) : Answers ui { ui with nickname := nickname } :=
    ⟨⟨⟨rfl, rfl, rfl⟩, ⟨rfl, rfl⟩, .of_eq rfl rfl⟩, .of_eq rfl⟩
  simp only [nickCommand]
  split
  · exact answers_report _ _
  · exact ((hnick _).send rfl).report _

theorem answers_membersCommand : Answers ui ui.membersCommand := by
  rw [membersCommand]
  split
  · exact answers_report _ _
  · split
    · exact ⟨⟨⟨rfl, rfl, rfl⟩, ⟨rfl, rfl⟩, .of_eq rfl rfl⟩, .of_eq rfl⟩
    · exact answers_report _ _

theorem answers_leaveCommand : Answers ui ui.leaveCommand := by
  rw [leaveCommand]
  split
  · exact answers_report _ _
  · split
    · exact answers_send _ rfl
    · exact answers_report _ _

theorem answers_mouseCommand : Answers ui ui.mouseCommand := by
  have htoggled : Answers ui { ui with mouse := !ui.mouse } :=
    ⟨⟨⟨rfl, rfl, rfl⟩, ⟨rfl, rfl⟩, .of_eq rfl rfl⟩, .of_eq rfl⟩
  exact htoggled.report _

theorem answers_connectCommand : Answers ui (ui.connectCommand deps arg) := by
  rw [connectCommand]
  split
  · exact answers_send _ rfl
  · exact answers_report _ _

theorem answers_sendCommand : Answers ui (ui.sendCommand arg) := by
  rw [sendCommand]
  split
  · exact answers_report _ _
  · split
    · exact answers_report _ _
    · exact answers_send _ rfl

/-- No slash command touches what Enter will do with the next line. -/
theorem answers_slash (rest : List Char) : Answers ui (ui.slash deps rest).1 := by
  simp only [slash]
  split
  · exact answers_send _ rfl
  · exact answers_report _ _
  · exact answers_report _ _
  · exact answers_nickCommand _ _
  · exact answers_roomCommand _ _ _
  · exact answers_nameCommand _ _
  · exact answers_whois _
  · exact ⟨⟨⟨rfl, rfl, rfl⟩, ⟨rfl, rfl⟩, .of_eq rfl rfl⟩, .of_eq rfl⟩
  · exact ⟨⟨⟨rfl, rfl, rfl⟩, ⟨rfl, rfl⟩, .of_eq rfl rfl⟩, .of_eq rfl⟩
  · exact answers_membersCommand _
  · exact answers_leaveCommand _
  · exact answers_forgetCommand _ _
  · exact answers_clearCommand _ _
  · exact answers_send _ rfl
  · exact answers_mouseCommand _
  · exact answers_connectCommand _ _ _
  · exact answers_sendCommand _ _
  · exact answers_report _ _

end Commands

section Line

/-- Enter takes the line.  What is left of it is a command of the UI's own, nothing, or what
goes out to the selected conversation as whatever is pending. -/
theorem submit_cases (deps : Deps) (ui : Ui) : Answers ui.taken (ui.submit deps).1 ∨
    (ui.submit deps).1 = { ui.taken with pending := none } ∨
    ∃ peer body, ui.selectedKey = some peer ∧
      (ui.submit deps).1 =
        { ui.taken.send (message ui.pending peer body) with pending := none, scroll := 0 } := by
  simp only [submit]
  split
  · exact .inl (answers_slash deps _ _)
  · exact .inr (.inl rfl)
  · split
    · exact .inl (answers_report _ _)
    · rename_i peer hpeer
      exact .inr (.inr ⟨peer, _, hpeer, rfl⟩)

theorem sameList_submit (deps : Deps) (ui : Ui) : SameList ui (ui.submit deps).1 := by
  obtain h | h | ⟨peer, body, -, h⟩ := submit_cases deps ui
  · exact ⟨h.keys, h.index, h.sel⟩
  · rw [h]
    exact ⟨rfl, rfl, rfl⟩
  · rw [h]
    exact ⟨rfl, rfl, rfl⟩

theorem line_submit (deps : Deps) (ui : Ui) :
    (ui.submit deps).1.input = [] ∧ (ui.submit deps).1.caret = 0 := by
  obtain h | h | ⟨peer, body, -, h⟩ := submit_cases deps ui
  · exact ⟨h.input, h.caret⟩
  · rw [h]
    exact ⟨rfl, rfl⟩
  · rw [h]
    exact ⟨rfl, rfl⟩

/-- The message that `c` picks with the chat cursor, to be replied to or to be edited. -/
def pick (ui : Ui) (c : Char) : Option (Key × MessageId) :=
  match ui.cursorEntry with
  | none => none
  | some (peer, entry) =>
    if c = 'r' ∨ c = 'e' ∧ entry.outbound ∧ ¬entry.deleted then some (peer, entry.id) else none

theorem selectedKey_of_cursorEntry {ui : Ui} {peer : Key} {entry : Entry}
    (h : ui.cursorEntry = some (peer, entry)) : ui.selectedKey = some peer := by
  simp only [cursorEntry, Option.bind_eq_bind, Option.bind_eq_some_iff, Option.pure_def,
    Option.some.injEq, Prod.mk.injEq] at h
  obtain ⟨p, hp, entry', -, hkey, -⟩ := h
  rw [selectedKey, hp, ← hkey]
  rfl

/-- What picking a message of the selected conversation does. -/
structure Picks (peer : Key) (pending : Pending) (ui ui' : Ui) : Prop extends SameList ui ui' where
  selected : ui.selectedKey = some peer
  pending : ui'.pending = some pending
  commands : ui'.commands = ui.commands
  /-- An edit loads the whole body, with the caret at its end. -/
  line : SameLine ui ui' ∨ ui'.caret = byteSize ui'.input

theorem chatAction_cases (ui : Ui) (c : Char) :
    ui.pick c = none ∧ Keeps ui (ui.chatAction c) ∨
      ∃ peer pending, ui.pick c = some (peer, pending.target) ∧
        Picks peer pending ui (ui.chatAction c) := by
  cases hentry : ui.cursorEntry with
  | none =>
    rw [chatAction, pick, hentry]
    exact .inl ⟨rfl, .refl ui⟩
  | some entry =>
    obtain ⟨peer, entry⟩ := entry
    have hsel := selectedKey_of_cursorEntry hentry
    have hpick (c : Char) : ui.pick c =
        if c = 'r' ∨ c = 'e' ∧ entry.outbound ∧ ¬entry.deleted then some (peer, entry.id)
        else none := by
      simp only [pick, hentry]
    simp only [chatAction, hentry]
    split
    · exact .inr ⟨peer, .reply entry.id, by simp [hpick, Pending.target],
        ⟨⟨rfl, rfl, rfl⟩, hsel, rfl, rfl, .inl ⟨rfl, rfl⟩⟩⟩
    · split
      · rename_i hmine
        exact .inr ⟨peer, .edit entry.id, by simp [hpick, hmine, Pending.target],
          ⟨⟨rfl, rfl, rfl⟩, hsel, rfl, rfl, .inr rfl⟩⟩
      · rename_i hmine
        exact .inl ⟨by simp_all, keeps_report _ _⟩
    · split
      · exact .inl ⟨by simp [hpick], keeps_send _ rfl⟩
      · exact .inl ⟨by simp [hpick], keeps_report _ _⟩
    · rename_i hr he _
      have hno : ¬(c = 'r' ∨ c = 'e' ∧ entry.outbound = true ∧ ¬entry.deleted = true) :=
        fun h => h.elim hr fun h => he h.1
      rw [hpick, if_neg hno]
      split
      · exact .inl ⟨rfl, keeps_send _ rfl⟩
      · exact .inl ⟨rfl, .refl ui⟩

/-- At the caret, whatever the text, `edit` leaves the caret between two characters and
touches nothing but the line. -/
def EditsLine (edit : Ui → List Char → List Char → Ui) : Prop :=
  ∀ ui l r, ui.input = l ++ r → ui.caret = byteSize l →
    OnBoundary (edit ui l r).input (edit ui l r).caret ∧ SameList ui (edit ui l r) ∧
      SameIntent ui (edit ui l r)

theorem editsLine_insert (c : Char) : EditsLine (insert c) := by
  intro ui l r _ hcaret
  exact ⟨⟨l ++ [c], r, by simp [insert], by simp [insert, hcaret]⟩, ⟨rfl, rfl, rfl⟩,
    .of_eq rfl rfl⟩

theorem editsLine_backspace : EditsLine backspace := by
  intro ui l r hinput hcaret
  rw [backspace]
  split
  · rename_i c hc
    refine ⟨⟨l.dropLast, r, rfl, ?_⟩, ⟨rfl, rfl, rfl⟩, .of_eq rfl rfl⟩
    rw [← byteSize_dropLast hc, hcaret]
  · exact ⟨⟨l, r, hinput, hcaret⟩, .refl ui, .refl ui⟩

theorem editsLine_delete : EditsLine delete :=
  fun _ l r _ hcaret => ⟨⟨l, r.tail, rfl, hcaret⟩, ⟨rfl, rfl, rfl⟩, .of_eq rfl rfl⟩

theorem editsLine_left : EditsLine left := by
  intro ui l r hinput hcaret
  rw [left]
  split
  · rename_i c hc
    refine ⟨⟨l.dropLast, c :: r, ?_, ?_⟩, ⟨rfl, rfl, rfl⟩, .of_eq rfl rfl⟩
    · rw [hinput, ← List.dropLast_append_getLast? c hc]
      simp
    · rw [← byteSize_dropLast hc, hcaret]
  · exact ⟨⟨l, r, hinput, hcaret⟩, .refl ui, .refl ui⟩

theorem editsLine_right : EditsLine right := by
  intro ui l r hinput hcaret
  cases r with
  | nil => exact ⟨⟨l, [], hinput, hcaret⟩, .refl ui, .refl ui⟩
  | cons c r =>
    exact ⟨⟨l ++ [c], r, by simp [right, hinput], by simp [right, hcaret]⟩, ⟨rfl, rfl, rfl⟩,
      .of_eq rfl rfl⟩

/-- With the caret on a boundary the keys of the line find their character. -/
theorem onLine_spec {ui : Ui} (h : OnBoundary ui.input ui.caret)
    {edit : Ui → List Char → List Char → Ui} (hedit : EditsLine edit) :
    ∃ r, ui.onLine edit = some r ∧ OnBoundary r.1.input r.1.caret ∧ SameList ui r.1 ∧
      SameIntent ui r.1 := by
  rw [onLine]
  split
  · obtain ⟨l, r, hsplit, hinput, hcaret⟩ := h.split
    rw [atCaret, hsplit]
    exact ⟨_, rfl, hedit ui l r hinput hcaret⟩
  · exact ⟨_, rfl, h, .refl ui, .refl ui⟩

theorem onBoundary_byteAtColumn (charWidth : Char → Option Nat) (text : List Char)
    (column : Nat) : OnBoundary text (byteAtColumn charWidth text column) := by
  have hfrom : ∀ width, OnBoundary text (byteAtColumnFrom charWidth column width text) := by
    induction text with
    | nil => exact fun _ => onBoundary_zero _
    | cons c text ih =>
      intro width
      rw [byteAtColumnFrom]
      split
      · exact onBoundary_zero _
      · obtain ⟨l, r, hl, hn⟩ := ih (width + (charWidth c).getD 0)
        exact ⟨c :: l, r, by rw [hl, List.cons_append], by rw [hn, byteSize_cons]⟩
  exact hfrom 0

end Line

/-- Another conversation may be selected; the list itself and the line stay. -/
structure Selects (ui ui' : Ui) : Prop extends SameLine ui ui', SameIntent ui ui' where
  keys : ui'.keys = ui.keys
  index : ui'.index = ui.index
  sel : ui'.sel = ui.sel ∨ ui'.sel < ui.keys.length

theorem selects_selectPeer (ui : Ui) (delta : Int) : Selects ui (ui.selectPeer delta) := by
  rw [selectPeer]
  split
  · exact ⟨.refl ui, .refl ui, rfl, rfl, .inl rfl⟩
  · rename_i hne
    refine ⟨⟨rfl, rfl⟩, .of_eq rfl rfl, keys_modify Peer.key_seen _ _, rfl, .inr ?_⟩
    have hpos : 0 < ui.peers.length := List.length_pos_of_ne_nil hne
    have hnonneg := Int.emod_nonneg ((ui.sel : Int) + delta) (b := ui.peers.length) (by omega)
    have hlt := Int.emod_lt_of_pos ((ui.sel : Int) + delta) (b := ui.peers.length) (by omega)
    rw [length_keys]
    dsimp only
    omega

theorem selects_clickPeer (ui : Ui) (row : Nat) : Selects ui (ui.clickPeer row) := by
  simp only [clickPeer]
  split
  · rename_i hrow
    refine ⟨⟨rfl, rfl⟩, .of_eq rfl rfl, keys_modify Peer.key_seen _ _, rfl, .inr ?_⟩
    rw [length_keys]
    exact hrow
  · exact ⟨⟨rfl, rfl⟩, .of_eq rfl rfl, rfl, rfl, .inl rfl⟩

/-- What an event about the conversation of `key` does: if it was not listed it is, at the
end. -/
structure Meets (key : Key) (ui ui' : Ui) : Prop extends SameLine ui ui', SameIntent ui ui' where
  sel : ui'.sel = ui.sel
  listed : ui'.keys = ui.keys ∧ ui'.index = ui.index ∨
    ui.index.get key = none ∧ ui'.keys = ui.keys ++ [key] ∧
      ui'.index = ui.index.upsert key ui.keys.length

theorem meets_peerMut {key : Key} {f : Peer → Peer} (hf : ∀ p, (f p).key = p.key)
    (h : ui.peerMut key f = some ui') : Meets key ui ui' := by
  rw [peerMut] at h
  split at h
  · split at h
    · cases h
      exact ⟨⟨rfl, rfl⟩, .of_eq rfl rfl, rfl, .inl ⟨keys_modify hf _ _, rfl⟩⟩
    · cases h
  · rename_i hnone
    cases h
    refine ⟨⟨rfl, rfl⟩, .of_eq rfl rfl, rfl, .inr ⟨hnone, ?_, ?_⟩⟩
    · simp [keys, hf]
    · rw [length_keys]

end Ui

end Wicara.Client
