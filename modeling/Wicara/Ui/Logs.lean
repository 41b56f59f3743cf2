import Wicara.Client.Names
import Wicara.Ui.Selection
import Wicara.Ui.Episodes

namespace Wicara.Client

open Wicara.Core Lib Lib.Fallible Lib.Run

/-- What an input leaves of what there is to see of a conversation. -/
def Input.leaves (peer : Key) (entries : List Entry) : Input → List Entry
  | .event _ ev => ev.leaves peer entries
  | _ => entries

def Input.received : Input → Option UiEvent
  | .event _ ev => some ev
  | _ => none

/-- The events that come to the UI, in order. -/
def eventsOf (inputs : List Input) : List UiEvent := inputs.filterMap Input.received

namespace Ui

/-- The log that is shown of a conversation. -/
def logOf (ui : Ui) (key : Key) : List Entry :=
  match ui.peerOf key with
  | some p => p.log
  | none => []

/-- The logs there are, and where they are found. -/
def logs (ui : Ui) : Table Key Nat × List (List Entry) := (ui.index, ui.peers.map Peer.log)

theorem logOf_eq (ui : Ui) (key : Key) :
    ui.logOf key = ((ui.logs.1.get key).bind (ui.logs.2[·]?)).getD [] := by
  rw [logOf, peerOf, logs]
  cases ui.index.get key with
  | none => rfl
  | some i =>
    rw [Option.bind_some, Option.bind_some, List.getElem?_map]
    cases ui.peers[i]? <;> rfl

section Input

variable (deps : Deps) (ui : Ui)

theorem log_modify {f : Peer → Peer} (h : ∀ p, (f p).log = p.log) (peers : List Peer) (i : Nat) :
    (peers.modify i f).map Peer.log = peers.map Peer.log := by
  refine List.ext_getElem? fun j => ?_
  rw [List.getElem?_map, List.getElem?_map, List.getElem?_modify]
  cases peers[j]? with
  | none => rfl
  | some p => by_cases hij : i = j <;> simp [hij, h]

theorem logs_selectPeer (delta : Int) : (ui.selectPeer delta).logs = ui.logs := by
  rw [selectPeer]
  split
  · rfl
  · exact congrArg (Prod.mk ui.index) (log_modify (by intro p; rfl) _ _)

theorem logs_clickPeer (row : Nat) : (ui.clickPeer row).logs = ui.logs := by
  simp only [clickPeer]
  split
  · exact congrArg (Prod.mk ui.index) (log_modify (by intro p; rfl) _ _)
  · rfl

theorem logs_moveCursor (delta : Int) : (ui.moveCursor delta).logs = ui.logs := by
  refine congrArg (Prod.mk ui.index) (log_modify (fun p => ?_) _ _)
  split <;> rfl

theorem logs_clickChat (row : Nat) : (ui.clickChat row).logs = ui.logs := by
  simp only [clickChat]
  split
  · split
    · exact congrArg (Prod.mk ui.index) (log_modify (by intro p; rfl) _ _)
    · rfl
  · rfl

theorem logs_nameCommand (arg : List Char) : (ui.nameCommand arg).logs = ui.logs := by
  simp only [nameCommand]
  split
  · rfl
  · split
    · rfl
    · exact congrArg (Prod.mk ui.index) (log_modify (by intro p; rfl) _ _)

theorem logs_chatAction (c : Char) : (ui.chatAction c).logs = ui.logs := by
  rw [chatAction]
  repeat' split
  all_goals rfl

theorem logs_memberCommand (verb : String) (rest : List Char) :
    (ui.memberCommand deps verb rest).logs = ui.logs := by
  rw [memberCommand]
  repeat' split
  all_goals rfl

theorem logs_roomCommand (arg : List Char) : (ui.roomCommand deps arg).logs = ui.logs := by
  simp only [roomCommand]
  split
  · split <;> rfl
  · exact logs_memberCommand deps ui _ _
  · exact logs_memberCommand deps ui _ _
  · rfl

theorem logs_slash (rest : List Char) : (ui.slash deps rest).1.logs = ui.logs := by
  simp only [slash]
  split
  · rfl
  · rfl
  · rfl
  · rw [nickCommand]
    split <;> rfl
  · exact logs_roomCommand deps ui _
  · exact logs_nameCommand ui _
  · rw [whois]
    split <;> rfl
  · rfl
  · rfl
  · rw [membersCommand]
    repeat' split
    all_goals rfl
  · rw [leaveCommand]
    repeat' split
    all_goals rfl
  · rw [forgetCommand]
    split <;> rfl
  · rw [clearCommand]
    split <;> rfl
  · rfl
  · rfl
  · rw [connectCommand]
    split <;> rfl
  · rw [sendCommand]
    repeat' split
    all_goals rfl
  · rfl

theorem logs_submit : (ui.submit deps).1.logs = ui.logs := by
  simp only [submit]
  split
  · exact logs_slash deps ui.taken _
  · rfl
  · split <;> rfl

/-- At the caret nothing but the line changes. -/
theorem logs_onLine {edit : Ui → List Char → List Char → Ui}
    (hedit : ∀ ui l r, (edit ui l r).logs = ui.logs) {r : Ui × Bool} (h : ui.onLine edit = some r) :
    r.1.logs = ui.logs := by
  rw [onLine] at h
  split at h
  · rw [atCaret, Option.map_map, Option.map_eq_some_iff] at h
    obtain ⟨⟨l, rest⟩, -, rfl⟩ := h
    exact hedit ui l rest
  · cases h
    rfl

theorem logs_press {code : KeyCode} {r : Ui × Bool} (h : ui.press deps code = some r) :
    r.1.logs = ui.logs := by
  have hback (ui : Ui) (l r : List Char) : (backspace ui l r).logs = ui.logs := by
    rw [backspace]
    split <;> rfl
  have hleft (ui : Ui) (l r : List Char) : (left ui l r).logs = ui.logs := by
    rw [left]
    split <;> rfl
  have hright (ui : Ui) (l r : List Char) : (right ui l r).logs = ui.logs := by
    cases r <;> rfl
  cases code with
  | up =>
    simp only [press] at h
    split at h
    · cases h
      exact logs_selectPeer ui _
    · cases h
      exact logs_moveCursor ui _
    · cases h
      rfl
  | down =>
    simp only [press] at h
    split at h
    · cases h
      exact logs_selectPeer ui _
    · cases h
      exact logs_moveCursor ui _
    · cases h
      rfl
  | enter =>
    cases h
    exact logs_submit deps ui
  | char c =>
    simp only [press] at h
    split at h
    · cases h
      exact logs_chatAction ui c
    · exact logs_onLine ui (by intros; rfl) h
    · cases h
      rfl
  | backspace => exact logs_onLine ui hback h
  | delete =>
    simp only [press] at h
    split at h
    · exact logs_onLine ui (by intros; rfl) h
    · cases h
      rfl
  | left => exact logs_onLine ui hleft h
  | right => exact logs_onLine ui hright h
  | _ =>
    cases h
    rfl

theorem logs_onKey {ev : KeyEvent} {r : Ui × Bool} (h : ui.onKey deps ev = some r) :
    r.1.logs = ui.logs := by
  simp only [onKey] at h
  split at h
  · cases h
    rfl
  · split at h
    · cases h
      rfl
    · split at h
      · cases h
        rfl
      · exact logs_press deps ui.shown h

theorem logs_onMouse (ev : MouseEvent) : (ui.onMouse deps ev).logs = ui.logs := by
  simp only [onMouse]
  split
  · split
    · rfl
    · exact logs_selectPeer ui _
  · split
    · rfl
    · exact logs_selectPeer ui _
  · split
    · exact logs_clickPeer ui _
    · split
      · exact logs_clickChat ui _
      · split <;> rfl
  · rfl

end Input

section Events

variable {ui ui' : Ui} {key other : Key}

/-- The index finds what a look through the list finds. -/
theorem Sound.peerOf_eq (h : ui.Sound) (key : Key) :
    ui.peerOf key = ui.peers.find? (·.key = key) := by
  cases hfind : ui.peers.find? (·.key = key) with
  | none =>
    have hnone : ui.index.get key = none := by
      refine Option.eq_none_iff_forall_not_mem.mpr fun i hi => ?_
      have hkey := (h.index key i).mp hi
      rw [keys, List.getElem?_map, Option.map_eq_some_iff] at hkey
      obtain ⟨p, hp, hpkey⟩ := hkey
      exact List.find?_eq_none.mp hfind p (List.mem_of_getElem? hp) (decide_eq_true hpkey)
    rw [peerOf, hnone, Option.bind_none]
  | some p =>
    obtain ⟨i, hi⟩ := List.getElem?_of_mem (List.mem_of_find?_eq_some hfind)
    have hpkey : p.key = key := by
      simpa using List.find?_some hfind
    have hkey : ui.keys[i]? = some key := by
      rw [keys, List.getElem?_map, hi, Option.map_some, hpkey]
    rw [peerOf, (h.index key i).mpr hkey, Option.bind_some, hi]

theorem logOf_getD (ui : Ui) (key : Key) :
    ((ui.peerOf key).getD (.new key)).log = ui.logOf key := by
  rw [logOf]
  cases ui.peerOf key <;> rfl

/-- The other logs are where they were. -/
theorem logOf_peerMut_of_ne (h : ui.Sound) {f : Peer → Peer} (hrun : ui.peerMut key f = some ui')
    (hne : key ≠ other) : ui'.logOf other = ui.logOf other := by
  rw [logOf_eq, logOf_eq]
  rw [peerMut] at hrun
  split at hrun
  · rename_i i hi
    split at hrun
    · cases hrun
      simp only [logs]
      cases hj : ui.index.get other with
      | none => rfl
      | some j =>
        have hij : i ≠ j := by
          rintro rfl
          have hkey := ((h.index key i).mp hi).symm.trans ((h.index other i).mp hj)
          exact hne (Option.some.inj hkey)
        rw [Option.bind_some, Option.bind_some, List.getElem?_map, List.getElem?_map,
          List.getElem?_modify_ne f _ hij]
    · cases hrun
  · cases hrun
    simp only [logs, Table.get_upsert, if_neg hne.symm]
    cases hj : ui.index.get other with
    | none => rfl
    | some j =>
      obtain ⟨hlt, -⟩ := List.getElem?_eq_some_iff.mp ((h.index other j).mp hj)
      rw [length_keys] at hlt
      rw [Option.bind_some, Option.bind_some, List.map_append,
        List.getElem?_append_left (by rw [List.length_map]; exact hlt)]

theorem logOf_peerMut (h : ui.Sound) {f : Peer → Peer} (hrun : ui.peerMut key f = some ui')
    {g : List Entry → List Entry} (hf : ∀ p, (f p).log = g p.log) (other : Key) :
    ui'.logOf other = if key = other then g (ui.logOf other) else ui.logOf other := by
  split
  · rename_i heq
    subst heq
    have hlt (i : Nat) (hi : i ∈ ui.index.get key) : i < ui.peers.length := by
      rw [← length_keys]
      exact (List.getElem?_eq_some_iff.mp ((h.index key i).mp hi)).1
    obtain ⟨ui'', hrun', hpeer⟩ := peerOf_peerMut hlt f
    obtain rfl := Option.some.inj (hrun.symm.trans hrun')
    rw [logOf, hpeer, ← logOf_getD, ← hf]
  · rename_i hne
    exact logOf_peerMut_of_ne h hrun hne

theorem logOf_forgotten (h : ui.Sound) (peer other : Key) :
    (ui.forgotten peer).logOf other = if peer = other then [] else ui.logOf other := by
  have hpeer : (ui.forgotten peer).peerOf other =
      ui.peers.find? fun p => decide (p.key ≠ peer) && decide (p.key = other) := by
    rw [(h.forgotten peer).peerOf_eq, forgotten, List.find?_filter]
    simp
  rw [logOf, hpeer]
  split_ifs with heq
  · have hnone : ui.peers.find? (fun p => decide (p.key ≠ peer) && decide (p.key = other)) =
        none := by
      simp [List.find?_eq_none, heq]
    rw [hnone]
  · have hsame : (fun p : Peer => decide (p.key ≠ peer) && decide (p.key = other)) =
        fun p => decide (p.key = other) := by
      funext p
      by_cases hother : p.key = other
      · simp [hother, Ne.symm heq]
      · simp [hother]
    rw [hsame, ← h.peerOf_eq, logOf]

/-- An event changes what is shown as it should, and nothing panics. -/
theorem logOf_apply (h : ui.Sound) (now : UInt64) (ev : UiEvent) (hrun : ui.apply now ev = some ui')
    (key : Key) : ui'.logOf key = ev.leaves key (ui.logOf key) := by
  have hsame {other : Key} {f : Peer → Peer} (hf : ∀ p, (f p).log = p.log)
      (hrun : ui.peerMut other f = some ui') : ui'.logOf key = ui.logOf key := by
    rw [logOf_peerMut h hrun (g := id) hf]
    exact ite_self _
  cases ev with
  | known other nick aliased => exact hsame (by intro p; rfl) hrun
  | connected other nick => exact hsame (by intro p; rfl) hrun
  | path other link => exact hsame (by intro p; cases link <;> rfl) hrun
  | disconnected other => exact hsame (by intro p; rfl) hrun
  | log other entries =>
    simp only [apply, Option.map_eq_some_iff] at hrun
    obtain ⟨ui'', hrun, rfl⟩ := hrun
    have hlog := logOf_peerMut h hrun (g := fun _ => entries)
      (fun p => p.log_setLog entries _) key
    rw [UiEvent.leaves, ← hlog]
    split <;> rfl
  | delivery id state =>
    cases hrun
    rfl
  | transfer id done total =>
    cases hrun
    rfl
  | note other text => exact hsame (by intro p; rfl) hrun
  | forgotten other =>
    cases hrun
    exact logOf_forgotten h other key
  | wiped =>
    cases hrun
    simp [logOf, peerOf, Ui.wiped, UiEvent.leaves]
  | room id view => exact hsame (by intro p; rfl) hrun
  | status text bad =>
    cases hrun
    rfl

end Events

/-- Whatever is done at the UI, what it shows of the conversations is what the events say. -/
theorem logOf_step (deps : Deps) {ui : Ui} (h : ui.Sound) (input : Input) :
    ∃ ui', ui.step deps input = some ui' ∧ ui'.Sound ∧
      ∀ key, ui'.logOf key = input.leaves key (ui.logOf key) := by
  obtain ⟨ui', hrun, heffect⟩ := effect_step deps h input
  refine ⟨ui', hrun, heffect.sound h, fun key => ?_⟩
  have hlogs (hsame : ui'.logs = ui.logs) : ui'.logOf key = ui.logOf key := by
    rw [logOf_eq, logOf_eq, hsame]
  cases input with
  | key ev =>
    obtain ⟨r, hkey, rfl⟩ := Option.map_eq_some_iff.mp hrun
    exact hlogs (logs_onKey deps ui hkey)
  | mouse ev =>
    cases hrun
    exact hlogs (logs_onMouse deps ui ev)
  | event now ev => exact logOf_apply h now ev hrun key
  | drawn =>
    cases hrun
    exact hlogs rfl

/-- No run of the UI panics, and in the end it shows what the events say. -/
theorem logOf_foldlM (deps : Deps) {ui : Ui} (h : ui.Sound) (inputs : List Input) :
    ∃ ui', inputs.foldlM (step deps) ui = some ui' ∧ ui'.Sound ∧
      ∀ key, ui'.logOf key = (eventsOf inputs).foldl (UiEvent.leaves key) (ui.logOf key) := by
  induction inputs generalizing ui with
  | nil => exact ⟨ui, rfl, h, fun _ => rfl⟩
  | cons input inputs ih =>
    obtain ⟨ui₁, hrun₁, h₁, hlogs₁⟩ := logOf_step deps h input
    obtain ⟨ui₂, hrun₂, h₂, hlogs₂⟩ := ih h₁
    refine ⟨ui₂, by rw [List.foldlM_cons, hrun₁]; exact hrun₂, h₂, fun key => ?_⟩
    rw [hlogs₂, hlogs₁]
    cases input <;> rfl

end Ui

/-- Whatever the tables were when the client was started and whatever it has done since, and
whatever the user does between the events it has sent: once these have come to the UI, it shows the
newest messages of every conversation, as they are in the store.  This is so as long as each call
has come to its end before the next, what it was to send of a conversation could be read, and the
path of a file that was sent could be written down. -/
theorem ui_shows_what_is_stored {C : Crypto} (env : Env C) (alphanumeric : Char → Bool) (m : Mail)
    (deps : Deps) (me nickname : String) {x : BootIo} {s : Store}
    (hup : succeeds (boot env x) (App.start s) = true) {episodes : List Episode}
    (hepisodes : Along (Episode.step env alphanumeric m) (Episode.Clear env m)
      (.start (after (boot env x) (App.start s))) episodes) {inputs : List Input}
    (hinputs : eventsOf inputs = (run (Episode.step env alphanumeric m)
      (.start (after (boot env x) (App.start s))) episodes).app.events) :
    let w := run (Episode.step env alphanumeric m) (.start (after (boot env x) (App.start s)))
      episodes
    ∃ ui, inputs.foldlM (Ui.step deps) (.new me nickname) = some ui ∧
      ∀ peer, w.app.store.Newest peer (ui.logOf peer) := by
  intro w
  obtain ⟨ui, hrun, -, hlogs⟩ := Ui.logOf_foldlM deps (Ui.sound_new me nickname) inputs
  refine ⟨ui, hrun, fun peer => ?_⟩
  have hstart : (after (boot env x) (App.start s)).Shows peer :=
    (wp_iff.mp (wp_boot_shows env x s)).1 _ _ (run_of_succeeds hup)
  have hstep (w : World) (e : Episode) (h : w.app.Shows peer) (hclear : Episode.Clear env m w e) :
      (Episode.step env alphanumeric m w e).app.Shows peer := Episode.carries_step hclear h
  have hshows : w.app.Shows peer := hepisodes.invariant hstep hstart
  have hlog : ui.logOf peer = w.app.seen peer := by
    rw [hlogs, hinputs]
    rfl
  rw [hlog]
  exact hshows

namespace Sample

open Core.Sample Hub.Sample

def smoothBoot : BootIo := ⟨.ok, .ok, none, fun _ => (none, none), fun _ => none⟩

/-- 2 hears from 3, answers, empties the conversation and writes once more. -/
def evening : List Episode :=
  [.handle .ok none (key 3) (.chat ⟨key 3, 1, 10⟩ "are you there" none),
    .command (.send (key 3) "I am" none) plainCommand,
    .command (.clear (key 3) true) plainCommand,
    .command (.send (key 3) "where were we" none) plainCommand]

theorem clear_evening (w : World) :
    Along (Episode.step (client 2 false) Char.isAlphanum mail)
      (Episode.Clear (client 2 false) mail) w evening :=
  ⟨rfl, rfl, rfl, rfl, trivial⟩

theorem eventsOf_map (events : List UiEvent) : eventsOf (events.map (.event 0)) = events := by
  rw [eventsOf, List.filterMap_map]
  exact List.filterMap_some

end Sample

open Core.Sample Sample in
theorem ui_shows_what_is_stored_evening :
    let start := World.start (after (boot (client 2 false) smoothBoot) (App.start (.fresh (key 2))))
    let w := run (Episode.step (client 2 false) Char.isAlphanum mail) start evening
    ∃ ui, (w.app.events.map (.event 0)).foldlM (Ui.step plain) (.new "2" "me") = some ui ∧
      ∀ peer, w.app.store.Newest peer (ui.logOf peer) :=
  ui_shows_what_is_stored (client 2 false) Char.isAlphanum mail plain "2" "me"
    (show succeeds (boot (client 2 false) smoothBoot) (App.start (.fresh (key 2))) = true by
      decide +kernel) (clear_evening _) (eventsOf_map _)

end Wicara.Client
