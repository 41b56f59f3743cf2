import Wicara.Client.Dispatch
import Wicara.Client.Mailbox

namespace Wicara.Client

open Wicara.Core Lib Lib.Fallible Lib.Run Lib.Interleaving

/-- No op comes in but one that is `P`, and no room log. -/
structure Store.Adds (P : OpRow → Prop) (s s' : Store) : Prop where
  rows : ∀ row ∈ s'.ops.rows, row ∈ s.ops.rows ∨ P row
  stored : ∀ id log, s'.rooms.get id = some log → s.rooms.get id = some log
  minter : s'.counter.sender = s.counter.sender

/-- No op comes in but one that is `P`, and no room. -/
structure App.Adds (P : OpRow → Prop) (app app' : App) : Prop where
  store : app.store.Adds P app'.store
  shown : ∀ id room, app'.rooms.get id = some room → app.rooms.get id = some room

abbrev World.Adds (P : OpRow → Prop) (w w' : World) : Prop := w.app.Adds P w'.app

/-- An op may be recorded in a conversation. -/
def Backed (P : OpRow → Prop) (peer : Key) (frame : Frame) : Prop :=
  ∀ id, frame.id = some id → P (id, peer, frame)

/-- Nothing comes in: no op, no room log and no contact. -/
structure Store.Sheds (s s' : Store) : Prop where
  rows : ∀ row ∈ s'.ops.rows, row ∈ s.ops.rows
  stored : ∀ id log, s'.rooms.get id = some log → s.rooms.get id = some log
  contacts : ∀ key ∈ s'.contacts.keys, key ∈ s.contacts.keys
  minter : s'.counter.sender = s.counter.sender

/-- Nothing comes in, and no room. -/
structure App.Sheds (app app' : App) : Prop where
  store : app.store.Sheds app'.store
  shown : ∀ id room, app'.rooms.get id = some room → app.rooms.get id = some room

abbrev World.Sheds (w w' : World) : Prop := w.app.Sheds w'.app

section

variable {P : OpRow → Prop}

theorem Store.Sheds.of_eq {s s' : Store} (hops : s'.ops = s.ops) (hrooms : s'.rooms = s.rooms)
    (hcontacts : s'.contacts = s.contacts) (hminter : s'.counter.sender = s.counter.sender) :
    s.Sheds s' where
  rows _ hrow := hops ▸ hrow
  stored _ _ hlog := hrooms ▸ hlog
  contacts _ hkey := hcontacts ▸ hkey
  minter := hminter

theorem App.Sheds.of_eq {a a' : App} (hstore : a'.store = a.store) (hrooms : a'.rooms = a.rooms) :
    a.Sheds a' where
  store := .of_eq (by rw [hstore]) (by rw [hstore]) (by rw [hstore]) (by rw [hstore])
  shown id room hroom := hrooms ▸ hroom

theorem App.Sheds.adds {a a' : App} (h : a.Sheds a') : a.Adds P a' where
  store := ⟨fun row hrow => .inl (h.store.rows row hrow), h.store.stored, h.store.minter⟩
  shown := h.shown

instance : Std.Refl Store.Sheds := ⟨fun _ => .of_eq rfl rfl rfl rfl⟩

instance : Trans Store.Sheds Store.Sheds Store.Sheds where
  trans hab hbc := {
    rows := fun row hrow => hab.rows row (hbc.rows row hrow)
    stored := fun id log hlog => hab.stored id log (hbc.stored id log hlog)
    contacts := fun key hkey => hab.contacts key (hbc.contacts key hkey)
    minter := hbc.minter.trans hab.minter }

instance : Std.Refl App.Sheds := ⟨fun _ => .of_eq rfl rfl⟩

instance : Trans App.Sheds App.Sheds App.Sheds where
  trans hab hbc := {
    store := Trans.trans hab.store hbc.store
    shown := fun id room hroom => hab.shown id room (hbc.shown id room hroom) }

instance : Std.Refl World.Sheds := ⟨fun w => Std.Refl.refl (r := App.Sheds) w.app⟩

instance : Trans World.Sheds World.Sheds World.Sheds where
  trans {a b c} hab hbc :=
    (Trans.trans (hab : a.app.Sheds b.app) (hbc : b.app.Sheds c.app) : a.app.Sheds c.app)

theorem Store.Adds.of_eq {s s' : Store} (hops : s'.ops = s.ops) (hrooms : s'.rooms = s.rooms)
    (hminter : s'.counter.sender = s.counter.sender) : s.Adds P s' where
  rows _ hrow := .inl (hops ▸ hrow)
  stored _ _ hlog := hrooms ▸ hlog
  minter := hminter

instance : Std.Refl (Store.Adds P) := ⟨fun _ => .of_eq rfl rfl rfl⟩

instance : Trans (Store.Adds P) (Store.Adds P) (Store.Adds P) where
  trans hab hbc := {
    rows := fun row hrow => (hbc.rows row hrow).elim (hab.rows row) .inr
    stored := fun id log hlog => hab.stored id log (hbc.stored id log hlog)
    minter := hbc.minter.trans hab.minter }

instance : Std.Refl (App.Adds P) := ⟨fun a => (Std.Refl.refl (r := App.Sheds) a).adds⟩

instance : Trans (App.Adds P) (App.Adds P) (App.Adds P) where
  trans hab hbc := {
    store := Trans.trans hab.store hbc.store
    shown := fun id room hroom => hab.shown id room (hbc.shown id room hroom) }

instance : Std.Refl (World.Adds P) := ⟨fun w => Std.Refl.refl (r := App.Adds P) w.app⟩

instance : Trans (World.Adds P) (World.Adds P) (World.Adds P) where
  trans {a b c} hab hbc :=
    (Trans.trans (hab : a.app.Adds P b.app) (hbc : b.app.Adds P c.app) : a.app.Adds P c.app)

theorem adds_of_sheds {m : FileAct α} (h : Moves World.Sheds m) : Moves (World.Adds P) m :=
  fun w => App.Sheds.adds (h w)

theorem sheds_inStore {m : EStateM String Store α} (h : Moves Store.Sheds m) :
    Moves App.Sheds (inStore m) :=
  moves_zoom fun app => ⟨h app.store, fun _ _ hroom => hroom⟩

theorem sheds_inApp {m : Act α} (h : Moves App.Sheds m) : Moves World.Sheds (inApp m) :=
  moves_zoom fun w => h w.app

theorem adds_inStore {m : EStateM String Store α} (h : Moves (Store.Adds P) m) :
    Moves (App.Adds P) (inStore m) :=
  moves_zoom fun app => ⟨h app.store, fun _ _ hroom => hroom⟩

theorem adds_inApp {m : Act α} (h : Moves (App.Adds P) m) : Moves (World.Adds P) (inApp m) :=
  moves_zoom fun w => h w.app

theorem adds_record {peer : Key} {frame : Frame} (h : Backed P peer frame) (sqlite : Sqlite) :
    Moves (App.Adds P) (inStore (Store.record sqlite peer frame)) := by
  refine adds_inStore ?_
  unfold Store.record
  split
  · exact moves_pure _
  · rename_i id hid
    refine .bind (moves_attempt _) fun _ => .bind (moves_modify fun _ => .of_eq rfl rfl rfl)
      fun _ => .bind (moves_attempt _) fun _ => .bind moves_get fun _ =>
        .bind (moves_modify fun s => ?_) fun _ => moves_pure _
    refine ⟨fun row hrow => ?_, fun _ _ hlog => hlog, rfl⟩
    obtain hold | ⟨-, rfl⟩ := Table.mem_insertOrIgnore hrow
    · exact .inl hold
    · exact .inr (h id hid)

theorem sheds_emit (event : UiEvent) : Moves App.Sheds (emit event) :=
  moves_modify fun _ => .of_eq rfl rfl

theorem sheds_sendLog (io : Io) (peer : Key) : Moves App.Sheds (sendLog io peer) :=
  .bind moves_get fun _ => .bind (moves_lift _) fun _ => sheds_emit _

theorem sheds_setSetting (sqlite : Sqlite) (key value : String) :
    Moves App.Sheds (inStore (Store.setSetting sqlite key value)) :=
  sheds_inStore (.bind (moves_attempt _) fun _ => moves_modify fun _ => .of_eq rfl rfl rfl rfl)

theorem sheds_nextId (now : UInt64) : Moves App.Sheds (inStore (Store.nextId now)) :=
  sheds_inStore fun _ => .of_eq rfl rfl rfl rfl

theorem sheds_forget (sqlite : Sqlite) (orders : Orders) (peer : Key) (names : List String) :
    Moves App.Sheds (inStore (Store.forget sqlite orders peer names)) := by
  refine sheds_inStore (.bind moves_get fun s => .bind (moves_lift _) fun msgs =>
    .bind (moves_attempt _) fun _ => .bind (moves_modify fun s => ?_) fun _ => moves_pure _)
  refine ⟨fun row hrow => List.mem_of_mem_filter hrow, fun id log hlog => ?_,
    fun key hkey => (Table.mem_keys_erase.mp hkey).2, rfl⟩
  rw [Store.forgotten, Table.get_erase] at hlog
  split at hlog
  · cases hlog
  · exact hlog

theorem sheds_clear (sqlite : Sqlite) (orders : Orders) (peer : Key) :
    Moves App.Sheds (inStore (Store.clear sqlite orders peer)) :=
  sheds_inStore (.bind moves_get fun _ => .bind (moves_lift _) fun _ => .bind (moves_attempt _)
    fun _ => .bind (moves_modify fun _ => ⟨fun _ hrow => List.mem_of_mem_filter hrow,
      fun _ _ hlog => hlog, fun _ hkey => hkey, rfl⟩) fun _ => moves_pure _)

theorem sheds_wipe (sqlite : Sqlite) (orders : Orders) :
    Moves App.Sheds (inStore (Store.wipe sqlite orders)) := by
  refine sheds_inStore (.bind moves_get fun _ => .bind (moves_lift _) fun _ => .bind (moves_lift _)
    fun _ => .bind (moves_attempt _) fun _ => .bind (moves_modify fun s => ?_)
      fun _ => moves_pure _)
  refine ⟨fun _ hrow => (List.not_mem_nil hrow).elim, fun _ _ hlog => ?_,
    fun _ hkey => (List.not_mem_nil hkey).elim, rfl⟩
  cases hlog

theorem sheds_unlinkAll (paths : List String) : Moves World.Sheds (unlinkAll paths) :=
  moves_modify fun w => Std.Refl.refl (r := App.Sheds) w.app

section

variable {C : Crypto} {env : Env C}

theorem sheds_deliverTo (peer : Key) (frame : Frame) :
    Moves App.Sheds (deliverTo env peer frame) := by
  refine .bind (moves_modify fun _ => .of_eq rfl rfl) fun _ => .bind moves_get fun app => ?_
  split
  · refine .bind (moves_modify fun _ => .of_eq rfl rfl) fun _ => ?_
    split
    · exact sheds_emit _
    · exact moves_pure _
  · split
    · refine .bind ?_ fun _ => moves_modify fun _ => .of_eq rfl rfl
      split
      · exact sheds_emit _
      · exact moves_pure _
    · refine .bind ?_ fun _ => sheds_emit _
      split
      · exact sheds_emit _
      · exact moves_pure _

theorem sheds_deliverEach (wrapped : Frame) (members : List Key) :
    Moves App.Sheds (Dispatch.deliverEach env wrapped members) := by
  induction members with
  | nil => exact moves_pure _
  | cons member members ih =>
    rw [Dispatch.deliverEach]
    split
    · exact .bind (sheds_deliverTo _ _) fun _ => ih
    · exact ih

theorem sheds_deliver (conversation : Key) (frame : Frame) :
    Moves App.Sheds (Dispatch.deliver env conversation frame) := by
  refine .bind moves_get fun app => ?_
  split
  · exact sheds_deliverTo _ _
  · split
    · exact sheds_emit _
    · exact sheds_deliverEach _ _

end

theorem sheds_receiveChunks (header : Header) (got : List UInt8) (chunks : List Chunk) :
    Moves App.Sheds (receiveChunks header got chunks) := by
  induction chunks generalizing got with
  | nil => exact moves_pure _
  | cons chunk chunks ih =>
    cases chunk with
    | failed err => exact fun _ => .of_eq rfl rfl
    | data bytes write =>
      rw [receiveChunks]
      split
      · exact moves_pure _
      · exact .bind (moves_lift _) fun _ => .bind (moves_attempt _) fun _ =>
          .bind (sheds_emit _) fun _ => ih _

end

namespace Dispatch

variable {C : Crypto} {env : Env C} {P : OpRow → Prop}

theorem sheds_orWarn {text : String → String} {m : FileAct DispatchPc}
    (hm : Moves World.Sheds m) : Moves World.Sheds (orWarn text m) :=
  hm.rescue fun _ => .bind (sheds_inApp (sheds_emit _)) fun _ => moves_pure _

theorem sheds_preview (read : Store → Except String String) :
    Moves World.Sheds (preview read) :=
  sheds_inApp (.bind moves_get fun _ => .bind (moves_lift _) fun _ => .bind (sheds_emit _)
    fun _ => moves_pure _)

theorem sheds_issue (x : CommandIo) (peer : Key) (frame : MessageId → Frame) :
    Moves World.Sheds (issue x peer frame) :=
  .bind (sheds_inApp (sheds_nextId _)) fun _ => moves_pure _

/-- Nothing is recorded before its id is minted. -/
theorem sheds_begin (command : UiCommand) (x : CommandIo) :
    Moves World.Sheds (begin command x) := by
  cases command with
  | quit => exact moves_pure _
  | sendFile peer path =>
    refine sheds_inApp (.bind moves_get fun app => ?_)
    split
    · exact moves_pure _
    · exact .bind (sheds_emit _) fun _ => moves_pure _
  | name peer aliased =>
    exact sheds_orWarn (.bind (sheds_inApp (sheds_setSetting _ _ _)) fun _ => moves_pure _)
  | forget peer confirm =>
    cases confirm with
    | true => exact .bind (sheds_inApp (moves_modify fun _ => .of_eq rfl rfl)) fun _ => moves_pure _
    | false => exact sheds_orWarn (sheds_preview _)
  | clear peer confirm =>
    cases confirm with
    | true =>
      exact sheds_orWarn (.bind (sheds_inApp (sheds_clear _ _ _)) fun _ =>
        .bind (sheds_unlinkAll _) fun _ => moves_pure _)
    | false => exact sheds_orWarn (sheds_preview _)
  | wipe confirm =>
    cases confirm with
    | true => exact .bind (sheds_inApp (moves_modify fun _ => .of_eq rfl rfl)) fun _ => moves_pure _
    | false => exact sheds_orWarn (sheds_preview _)
  | connect peer => exact moves_pure _
  | room command => exact moves_pure _
  | nick nick =>
    refine sheds_inApp (.bind ?_ fun _ => .bind (moves_modify fun _ => .of_eq rfl rfl) fun _ =>
      moves_pure _)
    exact ((sheds_setSetting _ _ _).rescue fun _ => sheds_emit _).ignore
  | send peer body replyTo => exact sheds_issue _ _ _
  | edit peer target body => exact sheds_issue _ _ _
  | delete peer target => exact sheds_issue _ _ _
  | react peer target emoji on => exact sheds_issue _ _ _

end Dispatch

/-- What stands to be recorded next may be. -/
def DispatchPc.Backed (P : OpRow → Prop) : DispatchPc → Prop
  | .record _ peer frame => Client.Backed P peer frame
  | _ => True

namespace Dispatch

variable {C : Crypto} {env : Env C} {P : OpRow → Prop}

theorem sheds_go {pc : DispatchPc} (hpc : ∀ x peer frame, pc ≠ .record x peer frame) :
    Moves World.Sheds (go env pc) := by
  cases pc with
  | next => exact moves_pure _
  | announce x peer =>
    exact .bind (sheds_inApp (.bind moves_get fun _ => sheds_emit _)) fun _ => moves_pure _
  | record x peer frame => exact absurd rfl (hpc x peer frame)
  | refold x peer frame =>
    exact sheds_orWarn (.bind (sheds_inApp (sheds_sendLog _ _)) fun _ => moves_pure _)
  | deliver peer frame =>
    exact .bind (sheds_inApp (sheds_deliver _ _)) fun _ => moves_pure _
  | cleared x peer =>
    exact .bind (sheds_inApp (.bind (sheds_sendLog _ _).ignore fun _ => sheds_emit _))
      fun _ => moves_pure _
  | forgetRoom x peer =>
    refine .bind (sheds_inApp (moves_modify fun app => ?_)) fun _ => moves_pure _
    refine ⟨.of_eq rfl rfl rfl rfl, fun id room hroom => ?_⟩
    rw [Table.get_erase] at hroom
    split at hroom
    · cases hroom
    · exact hroom
  | forgetStore x peer =>
    exact sheds_orWarn (.bind (.bind (sheds_inApp (sheds_forget _ _ _ _)) fun _ =>
      .bind (sheds_unlinkAll _) fun _ => sheds_inApp (.bind (sheds_emit _) fun _ => sheds_emit _))
        fun _ => moves_pure _)
  | wipeRooms x =>
    refine .bind (sheds_inApp (moves_modify fun app => ?_)) fun _ => moves_pure _
    refine ⟨.of_eq rfl rfl rfl rfl, fun id room hroom => ?_⟩
    cases hroom
  | wipeStore x =>
    exact sheds_orWarn (.bind (.bind (sheds_inApp (sheds_wipe _ _)) fun _ =>
      .bind (sheds_unlinkAll _) fun _ => sheds_inApp (.bind (sheds_emit _) fun _ => sheds_emit _))
        fun _ => moves_pure _)
  | returned => exact moves_pure _

theorem adds_go {pc : DispatchPc} (hpc : pc.Backed P) : Moves (World.Adds P) (go env pc) := by
  cases pc with
  | record x peer frame =>
    exact Moves.rescue (.bind (adds_inApp (adds_record hpc _)) fun _ => moves_pure _)
      fun _ => adds_of_sheds (.bind (sheds_inApp (sheds_emit _)) fun _ => moves_pure _)
  | _ => exact adds_of_sheds (sheds_go (by simp))

theorem yields_next : Yields (DispatchPc.Backed P) (pure .next : FileAct DispatchPc) :=
  yields_pure trivial

theorem yields_orWarn {text : String → String} {m : FileAct DispatchPc}
    (hm : Yields (DispatchPc.Backed P) m) : Yields (DispatchPc.Backed P) (orWarn text m) :=
  hm.rescue fun _ => .bind fun _ => yields_next

/-- Only a command that has just been given an id leads to a record. -/
theorem yields_go (pc : DispatchPc) : Yields (DispatchPc.Backed P) (go env pc) := by
  cases pc with
  | record | refold | forgetStore | wipeStore =>
    exact yields_orWarn (.bind fun _ => yields_pure trivial)
  | next | returned => exact yields_pure trivial
  | _ => exact .bind fun _ => yields_pure trivial

theorem wp_issue {x : CommandIo} {peer : Key} {frame : MessageId → Frame} {w : World}
    (h : ∀ id, id.sender = w.app.store.counter.sender → Client.Backed P peer (frame id)) :
    wp (issue x peer frame) (fun pc _ => pc.Backed P) (fun _ _ => True) w :=
  h _ rfl

theorem wp_begin {command : UiCommand} {x : CommandIo} {w : World}
    (h : ∀ peer frame, command.op = some (peer, frame) → ∀ id,
      id.sender = w.app.store.counter.sender → Client.Backed P peer (frame id)) :
    wp (begin command x) (fun pc _ => pc.Backed P) (fun _ _ => True) w := by
  have hpreview (read : Store → Except String String) :
      Yields (DispatchPc.Backed P) (preview read) :=
    yields_zoom (.bind fun _ => .bind fun _ => .bind fun _ => yields_pure trivial)
  cases command with
  | sendFile peer path =>
    refine yields_zoom (.bind fun app => ?_) w
    split
    · exact yields_pure trivial
    · exact .bind fun _ => yields_pure trivial
  | name peer aliased =>
    have hnamed : Yields (DispatchPc.Backed P) (do
        inApp (inStore (Store.setSetting x.setting (aliasKey peer) (aliased.getD "")))
        pure (.announce x peer) : FileAct DispatchPc) := .bind fun _ => yields_pure trivial
    exact yields_orWarn hnamed w
  | forget peer confirm =>
    cases confirm with
    | true => trivial
    | false => exact yields_orWarn (hpreview _) w
  | clear peer confirm =>
    cases confirm with
    | true =>
      have hcleared : Yields (DispatchPc.Backed P) (do
          let files ← inApp (inStore (Store.clear x.remove.removal x.remove.io.orders peer))
          unlinkAll files
          pure (.cleared x peer) : FileAct DispatchPc) :=
        .bind fun _ => .bind fun _ => yields_pure trivial
      exact yields_orWarn hcleared w
    | false => exact yields_orWarn (hpreview _) w
  | wipe confirm =>
    cases confirm with
    | true => trivial
    | false => exact yields_orWarn (hpreview _) w
  | nick nick =>
    exact yields_zoom (.bind fun _ => .bind fun _ => yields_pure trivial) w
  | quit | connect peer | room command => trivial
  | send peer body replyTo => exact wp_issue (h _ _ rfl)
  | edit peer target body => exact wp_issue (h _ _ rfl)
  | delete peer target => exact wp_issue (h _ _ rfl)
  | react peer target emoji on => exact wp_issue (h _ _ rfl)

theorem sheds_next {d : Dispatch} (hpc : ∀ x peer frame, d.pc ≠ .record x peer frame) :
    Moves World.Sheds (d.next env) := by
  unfold next
  split
  · exact .bind (sheds_begin _ _) fun _ => moves_pure _
  · exact .bind (sheds_go hpc) fun _ => moves_pure _

theorem adds_next {d : Dispatch} (hpc : d.pc.Backed P) : Moves (World.Adds P) (d.next env) := by
  unfold next
  split
  · exact Moves.bind (adds_of_sheds (sheds_begin _ _)) fun _ => moves_pure _
  · exact .bind (adds_go hpc) fun _ => moves_pure _

theorem wp_next {d : Dispatch} {w : World}
    (h : ∀ command x, (command, x) ∈ d.queue → ∀ peer frame, command.op = some (peer, frame) →
      ∀ id, id.sender = w.app.store.counter.sender → Client.Backed P peer (frame id)) :
    wp (d.next env) (fun d' _ => d'.pc.Backed P ∧ ∀ c ∈ d'.queue, c ∈ d.queue)
      (fun _ _ => True) w := by
  unfold next
  split
  · rename_i _ command x queue hpc hqueue
    rw [hqueue] at h ⊢
    refine wp_bind.mpr (wp_mono (fun pc' _ hpc' => ?_) (fun _ _ h => h)
      (wp_begin (h command x List.mem_cons_self)))
    exact ⟨hpc', fun c hc => List.mem_cons_of_mem _ hc⟩
  · refine wp_bind.mpr (wp_mono (fun pc' _ hpc' => ?_) (fun _ _ h => h) (yields_go (P := P) _ w))
    exact ⟨hpc', fun _ hc => hc⟩

theorem advance_snd (d : Dispatch) (w : World) : (d.advance env w).2 = after (d.next env) w := by
  unfold advance after
  cases (d.next env).run w <;> rfl

theorem moves_advance {R : World → World → Prop} {d : Dispatch} (h : Moves R (d.next env))
    (w : World) : R w (d.advance env w).2 := by
  rw [advance_snd]
  exact h w

variable (env) in
theorem backed_advance {d : Dispatch} {w : World}
    (h : ∀ command x, (command, x) ∈ d.queue → ∀ peer frame, command.op = some (peer, frame) →
      ∀ id, id.sender = w.app.store.counter.sender → Client.Backed P peer (frame id)) :
    (d.advance env w).1.pc.Backed P ∧ ∀ c ∈ (d.advance env w).1.queue, c ∈ d.queue := by
  have hnext : wp (d.next env) _ _ w := wp_next h
  unfold advance
  rcases wp_cases hnext with ⟨d', w', hrun, hnext⟩ | ⟨err, w', hrun, -⟩
  · rw [hrun]
    exact hnext
  · rw [hrun]
    exact ⟨trivial, fun _ hc => hc⟩

end Dispatch

/-- What a task stands to record may be; nothing is recorded on the way of the others. -/
def FileTask.Backed (P : OpRow → Prop) : FileTask → Prop
  | .send _ peer _ (.record header) => Client.Backed P peer header.frame
  | .receive io peer .start => ∀ header, admissible io peer = .ok header →
      Client.Backed P peer header.frame
  | .once _ _ => False
  | _ => True

namespace FileTask

variable {C : Crypto} {env : Env C} {alphanumeric : Char → Bool} {P : OpRow → Prop}

theorem sheds_mintHeader (io : SendIo) (path : String) :
    Moves World.Sheds (mintHeader io path) :=
  .bind (moves_modify fun w => Std.Refl.refl (r := App.Sheds) w.app) fun _ =>
    .bind (moves_lift _) fun _ => .bind (sheds_inApp (sheds_nextId _)) fun _ => moves_pure _

theorem adds_recordHeader {io : Io} {peer : Key} {header : Header}
    (h : Client.Backed P peer header.frame) :
    Moves (World.Adds P) (recordHeader io peer header) :=
  .bind (adds_inApp (adds_record h _)) fun _ => moves_pure _

theorem sheds_placeFile (setting : Sqlite) (origin : Origin) (id : MessageId) (path : String) :
    Moves World.Sheds (placeFile setting origin id path) :=
  .bind (sheds_inApp (sheds_setSetting _ _ _)) fun _ =>
    moves_modify fun w => Std.Refl.refl (r := App.Sheds) w.app

theorem sheds_transfer (io : SendIo) (header : Header) : Moves World.Sheds (transfer io header) :=
  moves_transfer (fun w _ => Std.Refl.refl (r := App.Sheds) w.app)
    (fun _ => sheds_inApp (sheds_emit _)) (sheds_inApp (sheds_emit _))

theorem sheds_download (io : ReceiveIo) (header : Header) :
    Moves World.Sheds (download env alphanumeric io header) :=
  .bind (moves_lift _) fun _ =>
    .bind (moves_modify fun w => Std.Refl.refl (r := App.Sheds) w.app) fun _ =>
    sheds_inApp (.bind (sheds_receiveChunks _ _ _) fun _ => .bind (moves_attempt _) fun _ =>
      .bind (moves_lift _) fun _ => moves_pure _)

theorem adds_readHeader {io : ReceiveIo} {peer : Key}
    (h : ∀ header, admissible io peer = .ok header → Client.Backed P peer header.frame) :
    Moves (World.Adds P) (readHeader io peer) := by
  unfold readHeader
  cases hheader : admissible io peer with
  | error err => exact fun w => Std.Refl.refl (r := World.Adds P) w
  | ok header =>
    exact Moves.bind (k := fun _ => pure header) (adds_recordHeader (h header hheader))
      fun _ => moves_pure _

theorem sheds_send {io : SendIo} {peer : Key} {path : String} {pc : SendPc}
    (hpc : ∀ header, pc ≠ .record header) :
    Moves World.Sheds (next env alphanumeric (.send io peer path pc)) := by
  cases pc with
  | start => exact .bind (sheds_mintHeader _ _) fun _ => moves_pure _
  | record header => exact absurd rfl (hpc header)
  | place header => exact .bind (sheds_placeFile _ _ _ _) fun _ => moves_pure _
  | refold header => exact .bind (sheds_inApp (sheds_sendLog _ _)) fun _ => moves_pure _
  | transfer header => exact .bind (sheds_transfer _ _) fun _ => moves_pure _
  | done => exact moves_pure _

theorem sheds_receive {io : ReceiveIo} {peer : Key} {pc : ReceivePc} (hpc : pc ≠ .start) :
    Moves World.Sheds (next env alphanumeric (.receive io peer pc)) := by
  cases pc with
  | start => exact absurd rfl hpc
  | refold header => exact .bind (sheds_inApp (sheds_sendLog _ _)) fun _ => moves_pure _
  | download header => exact .bind (sheds_download _ _) fun _ => moves_pure _
  | place header got => exact .bind (sheds_placeFile _ _ _ _) fun _ => moves_pure _
  | announce header got =>
    exact .bind (.bind (sheds_inApp (sheds_sendLog _ _)) fun _ => sheds_inApp (sheds_emit _))
      fun _ => moves_pure _
  | done => exact moves_pure _

theorem adds_next {t : FileTask} (h : t.Backed P) :
    Moves (World.Adds P) (t.next env alphanumeric) := by
  cases t with
  | send io peer path pc =>
    cases pc with
    | record header => exact .bind (adds_recordHeader h) fun _ => moves_pure _
    | _ => exact adds_of_sheds (sheds_send (by simp))
  | receive io peer pc =>
    cases pc with
    | start => exact .bind (adds_readHeader h) fun _ => moves_pure _
    | _ => exact adds_of_sheds (sheds_receive (by simp))
  | once call isDone => exact h.elim

theorem sheds_report (t : FileTask) (err : String) : Moves World.Sheds (t.report err) := by
  cases t with
  | send | receive => exact sheds_inApp (sheds_emit _)
  | once => exact moves_pure _

theorem moves_advance {R : World → World → Prop} [Trans R R R] {t : FileTask}
    (h : Moves R (t.next env alphanumeric)) (hreport : ∀ err, Moves R (t.report err)) (w : World) :
    R w (t.advance env alphanumeric w).2 := by
  have hnext : wp (t.next env alphanumeric) _ _ w := h.wp w
  unfold advance
  rcases wp_cases hnext with ⟨t', w', hrun, hnext⟩ | ⟨err, w', hrun, hnext⟩
  · rw [hrun]
    exact hnext
  · rw [hrun]
    exact Trans.trans hnext (hreport err w')

theorem adds_advance {t : FileTask} (h : t.Backed P) (w : World) :
    w.Adds P (t.advance env alphanumeric w).2 :=
  moves_advance (adds_next h) (fun err => adds_of_sheds (t.sheds_report err)) w

/-- What `send` announces is its own, and what it has found on the disk. -/
theorem wp_mintHeader_sender (io : SendIo) (path : String) (w : World) :
    wp (mintHeader io path)
      (fun header _ => sendable io path = .ok (header.name, header.size, header.hash) ∧
        header.id.sender = w.app.store.counter.sender)
      (fun _ _ => True) w := by
  simp only [mintHeader, wp_bind, wp_modify, wp_lift]
  exact ⟨fun found hfound => ⟨hfound, rfl⟩, fun _ _ => trivial⟩

theorem wp_send_backed {io : SendIo} {peer : Key} {path : String} {pc : SendPc} {w : World}
    (h : ∀ header : Header, sendable io path = .ok (header.name, header.size, header.hash) →
      header.id.sender = w.app.store.counter.sender → Client.Backed P peer header.frame) :
    wp (next env alphanumeric (.send io peer path pc))
      (fun t' _ => ∃ pc', t' = .send io peer path pc' ∧ t'.Backed P) (fun _ _ => True) w := by
  have hgoes {α : Type} (m : FileAct α) (pc' : SendPc)
      (hpc' : FileTask.Backed P (.send io peer path pc')) :
      wp (m >>= fun _ => pure (.send io peer path pc'))
        (fun (t' : FileTask) _ => ∃ pc', t' = .send io peer path pc' ∧ t'.Backed P)
        (fun _ _ => True) w :=
    wp_bind.mpr (wp_of_forall (fun _ _ => ⟨pc', rfl, hpc'⟩) fun _ _ => trivial)
  cases pc with
  | start =>
    refine wp_bind.mpr (wp_mono ?_ (fun _ _ h => h) (wp_mintHeader_sender io path w))
    rintro header _ ⟨hfound, hsender⟩
    exact ⟨_, rfl, h header hfound hsender⟩
  | done => exact ⟨_, rfl, trivial⟩
  | _ => exact hgoes _ _ trivial

variable (env alphanumeric) in
theorem advance_send {io : SendIo} {peer : Key} {path : String} {pc : SendPc} {w : World}
    (h : ∀ header : Header, sendable io path = .ok (header.name, header.size, header.hash) →
      header.id.sender = w.app.store.counter.sender → Client.Backed P peer header.frame) :
    ∃ pc', (advance env alphanumeric (.send io peer path pc) w).1 = .send io peer path pc' ∧
      FileTask.Backed P (.send io peer path pc') := by
  have hnext : wp (next env alphanumeric (.send io peer path pc)) _ _ w := wp_send_backed h
  unfold advance
  rcases wp_cases hnext with ⟨t', w', hrun, hnext⟩ | ⟨err, w', hrun, -⟩
  · rw [hrun]
    obtain ⟨pc', rfl, hbacked⟩ := hnext
    exact ⟨pc', rfl, hbacked⟩
  · rw [hrun]
    exact ⟨.done, rfl, trivial⟩

variable (env alphanumeric) in
theorem advance_receive (io : ReceiveIo) (peer : Key) (pc : ReceivePc) (w : World) :
    ∃ pc', (advance env alphanumeric (.receive io peer pc) w).1 = .receive io peer pc' := by
  have hnext : wp (next env alphanumeric (.receive io peer pc))
      (fun t' _ => ∃ pc', t' = .receive io peer pc') (fun _ _ => True) w := by
    cases pc with
    | done => exact ⟨_, rfl⟩
    | _ => exact wp_bind.mpr (wp_of_forall (fun _ _ => ⟨_, rfl⟩) fun _ _ => trivial)
  unfold advance
  rcases wp_cases hnext with ⟨t', w', hrun, hnext⟩ | ⟨err, w', hrun, -⟩
  · rw [hrun]
    exact hnext
  · rw [hrun]
    exact ⟨.done, rfl⟩

end FileTask

end Wicara.Client
