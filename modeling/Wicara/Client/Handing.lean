import Wicara.Client.Network
import Wicara.Client.Wrapping

namespace Wicara.Client

open Wicara.Core Lib Lib.Fallible Lib.Run Lib.Interleaving

variable {C : Crypto} {S : Sealer} {ι : Type}

/-- These frames and no others have been handed out since. -/
structure App.Posts (frames : List (Key × Frame)) (a b : App) : Prop where
  handed : b.handed = a.handed ++ frames
  outbound : ∀ peer frame, (some peer, frame) ∈ b.outbound →
    (some peer, frame) ∈ a.outbound ∨ (peer, frame) ∈ frames
  mailing : ∀ x ∈ b.mailing, x ∈ a.mailing ∨ x ∈ frames

namespace App.Posts

theorem of_eq {a b : App} (hhanded : b.handed = a.handed) (houtbound : b.outbound = a.outbound)
    (hmailing : b.mailing = a.mailing) : a.Posts [] b where
  handed := by rw [hhanded, List.append_nil]
  outbound _ _ h := .inl (houtbound ▸ h)
  mailing _ h := .inl (hmailing ▸ h)

theorem trans {l l' : List (Key × Frame)} {a b c : App} (hab : a.Posts l b) (hbc : b.Posts l' c) :
    a.Posts (l ++ l') c where
  handed := by rw [hbc.handed, hab.handed, List.append_assoc]
  outbound peer frame h := by
    rw [List.mem_append]
    rcases hbc.outbound peer frame h with h | h
    · exact (hab.outbound peer frame h).imp_right .inl
    · exact .inr (.inr h)
  mailing x h := by
    rw [List.mem_append]
    rcases hbc.mailing x h with h | h
    · exact (hab.mailing x h).imp_right .inl
    · exact .inr (.inr h)

end App.Posts

section

variable {app : App}

/-- A call hands out these frames, and works on nothing else but the events. -/
def Delivers (frames : List (Key × Frame)) (m : Act PUnit) (app : App) : Prop :=
  wp m (fun _ a => a.store = app.store ∧ a.rooms = app.rooms ∧ app.Posts frames a)
    (fun _ _ => False) app

theorem delivers_deliverTo (env : Env C) (peer : Key) (frame : Frame) (app : App) :
    Delivers [(peer, frame)] (deliverTo env peer frame) app := by
  simp only [Delivers, deliverTo, status, wp_bind, wp_modify, wp_get, wp_ite]
  refine ⟨fun _ => ?_, fun _ => ⟨fun _ => ?_, fun _ => ?_⟩⟩ <;> cases frame.id <;>
    refine ⟨rfl, rfl, rfl, fun p f h => ?_, fun x h => ?_⟩ <;>
    first | exact .inl h | simpa using h

theorem delivers_deliverEach (env : Env C) (wrapped : Frame) (members : List Key) (app : App) :
    Delivers ((members.filter (· ≠ env.me)).map fun member => (member, wrapped))
      (Dispatch.deliverEach env wrapped members) app := by
  induction members generalizing app with
  | nil => exact ⟨rfl, rfl, .of_eq rfl rfl rfl⟩
  | cons member members ih =>
    simp only [Delivers, Dispatch.deliverEach, wp_bind, wp_ite]
    constructor
    · intro hne
      rw [List.filter_cons_of_pos (by simpa using hne), List.map_cons]
      refine wp_mono (fun _ a ha => ?_) (fun _ _ h => h) (delivers_deliverTo env member wrapped app)
      refine wp_mono (fun _ b hb => ?_) (fun _ _ h => h) (ih a)
      exact ⟨hb.1.trans ha.1, hb.2.1.trans ha.2.1, ha.2.2.trans hb.2.2⟩
    · intro heq
      rw [List.filter_cons_of_neg (by simpa using heq)]
      exact ih app

/-- `deliver` hands an op to its addressees. -/
theorem delivers_deliver (env : Env C) (conversation : Key) (frame : Frame) (app : App) :
    Delivers (addressees env app.rooms conversation frame)
      (Dispatch.deliver env conversation frame) app := by
  simp only [Delivers, Dispatch.deliver, addressees, wp_bind, wp_get]
  cases app.rooms.get conversation with
  | none => exact delivers_deliverTo env conversation frame app
  | some room =>
    simp only [wp_ite]
    refine ⟨fun hout => ?_, fun hin => ?_⟩
    · rw [if_pos hout]
      exact ⟨rfl, rfl, .of_eq rfl rfl rfl⟩
    · rw [if_neg hin]
      exact delivers_deliverEach env _ _ app

end

/-- What the command of an op does: its id is minted, it is recorded or not, and what was recorded
is handed out, unless the conversation could not be read. -/
structure IssuedOp (env : Env C) (io : Io) (now : UInt64) (peer : Key) (frame : MessageId → Frame)
    (a b : App) : Prop where
  rooms : b.rooms = a.rooms
  counter : b.store.counter = (a.store.counter.mint now).2
  ends : let id := (a.store.counter.mint now).1
    (b.store.ops = a.store.ops ∧ a.Posts [] b) ∨
    b.store.ops = a.store.ops.insertOrIgnore id (peer, frame id) ∧
      (a.Posts (addressees env a.rooms peer (frame id)) b ∨ io.history ≠ none ∧ a.Posts [] b)

namespace Dispatch

theorem run_deliver (env : Env C) (conversation : Key) (frame : Frame) (app : App) :
    ∃ b, (deliver env conversation frame).run app = .ok .unit b := by
  have h := delivers_deliver env conversation frame app
  rcases wp_cases h with ⟨_, b, hrun, -⟩ | ⟨err, b, hrun, h⟩
  · exact ⟨b, hrun⟩
  · exact h.elim

section OrWarn

variable {α : Type} {env : Env C} {pc pc' : DispatchPc} {text : String → String} {m : Act α}
  {queue : List (UiCommand × CommandIo)} {w : World} {b : App}

/-- A section that only tells the user of its errors. -/
theorem advance_orWarn (hnext : Dispatch.next env ⟨queue, pc⟩ = do
      let pc ← orWarn text (do
        let _ ← inApp m
        pure pc')
      pure ⟨queue, pc⟩) {a : α} (hm : m.run w.app = .ok a b) :
    advance env ⟨queue, pc⟩ w = (⟨queue, pc'⟩, { w with app := b }) := by
  have hm : m w.app = .ok a b := hm
  rw [advance, hnext]
  simp only [orWarn, rescue, inApp, zoom, EStateM.run, bind, EStateM.bind, hm, pure, EStateM.pure]

theorem advance_orWarn_error (hnext : Dispatch.next env ⟨queue, pc⟩ = do
      let pc ← orWarn text (do
        let _ ← inApp m
        pure pc')
      pure ⟨queue, pc⟩) {err : String} (hm : m.run w.app = .error err b) :
    advance env ⟨queue, pc⟩ w =
      (⟨queue, .next⟩, { w with app := after (warn (text err)) b }) := by
  have hm : m w.app = .error err b := hm
  rw [advance, hnext]
  simp only [orWarn, rescue, inApp, zoom, EStateM.run, bind, EStateM.bind, hm, pure, EStateM.pure]
  rfl

end OrWarn

theorem advance_deliver (env : Env C) (queue : List (UiCommand × CommandIo)) (peer : Key)
    (frame : Frame) (w : World) : advance env ⟨queue, .deliver peer frame⟩ w =
      (⟨queue, .next⟩, { w with app := after (deliver env peer frame) w.app }) := by
  obtain ⟨b, hrun⟩ := run_deliver env peer frame w.app
  have hb : after (deliver env peer frame) w.app = b := by rw [after, hrun]
  have hrun : deliver env peer frame w.app = .ok .unit b := hrun
  simp only [advance, Dispatch.next, go, inApp, zoom, EStateM.run, bind, EStateM.bind, hrun, hb,
    pure, EStateM.pure]

/-- What is saved is handed on; what is not, the user is told of. -/
theorem after_saving {α : Type} (m : Act α) (n k : Act PUnit) (text : String → String) (app : App) :
    after (do
      let saved ← rescue
        (do
          let _ ← m
          n
          pure true)
        fun err => do
          warn (text err)
          pure false
      if saved then k else pure .unit) app =
      match m.run app with
      | .error err b => after (warn (text err)) b
      | .ok _ b =>
        match n.run b with
        | .error err b => after (warn (text err)) b
        | .ok _ b => after k b := by
  cases hm : m.run app with
  | error err b =>
    have hm : m app = .error err b := hm
    simp only [after, rescue, EStateM.run, bind, EStateM.bind, hm]
    rfl
  | ok a b =>
    have hm : m app = .ok a b := hm
    cases hn : n.run b with
    | error err b' =>
      have hn : n b = .error err b' := hn
      simp only [after, rescue, EStateM.run, bind, EStateM.bind, hm, hn]
      rfl
    | ok u b' =>
      have hn : n b = .ok u b' := hn
      simp only [after, rescue, EStateM.run, bind, EStateM.bind, hm, hn, pure, EStateM.pure,
        if_true]

/-- With nothing in between, the sections of a command that makes an op are `issue`. -/
theorem alone_eq_issue (env : Env C) {command : UiCommand} {peer : Key} {frame : MessageId → Frame}
    (hop : command.op = some (peer, frame)) (queue : List (UiCommand × CommandIo)) (x : CommandIo)
    (w : World) : ∃ k, alone (advance env) k ⟨(command, x) :: queue, .next⟩ w =
      (⟨queue, .next⟩, { w with
        app := after (Client.issue env x.remove.io x.now peer frame) w.app }) := by
  have hbegin : begin command x = issue x peer frame := by
    cases command <;> simp only [UiCommand.op, Option.some.injEq, Prod.mk.injEq,
      reduceCtorEq] at hop <;> obtain ⟨rfl, rfl⟩ := hop <;> rfl
  let minted := w.app.store.counter.mint x.now
  let app : App := { w.app with store := { w.app.store with counter := minted.2 } }
  let record : Act Bool := inStore (Store.record x.remove.io.record peer (frame minted.1))
  have hminted : advance env ⟨(command, x) :: queue, .next⟩ w =
      (⟨queue, .record x peer (frame minted.1)⟩, { w with app := app }) := by
    simp only [advance, Dispatch.next, hbegin]
    rfl
  have hissue : after (Client.issue env x.remove.io x.now peer frame) w.app = _ :=
    after_saving record (sendLog x.remove.io peer) (deliver env peer (frame minted.1))
      (fun err => s!"could not save: {err}") app
  rw [hissue]
  cases hrecord : record.run app with
  | error err b =>
    refine ⟨2, ?_⟩
    rw [alone, hminted, alone, advance_orWarn_error rfl hrecord, alone]
  | ok _ b =>
    cases hlog : (sendLog x.remove.io peer).run b with
    | error err b' =>
      refine ⟨3, ?_⟩
      rw [alone, hminted, alone, advance_orWarn rfl hrecord, alone, advance_orWarn_error rfl hlog,
        alone]
      simp only [hlog]
    | ok _ b' =>
      refine ⟨4, ?_⟩
      rw [alone, hminted, alone, advance_orWarn rfl hrecord, alone, advance_orWarn rfl hlog,
        alone, advance_deliver, alone]
      simp only [hlog]

end Dispatch

/-- Nothing that carries an op is handed out, and no id is minted. -/
structure App.Aside (a b : App) : Prop where
  counter : b.store.counter = a.store.counter
  posts : ∃ frames, a.Posts frames b ∧ ∀ x ∈ frames, x.2.id = none

instance : Std.Refl App.Aside := ⟨fun _ => ⟨rfl, [], .of_eq rfl rfl rfl, by simp⟩⟩

instance : Trans App.Aside App.Aside App.Aside where
  trans hab hbc := by
    obtain ⟨hcounter, l, hposts, hl⟩ := hab
    obtain ⟨hcounter', l', hposts', hl'⟩ := hbc
    refine ⟨hcounter'.trans hcounter, l ++ l', hposts.trans hposts', fun x hx => ?_⟩
    exact (List.mem_append.mp hx).elim (hl x) (hl' x)

theorem App.Aside.of_eq {a b : App} (hcounter : b.store.counter = a.store.counter)
    (hhanded : b.handed = a.handed) (houtbound : b.outbound = a.outbound)
    (hmailing : b.mailing = a.mailing) : a.Aside b :=
  ⟨hcounter, [], .of_eq hhanded houtbound hmailing, by simp⟩

section

variable {env : Env C} {io : Io}

end

/-- What a call of `accept` does to the store: nothing, or it adds the op it was called with. -/
structure Takes (sender : Key) (frame : Frame) (a b : App) : Prop where
  aside : a.Aside b
  ops : b.store.ops = a.store.ops ∨ ∃ id, frame.id = some id ∧ id.sender = sender ∧
    id ∉ a.store.ops.keys ∧
    b.store.ops.rows = a.store.ops.rows ++ [(id, frame.conversation sender, frame.unwrapRoom)] ∧
    ∀ room op, frame = .inRoom room op → b.isMember room sender = true

/-- The store has come to hold one op more. -/
structure Gained (a b : App) (id : MessageId) (row : Key × Frame) : Prop where
  new : id ∉ a.store.ops.keys
  get : ∀ id', b.store.ops.get id' = if id' = id then some row else a.store.ops.get id'

/-- The ops that were there are there. -/
def App.Grows (a b : App) : Prop :=
  ∀ id row, a.store.ops.get id = some row → b.store.ops.get id = some row

theorem App.Grows.of_eq {a b : App} (h : b.store.ops = a.store.ops) : a.Grows b :=
  fun _ _ hrow => h ▸ hrow

theorem gained_of_rows {a b : App} {id : MessageId} {row : Key × Frame}
    (hnew : id ∉ a.store.ops.keys) (hrows : b.store.ops.rows = a.store.ops.rows ++ [(id, row)]) :
    Gained a b id row := by
  refine ⟨hnew, fun id' => ?_⟩
  ext row'
  rw [Table.get_eq_some, hrows, Table.mem_rows_append, ← Table.get_eq_some]
  by_cases hid : id' = id
  · subst hid
    simp [Table.get_eq_none.mpr hnew, eq_comm]
  · simp [hid]

theorem Gained.self {a b : App} {id : MessageId} {row : Key × Frame} (h : Gained a b id row) :
    b.store.ops.get id = some row := by
  rw [h.get, if_pos rfl]

theorem Gained.grows {a b : App} {id : MessageId} {row : Key × Frame} (h : Gained a b id row) :
    a.Grows b := by
  intro id' row' hrow
  have hne : id' ≠ id := by
    rintro rfl
    exact h.new (Table.mem_keys.mpr ⟨row', hrow⟩)
  rwa [h.get, if_neg hne]

theorem Gained.cases {a b : App} {id id' : MessageId} {row row' : Key × Frame}
    (h : Gained a b id row) (hrow : b.store.ops.get id' = some row') :
    a.store.ops.get id' = some row' ∨ id' = id ∧ row' = row := by
  rw [h.get] at hrow
  split at hrow
  · rename_i hid
    exact .inr ⟨hid, (Option.some.inj hrow).symm⟩
  · exact .inl hrow

theorem Takes.gained {sender : Key} {frame : Frame} {a b : App} (h : Takes sender frame a b) :
    b.store.ops = a.store.ops ∨ ∃ id, frame.id = some id ∧ id.sender = sender ∧
      Gained a b id (frame.conversation sender, frame.unwrapRoom) ∧
      ∀ room op, frame = .inRoom room op → b.isMember room sender = true :=
  h.ops.imp_right fun ⟨id, hid, hsender, hnew, hrows, hmember⟩ =>
    ⟨id, hid, hsender, gained_of_rows hnew hrows, hmember⟩

theorem Takes.grows {sender : Key} {frame : Frame} {a b : App} (h : Takes sender frame a b) :
    a.Grows b := by
  obtain hops | ⟨_, _, _, hgained, _⟩ := h.gained
  · exact .of_eq hops
  · exact hgained.grows

/-- What is minted above all that there is of one's own is new. -/
theorem IssuedOp.gained {env : Env C} {io : Io} {now : UInt64} {peer : Key}
    {frame : MessageId → Frame} {a b : App} (h : IssuedOp env io now peer frame a b)
    (hminted : ∀ id ∈ a.store.ops.keys, id.sender = a.store.counter.sender →
      id.seq.toNat ≤ a.store.counter.seq.toNat)
    (hcounter : a.store.counter.seq.toNat + 1 < UInt64.size) :
    let id := (a.store.counter.mint now).1
    (b.store.ops = a.store.ops ∧ a.Posts [] b) ∨ Gained a b id (peer, frame id) ∧
      (a.Posts (addressees env a.rooms peer (frame id)) b ∨ io.history ≠ none ∧ a.Posts [] b) := by
  refine h.ends.imp_right fun ⟨hops, hposts⟩ => ⟨?_, hposts⟩
  have hnew : (a.store.counter.mint now).1 ∉ a.store.ops.keys := by
    intro hmem
    have hle := hminted _ hmem rfl
    change (a.store.counter.seq + 1).toNat ≤ _ at hle
    rw [UInt64.toNat_add, UInt64.toNat_one, Nat.mod_eq_of_lt hcounter] at hle
    omega
  refine gained_of_rows hnew ?_
  rw [hops, Table.rows_insertOrIgnore hnew]

end Wicara.Client
