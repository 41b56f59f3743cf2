import Wicara.Client.RoomRuns

namespace Wicara.Core.Frame

/-- How often an op is addressed to a room. -/
def depth : Frame → Nat
  | .inRoom _ op => op.depth + 1
  | _ => 0

/-- The ops that `history` has something to do for. -/
def Plain : Frame → Prop
  | .chat _ _ _ | .edit _ _ _ | .delete _ _ | .react _ _ _ _ | .file _ _ _ _ => True
  | .hello _ | .inRoom _ _ | .roomUpdated _ _ => False

instance : DecidablePred Plain
  | .chat _ _ _ | .edit _ _ _ | .delete _ _ | .react _ _ _ _ | .file _ _ _ _ => .isTrue trivial
  | .hello _ | .inRoom _ _ | .roomUpdated _ _ => .isFalse fun h => h

/-- What has an id and is not for a room is such an op. -/
theorem plain_iff {frame : Frame} {id : MessageId} (hid : frame.id = some id) :
    frame.Plain ↔ frame.depth = 0 := by
  cases frame with
  | hello nickname => cases hid
  | roomUpdated room log => cases hid
  | inRoom room op => exact iff_of_false (fun h => h) (Nat.succ_ne_zero _)
  | _ => exact iff_of_true trivial rfl

/-- `unwrap_room` takes one wrapper off. -/
theorem depth_unwrapRoom (frame : Frame) : frame.unwrapRoom.depth = frame.depth - 1 := by
  cases frame <;> rfl

theorem plain_unwrapRoom_iff {frame : Frame} {id : MessageId} (hid : frame.id = some id) :
    frame.unwrapRoom.Plain ↔ frame.depth ≤ 1 := by
  rw [plain_iff (frame.id_unwrapRoom.trans hid), depth_unwrapRoom]
  omega

end Wicara.Core.Frame

namespace Wicara.Client

open Wicara.Core Lib Lib.Fallible

/-- The one shape of op: one that `history` has something to do for, under its own id. -/
structure OpRow.OneShape (row : OpRow) : Prop where
  plain : row.2.2.Plain
  own : row.2.2.id = some row.1

/-- `history` goes past all others. -/
theorem Fold.op_of_not_plain {row : OpRow} (h : ¬row.2.2.Plain) (me : Key)
    (settings : Table String String) (fold : Fold) : fold.op me settings row = fold := by
  obtain ⟨id, peer, frame⟩ := row
  cases frame with
  | hello | inRoom | roomUpdated => rfl
  | _ => exact absurd trivial h

section

variable {C : Crypto} {env : Env C} {sender : Key}

/-- A client in its first run that has just entered a room where the sender is as well. -/
def among (env : Env C) (room : RoomId) (sender : Key) : App :=
  { App.start (Store.fresh env.me) with
    rooms := Table.empty.upsert room ⟨room, "", sender, {sender, env.me}, genesis, 1⟩ }

/-- Whatever it is wrapped in, an op for the room is taken there. -/
theorem rows_accept_among {room : RoomId} {op : Frame} {id : MessageId} (hid : op.id = some id)
    (hsender : id.sender = sender) (reply : Reply) :
    (after (accept env .ok reply sender (.inRoom room op)) (among env room sender)).store.ops.rows =
      [(id, room, op)] := by
  have hmember (who : Key) (hwho : who ∈ ({sender, env.me} : Finset Key)) :
      (among env room sender).isMember room who = true := by
    simp only [App.isMember, among, Table.get_upsert, if_true]
    exact decide_eq_true hwho
  have henter : (enterRoom env .ok reply sender room).run (among env room sender) =
      .ok .unit (among env room sender) := by
    simp only [enterRoom, EStateM.run_bind, EStateM.run_get, hmember sender (by simp), if_true,
      hmember env.me (by simp), ensure]
    rfl
  simp only [after, accept, Frame.id, hid, hsender, ensure, if_true, lift, EStateM.run_bind,
    EStateM.run_pure, henter, Frame.unwrapRoom, Store.record]
  rfl

end

/-- What `accept` reports as new is one row more, under the id of what it holds; this is an op of
the one shape exactly if it came with one wrapper at most, and `history` goes past it otherwise.
So a call adds no row of another shape, whatever state it finds, exactly if an op that its sender
may have sent has one wrapper at most. -/
theorem accept_keeps_one_shape_iff {C : Crypto} (env : Env C) (sender : Key) (frame : Frame) :
    (∀ io reply app conversation app',
      (accept env io reply sender frame).run app = .ok (some conversation) app' →
      ∃ row : OpRow, app'.store.ops.rows = app.store.ops.rows ++ [row] ∧ row.2.1 = conversation ∧
        row.2.2.id = some row.1 ∧ (row.OneShape ↔ frame.depth ≤ 1) ∧
        (1 < frame.depth → ∀ me settings fold, Fold.op me settings fold row = fold)) ∧
    ((∀ io reply app, ∀ row : OpRow,
      row ∈ (after (accept env io reply sender frame) app).store.ops.rows →
        row ∉ app.store.ops.rows → row.OneShape) ↔
      ∀ id, frame.id = some id → id.sender = sender → frame.depth ≤ 1) := by
  have hshape {id : MessageId} (hid : frame.id = some id) :
      OpRow.OneShape (id, frame.conversation sender, frame.unwrapRoom) ↔ frame.depth ≤ 1 := by
    rw [← Frame.plain_unwrapRoom_iff hid]
    exact ⟨fun h => h.plain, fun h => ⟨h, frame.id_unwrapRoom.trans hid⟩⟩
  refine ⟨fun io reply app conversation app' hrun => ?_, fun h id hid hsender => ?_,
    fun h io reply app row hrow hnew => ?_⟩
  · have hwrites := (wp_iff.mp (wp_accept_writes env io reply sender frame app)).1 _ _ hrun
    cases hwrites with
    | @row id hid hsender hnew hrows =>
      refine ⟨_, hrows, rfl, frame.id_unwrapRoom.trans hid, hshape hid, fun hdepth => ?_⟩
      exact Fold.op_of_not_plain fun h =>
        absurd ((Frame.plain_unwrapRoom_iff hid).mp h) (by omega)
  · cases frame with
    | inRoom room op =>
      have hop : op.id = some id := hid
      refine (hshape hid).mp (h .ok none (among env room sender) _ ?_ List.not_mem_nil)
      rw [rows_accept_among hop hsender]
      exact List.mem_singleton.mpr rfl
    | _ => exact Nat.zero_le 1
  · rcases wp_cases (wp_accept_writes env io reply sender frame app) with
      ⟨conversation, app', hrun, hwrites⟩ | ⟨err, app', hrun, hops⟩
    · rw [after, hrun] at hrow
      cases hwrites with
      | @row id hid hsender _ hrows =>
        rw [hrows, List.mem_append, List.mem_singleton] at hrow
        obtain hold | rfl := hrow
        · exact absurd hold hnew
        · exact (hshape hid).mpr (h id hid hsender)
      | nothing hops _ =>
        rw [hops] at hrow
        exact absurd hrow hnew
    · rw [after, hrun] at hrow
      rw [hops] at hrow
      exact absurd hrow hnew

namespace Sample

open Core.Sample

/-- 3 has something to say in the kitchen … -/
def remark : Frame := .inRoom kitchenRoom.id (.chat ⟨key 3, 1, 5⟩ "dinner is ready" none)

/-- … and addresses it twice. -/
def wrappedTwice : Frame := .inRoom kitchenRoom.id remark

/-- 2, who is in the kitchen as well. -/
def inKitchen : App := cameUp 2 false kitchenRoom.id kitchen

def received (frame : Frame) : App :=
  after (accept (client 2 false) .ok none (key 3) frame) inKitchen

/-- What `accept` reports as new. -/
def conversationOf (frame : Frame) : Option Key :=
  match (accept (client 2 false) .ok none (key 3) frame).run inKitchen with
  | .ok conversation _ => conversation
  | .error _ _ => none

theorem run_accept_of_conversation {frame : Frame} {room : Key}
    (h : conversationOf frame = some room) :
    (accept (client 2 false) .ok none (key 3) frame).run inKitchen =
      .ok (some room) (received frame) := by
  unfold conversationOf at h
  unfold received after
  split at h
  · rename_i hrun
    rw [hrun, h]
  · cases h

end Sample

open Core.Sample Sample in
theorem accept_keeps_one_shape_iff_remark :
    ∃ row : OpRow, (received remark).store.ops.rows = inKitchen.store.ops.rows ++ [row] ∧
      row.2.1 = kitchenRoom.id ∧ row.OneShape := by
  obtain ⟨hreports, -⟩ := accept_keeps_one_shape_iff (client 2 false) (key 3) remark
  have hconversation : conversationOf remark = some kitchenRoom.id := by decide +kernel
  obtain ⟨row, hrows, hroom, -, hshape, -⟩ :=
    hreports _ _ _ _ _ (run_accept_of_conversation hconversation)
  exact ⟨row, hrows, hroom, hshape.mpr (by decide)⟩

open Core.Sample Sample in
/-- What is addressed twice is reported as new, stays wrapped in the store and is never shown. -/
theorem op_wrapped_twice_is_never_shown :
    conversationOf wrappedTwice = some kitchenRoom.id ∧
    (received wrappedTwice).store.ops.rows = [(⟨key 3, 1, 5⟩, kitchenRoom.id, remark)] ∧
    (received wrappedTwice).store.history none .asStored kitchenRoom.id none = .ok [] ∧
    ¬∀ (env : Env crypto) sender frame io reply app, ∀ row : OpRow,
      row ∈ (after (accept env io reply sender frame) app).store.ops.rows →
        row ∉ app.store.ops.rows → row.OneShape := by
  have hrows : (received wrappedTwice).store.ops.rows =
      [(⟨key 3, 1, 5⟩, kitchenRoom.id, remark)] := by
    decide +kernel
  refine ⟨by decide +kernel, hrows, by decide +kernel, fun h => ?_⟩
  have hnone : inKitchen.store.ops.rows = [] := by decide +kernel
  have hshape := h (client 2 false) (key 3) wrappedTwice .ok none inKitchen
    (⟨key 3, 1, 5⟩, kitchenRoom.id, remark)
  rw [← received, hrows, hnone] at hshape
  exact (hshape (.head _) List.not_mem_nil).plain

end Wicara.Client
