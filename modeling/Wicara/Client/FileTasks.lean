import Wicara.Client.Files
import Wicara.Lib.Interleaving

namespace Wicara.Client

open Wicara.Core Lib Lib.Fallible Lib.Run Lib.Interleaving

/-- Where a task that sends a file stands; each of these is followed by one section. -/
inductive SendPc
  | start
  | record (header : Header)
  | place (header : Header)
  | refold (header : Header)
  | transfer (header : Header)
  | done

inductive ReceivePc
  | start
  | refold (header : Header)
  | download (header : Header)
  | place (header : Header) (got : List UInt8)
  | announce (header : Header) (got : List UInt8)
  | done

/-- The calls that touch the store in one section only. -/
inductive FileCall
  | accept (io : Io) (reply : Reply) (sender : Key) (frame : Frame)
  | name (io : Sqlite) (key : NameKey) (value : String)
  | clear (io : RemoveIo) (peer : Key)
  | forget (io : RemoveIo) (peer : Key)
  | wipe (io : RemoveIo)

inductive FileTask
  | send (io : SendIo) (peer : Key) (path : String) (pc : SendPc)
  | receive (io : ReceiveIo) (peer : Key) (pc : ReceivePc)
  | once (call : FileCall) (done : Bool)

variable {C : Crypto} (env : Env C) (alphanumeric : Char → Bool)

/-- What the session or `dispatch` makes of the call. -/
def FileCall.run : FileCall → FileAct PUnit
  | .accept io reply sender frame => inApp (ignore do
    match ← Client.accept env io reply sender frame with
    | some conversation => sendLog io conversation
    | none => pure .unit)
  | .name io key value => rescue (inApp (inStore (Store.setSetting io key.key value)))
    fun err => inApp (key.refused err)
  | .clear io peer => rescue (Client.clear io peer)
    fun err => inApp (warn s!"could not clear that: {err}")
  | .forget io peer => rescue (Client.forget io peer)
    fun err => inApp (warn s!"could not forget that: {err}")
  | .wipe io => rescue (Client.wipe io) fun err => inApp (warn s!"could not wipe: {err}")

/-- The next section of a task; the task stands where it says if the section does not fail. -/
def FileTask.next : FileTask → FileAct FileTask
  | .send io peer path .start => do
    let header ← mintHeader io path
    pure (.send io peer path (.record header))
  | .send io peer path (.record header) => do
    recordHeader io.io peer header
    pure (.send io peer path (.place header))
  | .send io peer path (.place header) => do
    placeFile io.setting .sent header.id path
    pure (.send io peer path (.refold header))
  | .send io peer path (.refold header) => do
    Client.refold io.io peer
    pure (.send io peer path (.transfer header))
  | .send io peer path (.transfer header) => do
    Client.transfer io header
    pure (.send io peer path .done)
  | .receive io peer .start => do
    let header ← readHeader io peer
    pure (.receive io peer (.refold header))
  | .receive io peer (.refold header) => do
    Client.refold io.io peer
    pure (.receive io peer (.download header))
  | .receive io peer (.download header) => do
    let got ← Client.download env alphanumeric io header
    pure (.receive io peer (.place header got))
  | .receive io peer (.place header got) => do
    placeFile io.setting .received header.id (landing env alphanumeric header)
    pure (.receive io peer (.announce header got))
  | .receive io peer (.announce header got) => do
    Client.announce env alphanumeric io peer header got
    pure (.receive io peer .done)
  | .once call false => do
    call.run env
    pure (.once call true)
  | done => pure done

/-- What a task says if it fails. -/
def FileTask.report (t : FileTask) (err : String) : FileAct PUnit :=
  match t with
  | .send _ _ _ _ => inApp (warn s!"could not send that file: {err}")
  | .receive _ _ _ => inApp (status s!"attachment failed: {err}")
  | .once _ _ => pure .unit

def FileTask.finished : FileTask → FileTask
  | .send io peer path _ => .send io peer path .done
  | .receive io peer _ => .receive io peer .done
  | .once call _ => .once call true

def FileTask.advance (t : FileTask) (w : World) : FileTask × World :=
  match (t.next env alphanumeric).run w with
  | .ok t w => (t, w)
  | .error err w => (t.finished, after (t.report err) w)

/-- The part of its function that a task has before it. -/
def FileTask.remaining : FileTask → FileAct PUnit
  | .send io peer path .start => Client.send io peer path
  | .send io peer path (.record header) => do
    recordHeader io.io peer header
    placeFile io.setting .sent header.id path
    Client.refold io.io peer
    Client.transfer io header
  | .send io peer path (.place header) => do
    placeFile io.setting .sent header.id path
    Client.refold io.io peer
    Client.transfer io header
  | .send io peer _ (.refold header) => do
    Client.refold io.io peer
    Client.transfer io header
  | .send io _ _ (.transfer header) => Client.transfer io header
  | .receive io peer .start => Client.receive env alphanumeric io peer
  | .receive io peer (.refold header) => do
    Client.refold io.io peer
    let got ← Client.download env alphanumeric io header
    placeFile io.setting .received header.id (landing env alphanumeric header)
    Client.announce env alphanumeric io peer header got
  | .receive io peer (.download header) => do
    let got ← Client.download env alphanumeric io header
    placeFile io.setting .received header.id (landing env alphanumeric header)
    Client.announce env alphanumeric io peer header got
  | .receive io peer (.place header got) => do
    placeFile io.setting .received header.id (landing env alphanumeric header)
    Client.announce env alphanumeric io peer header got
  | .receive io peer (.announce header got) => Client.announce env alphanumeric io peer header got
  | .once call false => call.run env
  | _ => pure .unit

def FileTask.left : FileTask → Nat
  | .send _ _ _ .start => 5
  | .send _ _ _ (.record _) => 4
  | .send _ _ _ (.place _) => 3
  | .send _ _ _ (.refold _) => 2
  | .send _ _ _ (.transfer _) => 1
  | .receive _ _ .start => 5
  | .receive _ _ (.refold _) => 4
  | .receive _ _ (.download _) => 3
  | .receive _ _ (.place _ _) => 2
  | .receive _ _ (.announce _ _) => 1
  | .once _ false => 1
  | _ => 0

variable {env alphanumeric}

/-- One section taken off the front of what a task has before it. -/
theorem FileTask.remaining_eq (t : FileTask) :
    t.remaining env alphanumeric =
      t.next env alphanumeric >>= FileTask.remaining env alphanumeric := by
  cases t with
  | send io peer path pc => cases pc <;> simp [remaining, next, Client.send]
  | receive io peer pc => cases pc <;> simp [remaining, next, Client.receive]
  | once call done => cases done <;> simp [remaining, next]

/-- A section that does not fail leads to a later one of the same call. -/
theorem FileTask.next_goes_on (t : FileTask) (w : World) :
    wp (t.next env alphanumeric)
      (fun t' _ => t'.report = t.report ∧ t'.left ≤ t.left - 1) (fun _ _ => True) w := by
  have hbind : ∀ {α : Type} (m : FileAct α) {k : α → FileTask},
      (∀ a, (k a).report = t.report ∧ (k a).left ≤ t.left - 1) →
      wp (m >>= fun a => pure (k a))
        (fun t' _ => t'.report = t.report ∧ t'.left ≤ t.left - 1) (fun _ _ => True) w :=
    fun m _ h => wp_bind.mpr (wp_mono (fun a _ _ => h a) (fun _ _ _ => trivial)
      (wp_after (m := m) (P := fun _ => True).mpr trivial))
  cases t with
  | send io peer path pc =>
    cases pc with
    | done => exact ⟨rfl, Nat.le_refl _⟩
    | _ => exact hbind _ fun _ => ⟨rfl, Nat.le_refl _⟩
  | receive io peer pc =>
    cases pc with
    | done => exact ⟨rfl, Nat.le_refl _⟩
    | _ => exact hbind _ fun _ => ⟨rfl, Nat.le_refl _⟩
  | once call isDone =>
    cases isDone with
    | true => exact ⟨rfl, Nat.le_refl _⟩
    | false => exact hbind _ fun _ => ⟨rfl, Nat.le_refl _⟩

/-- A section changes what is left of the function by what it does and by nothing else. -/
theorem FileTask.run_remaining (t : FileTask) (w : World) :
    (rescue (t.remaining env alphanumeric) t.report).run w =
      (rescue ((t.advance env alphanumeric w).1.remaining env alphanumeric)
        (t.advance env alphanumeric w).1.report).run (t.advance env alphanumeric w).2 := by
  have hreport : wp (t.next env alphanumeric) _ _ w := t.next_goes_on w
  rw [remaining_eq, advance]
  simp only [rescue, EStateM.run, wp] at hreport ⊢
  rw [show (t.next env alphanumeric >>= remaining env alphanumeric) w =
    (t.next env alphanumeric >>= remaining env alphanumeric).run w from rfl, EStateM.run_bind]
  simp only [EStateM.run]
  cases hrun : t.next env alphanumeric w with
  | ok t' w' =>
    simp only [hrun] at hreport
    simp only [hreport.1]
  | error err w' => cases t <;> rfl

theorem FileTask.left_advance (t : FileTask) (w : World) :
    (t.advance env alphanumeric w).1.left ≤ t.left - 1 := by
  have hleft : wp (t.next env alphanumeric) _ _ w := t.next_goes_on w
  unfold advance
  rcases wp_cases hleft with ⟨t', w', hrun, hleft⟩ | ⟨err, w', hrun, -⟩
  · rw [hrun]
    exact hleft.2
  · rw [hrun]
    cases t <;> exact Nat.zero_le _

theorem FileTask.remaining_of_left {t : FileTask} (h : t.left = 0) :
    t.remaining env alphanumeric = pure .unit := by
  cases t with
  | send io peer path pc =>
    cases pc with
    | done => rfl
    | _ => cases h
  | receive io peer pc =>
    cases pc with
    | done => rfl
    | _ => cases h
  | once call isDone =>
    cases isDone with
    | true => rfl
    | false => cases h

/-- Run on its own, a task is through after five sections, and has done what its function
does in one go. -/
theorem FileTask.alone_eq (t : FileTask) (w : World) :
    (rescue (t.remaining env alphanumeric) t.report).run w =
      .ok .unit (alone (advance env alphanumeric) 5 t w).2 := by
  have hleft : (alone (advance env alphanumeric) 5 t w).1.left = 0 := by
    refine alone_finishes left left_advance ?_ w
    cases t with
    | send io peer path pc => cases pc <;> simp [left]
    | receive io peer pc => cases pc <;> simp [left]
    | once call isDone => cases isDone <;> simp [left]
  rw [alone_meaning (fun t w => (rescue (remaining env alphanumeric t) t.report).run w)
    run_remaining 5 t w, remaining_of_left hleft]
  rfl

end Wicara.Client
