import Mathlib.Data.Finset.Insert
import Mathlib.Tactic.Common
import Wicara.Core.Room

namespace Wicara.Core

theorem bind_eq_ok {x : Except ε α} {f : α → Except ε β} {b : β} :
    (x >>= f) = .ok b ↔ ∃ a, x = .ok a ∧ f a = .ok b := by
  cases x with
  | error e => simp [bind, Except.bind]
  | ok a => simp [bind, Except.bind]

@[simp] theorem ok_bind {a : α} {f : α → Except ε β} : (Except.ok a >>= f) = f a := rfl

@[simp] theorem error_bind {e : ε} {f : α → Except ε β} :
    (Except.error e >>= f) = .error e := rfl

@[simp] theorem ensure_eq_ok {p : Prop} [Decidable p] {err : ε} {u : Unit} :
    ensure p err = .ok u ↔ p := by
  by_cases h : p <;> simp [ensure, h]

@[simp] theorem ensure_bind_eq_ok {p : Prop} [Decidable p] {err : ε}
    {f : Unit → Except ε β} {b : β} : (ensure p err >>= f) = .ok b ↔ p ∧ f () = .ok b := by
  by_cases h : p <;> simp [ensure, h]

variable {C : Crypto}

/-- The entry carries a signature that verifies under the key it names as its author. -/
structure RoomEntry.Signed (C : Crypto) (e : RoomEntry) : Prop where
  length : e.signature.length = 64
  author : C.fromBytes e.author = true
  verifies : C.verifyStrict e.author e.transcript e.signature = true

theorem verifySignature_eq_ok {e : RoomEntry} {u : Unit} :
    e.verifySignature C = .ok u ↔ e.Signed C := by
  simp only [RoomEntry.verifySignature, ensure_bind_eq_ok, ensure_eq_ok]
  exact ⟨fun h => ⟨h.1, h.2.1, h.2.2⟩, fun h => ⟨h.length, h.author, h.verifies⟩⟩

@[simp] theorem verifySignature_bind_eq_ok {e : RoomEntry} {f : Unit → Except LogError β}
    {b : β} : (e.verifySignature C >>= f) = .ok b ↔ e.Signed C ∧ f () = .ok b := by
  rw [bind_eq_ok]
  simp only [verifySignature_eq_ok, exists_and_left]
  exact and_congr_right fun _ => ⟨fun ⟨_, h⟩ => h, fun h => ⟨(), h⟩⟩

/-- What `verify_log` asks of the op of an entry that comes after the create. -/
def RoomOp.Allowed (room : Room) (author : Key) : RoomOp → Prop
  | .create _ => False
  | .invite _ => author = room.founder
  | .kick member => author = room.founder ∧ member ≠ room.founder
  | .leave => author ∈ room.members ∧ author ≠ room.founder

/-- The members once the op has been carried out. -/
def RoomOp.apply (author : Key) (members : Finset Key) : RoomOp → Finset Key
  | .create _ => members
  | .invite member => insert member members
  | .kick member => members.erase member
  | .leave => members.erase author

structure Room.Admits (C : Crypto) (room : Room) (e : RoomEntry) : Prop where
  follows : e.prev = room.head
  signed : e.Signed C
  allowed : e.op.Allowed room e.author

def Room.after (C : Crypto) (room : Room) (e : RoomEntry) : Room :=
  { room with
    members := e.op.apply e.author room.members
    head := e.hash C
    length := room.length + 1 }

@[simp] theorem Room.after_founder (room : Room) (e : RoomEntry) :
    (room.after C e).founder = room.founder := rfl

@[simp] theorem Room.after_members (room : Room) (e : RoomEntry) :
    (room.after C e).members = e.op.apply e.author room.members := rfl

@[simp] theorem Room.after_length (room : Room) (e : RoomEntry) :
    (room.after C e).length = room.length + 1 := rfl

theorem Room.isAdmin_iff {room : Room} {who : Key} :
    room.isAdmin who = true ↔ who = room.founder := by
  simp [Room.isAdmin, eq_comm]

/-- One round of the loop accepts exactly the entries the room admits. -/
theorem admitted_eq_ok {n : Nat} {room room' : Room} {e : RoomEntry} :
    room.admitted C n e = .ok room' ↔ room.Admits C e ∧ room' = room.after C e := by
  have hadmits : room.Admits C e ↔
      e.prev = room.head ∧ e.Signed C ∧ e.op.Allowed room e.author :=
    ⟨fun h => ⟨h.follows, h.signed, h.allowed⟩, fun h => ⟨h.1, h.2.1, h.2.2⟩⟩
  rw [hadmits]
  simp only [Room.admitted, ensure_bind_eq_ok, verifySignature_bind_eq_ok, and_assoc]
  refine and_congr_right fun _ => and_congr_right fun _ => ?_
  cases hop : e.op with
  | create name => simp [RoomOp.Allowed]
  | invite member =>
    simp [Room.isAdmin_iff, RoomOp.Allowed, Room.after, hop, RoomOp.apply, pure, Except.pure,
      @eq_comm _ _ room']
  | kick member =>
    simp [Room.isAdmin_iff, RoomOp.Allowed, Room.after, hop, RoomOp.apply, pure, Except.pure,
      @eq_comm _ _ room', and_assoc]
  | leave =>
    simp [RoomOp.Allowed, Room.after, hop, RoomOp.apply, pure, Except.pure,
      @eq_comm _ _ room', and_assoc]

theorem replay_append (n : Nat) (room : Room) (l m : List RoomEntry) :
    replay C n room (l ++ m) = replay C n room l >>= fun r => replay C (n + l.length) r m := by
  induction l generalizing n room with
  | nil => rfl
  | cons e l ih =>
    simp only [List.cons_append, replay, List.length_cons]
    cases room.admitted C n e with
    | error err => rfl
    | ok r =>
      simp only [bind, Except.bind] at ih ⊢
      rw [ih, show n + 1 + l.length = n + (l.length + 1) by omega]

/-- The derivations of `verify_log`: a signed create opens a room, and every further entry
is one the room so far admits. -/
inductive Replays (C : Crypto) : List RoomEntry → Room → Prop
  | create {e name} : e.prev = genesis → e.Signed C → e.op = .create name →
      Replays C [e] (Room.opened C e name)
  | snoc {l room e} : Replays C l room → room.Admits C e →
      Replays C (l ++ [e]) (room.after C e)

theorem verifyLog_singleton {e : RoomEntry} {room : Room} :
    verifyLog C [e] = .ok room ↔
      e.prev = genesis ∧ e.Signed C ∧ ∃ name, e.op = .create name ∧
        room = Room.opened C e name := by
  simp only [verifyLog, ensure_bind_eq_ok, verifySignature_bind_eq_ok]
  cases e.op <;> simp [replay, @eq_comm _ _ room]

theorem verifyLog_snoc {l : List RoomEntry} (hl : l ≠ []) {e : RoomEntry} {room' : Room} :
    verifyLog C (l ++ [e]) = .ok room' ↔
      ∃ room, verifyLog C l = .ok room ∧ room.Admits C e ∧ room' = room.after C e := by
  obtain ⟨create, rest, rfl⟩ := List.exists_cons_of_ne_nil hl
  simp only [List.cons_append, verifyLog, ensure_bind_eq_ok, verifySignature_bind_eq_ok]
  cases create.op with
  | create name =>
    simp only [replay_append, bind_eq_ok, replay, admitted_eq_ok, Except.ok.injEq]
    constructor
    · rintro ⟨hp, hs, room, hr, r', ⟨ha, rfl⟩, rfl⟩
      exact ⟨room, ⟨hp, hs, hr⟩, ha, rfl⟩
    · rintro ⟨room, ⟨hp, hs, hr⟩, ha, rfl⟩
      exact ⟨hp, hs, room, hr, _, ⟨ha, rfl⟩, rfl⟩
  | invite member => simp
  | kick member => simp
  | leave => simp

@[simp] theorem verifyLog_nil {room : Room} : verifyLog C [] ≠ .ok room := by
  simp [verifyLog]

theorem Replays.verifyLog_eq {l : List RoomEntry} {room : Room} (h : Replays C l room) :
    verifyLog C l = .ok room := by
  induction h with
  | create hp hs hop => exact verifyLog_singleton.mpr ⟨hp, hs, _, hop, rfl⟩
  | snoc h ha ih =>
    refine (verifyLog_snoc ?_).mpr ⟨_, ih, ha, rfl⟩
    rintro rfl
    exact verifyLog_nil ih

theorem replays_of_verifyLog {l : List RoomEntry} {room : Room}
    (h : verifyLog C l = .ok room) : Replays C l room := by
  induction l using List.reverseRecOn generalizing room with
  | nil => exact absurd h verifyLog_nil
  | append_singleton l e ih =>
    rcases eq_or_ne l [] with rfl | hl
    · obtain ⟨hp, hs, name, hop, rfl⟩ := verifyLog_singleton.mp h
      exact .create hp hs hop
    · obtain ⟨room, hr, ha, rfl⟩ := (verifyLog_snoc hl).mp h
      exact .snoc (ih hr) ha

theorem verifyLog_eq_ok {l : List RoomEntry} {room : Room} :
    verifyLog C l = .ok room ↔ Replays C l room :=
  ⟨replays_of_verifyLog, Replays.verifyLog_eq⟩

namespace Replays

variable {l : List RoomEntry} {room : Room}

theorem ne_nil (h : Replays C l room) : l ≠ [] := by
  cases h <;> simp

theorem unique {room' : Room} (h : Replays C l room) (h' : Replays C l room') :
    room = room' := by
  have := h.verifyLog_eq.symm.trans h'.verifyLog_eq
  simpa using this

theorem length_eq (h : Replays C l room) : room.length = l.length := by
  induction h with
  | create => rfl
  | snoc h ha ih => simp [ih]

/-- The head of the room is the hash of the last entry. -/
theorem head_eq (h : Replays C l room) :
    ∃ e, l.getLast? = some e ∧ room.head = e.hash C := by
  cases h with
  | create => exact ⟨_, rfl, rfl⟩
  | snoc h ha => exact ⟨_, List.getLast?_concat, rfl⟩

/-- What the first entry fixes once and for all. -/
theorem opening (h : Replays C l room) :
    ∃ create rest, l = create :: rest ∧ create.prev = genesis ∧
      create.op = .create room.name ∧ room.id = create.hash C ∧
      room.founder = create.author := by
  induction h with
  | create hp hs hop => exact ⟨_, [], rfl, hp, hop, rfl, rfl⟩
  | snoc h ha ih =>
    obtain ⟨create, rest, rfl, hp, hop, hid, hf⟩ := ih
    exact ⟨create, rest ++ [_], rfl, hp, hop, hid, hf⟩

theorem signed (h : Replays C l room) : ∀ e ∈ l, e.Signed C := by
  induction h with
  | create hp hs hop => simpa using hs
  | snoc h ha ih =>
    intro e he
    rcases List.mem_append.mp he with he | he
    · exact ih e he
    · exact List.mem_singleton.mp he ▸ ha.signed

theorem founder_mem (h : Replays C l room) : room.founder ∈ room.members := by
  induction h with
  | create => simp [Room.opened]
  | snoc h ha ih =>
    rename_i l room e
    have hal := ha.allowed
    cases hop : e.op <;> simp_all [RoomOp.Allowed, RoomOp.apply, Ne.symm]

/-- A room log is verified entry by entry, so each of its non-empty prefixes stands too. -/
theorem take (h : Replays C l room) {n : Nat} (hn : 0 < n) :
    ∃ room', Replays C (l.take n) room' := by
  induction h with
  | create hp hs hop =>
    rw [List.take_of_length_le (by simp; omega)]
    exact ⟨_, .create hp hs hop⟩
  | snoc h ha ih =>
    rename_i l room e
    rcases Nat.lt_or_ge l.length n with hlt | hge
    · rw [List.take_of_length_le (by simp; omega)]
      exact ⟨_, .snoc h ha⟩
    · rw [List.take_append_of_le_length hge]
      exact ih

theorem of_prefix (h : Replays C l room) {p : List RoomEntry} (hp : p <+: l) (hne : p ≠ []) :
    ∃ room', Replays C p room' := by
  rw [List.prefix_iff_eq_take.mp hp]
  exact h.take (List.length_pos_iff.mpr hne)

end Replays

end Wicara.Core
