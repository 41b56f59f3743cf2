import Wicara.Client.RoomRuns

namespace Wicara.Client

open Wicara.Core Lib Lib.Fallible Lib.Run

variable {C : Crypto}

/-- A log handed over, live or out of the mailbox. -/
def deliver (env : Env C) (io : Io) (reply : Reply) (id : RoomId) (app : App)
    (log : List RoomEntry) : App :=
  after (absorbRoom env io id log reply) app

/-- What is delivered from the first log on that has this endpoint in its members. -/
def heard (env : Env C) (delivered : List (List RoomEntry)) : List (List RoomEntry) :=
  delivered.dropWhile fun log => env.me ∉ membersOf C log

def Longest (log : List RoomEntry) (logs : List (List RoomEntry)) : Prop :=
  log ∈ logs ∧ ∀ other ∈ logs, other.length ≤ log.length

theorem membersOf_log (v : VerifiedLog C) : membersOf C v.log = v.room.members := by
  rw [membersOf, v.replays.verifyLog_eq]

section

variable {env : Env C} {io : Io} {app : App} {b : Book C} {chain : VerifiedLog C}

theorem mirrors_deliver (env : Env C) (io : Io) (reply : Reply) (h : Mirrors app b) (id : RoomId)
    (log : List RoomEntry) :
    Mirrors (deliver env io reply id app log) (b.take (absorbed env io b id log reply)) :=
  mirrors_after (mirrors_absorbRoom h id log reply)

theorem verified_of_prefix {log : List RoomEntry} (hne : log ≠ []) (hp : log <+: chain.log) :
    ∃ w : VerifiedLog C, w.log = log ∧ w.room.id = chain.room.id := by
  obtain ⟨room, hr⟩ := chain.replays.of_prefix hp hne
  let w : VerifiedLog C := ⟨log, room, hr⟩
  exact ⟨w, rfl, VerifiedLog.id_eq_of_prefix (v := w) hp⟩

/-- Once the room is known, the longest of what is held and what is delivered stays. -/
theorem known_delivered (reply : Reply) (hio : io.Saves) {v : VerifiedLog C}
    {delivered : List (List RoomEntry)} (h : Mirrors app b) (hv : b.held chain.room.id = some v)
    (hpre : ∀ log ∈ delivered, log ≠ [] ∧ log <+: chain.log) :
    ∃ (b' : Book C) (w : VerifiedLog C),
      Mirrors (run (deliver env io reply chain.room.id) app delivered) b' ∧
      b'.held chain.room.id = some w ∧ Longest w.log (v.log :: delivered) := by
  induction delivered generalizing app b v with
  | nil => exact ⟨b, v, h, hv, by simp [Longest]⟩
  | cons log delivered ih =>
    obtain ⟨hne, hp⟩ := hpre log List.mem_cons_self
    obtain ⟨u, rfl, hid⟩ := verified_of_prefix hne hp
    have hstep := mirrors_deliver env io reply h chain.room.id u.log
    rw [← hid] at hv hstep ⊢
    rw [take_absorbed hv, if_pos hio, Book.offer, Book.length_of_held hv, u.length_eq] at hstep
    have hrest := fun other hm => hpre other (List.mem_cons_of_mem _ hm)
    by_cases hlt : v.log.length < u.log.length
    · rw [if_pos hlt] at hstep
      obtain ⟨b', w, h', hw, hmem, hmax⟩ := ih hstep (hid ▸ Book.held_put_self b u) hrest
      rw [← hid] at h' hw
      refine ⟨b', w, h', hw, List.mem_cons_of_mem _ hmem, ?_⟩
      intro other ho
      rcases List.mem_cons.mp ho with rfl | ho
      · exact hlt.le.trans (hmax _ List.mem_cons_self)
      · exact hmax _ ho
    · rw [if_neg hlt] at hstep
      obtain ⟨b', w, h', hw, hmem, hmax⟩ := ih hstep (hid ▸ hv) hrest
      rw [← hid] at h' hw
      refine ⟨b', w, h', hw, ?_, ?_⟩
      · rcases List.mem_cons.mp hmem with heq | hm
        · exact heq ▸ List.mem_cons_self
        · exact List.mem_cons_of_mem _ (List.mem_cons_of_mem _ hm)
      · intro other ho
        rcases List.mem_cons.mp ho with rfl | ho
        · exact hmax _ List.mem_cons_self
        · rcases List.mem_cons.mp ho with rfl | ho
          · exact (Nat.not_lt.mp hlt).trans (hmax _ List.mem_cons_self)
          · exact hmax _ (List.mem_cons_of_mem _ ho)

/-- As long as the room is unknown, a log without this endpoint is refused. -/
theorem unknown_delivered (env : Env C) (reply : Reply) (chain : VerifiedLog C) (hio : io.Saves)
    {delivered : List (List RoomEntry)} (h : Mirrors app b) (hv : b.held chain.room.id = none)
    (hpre : ∀ log ∈ delivered, log ≠ [] ∧ log <+: chain.log) :
    ∃ b' : Book C, Mirrors (run (deliver env io reply chain.room.id) app delivered) b' ∧
      ((heard env delivered = [] ∧ b'.held chain.room.id = none) ∨
        ∃ w, b'.held chain.room.id = some w ∧ Longest w.log (heard env delivered)) := by
  induction delivered generalizing app b with
  | nil => exact ⟨b, h, .inl ⟨rfl, hv⟩⟩
  | cons log delivered ih =>
    obtain ⟨hne, hp⟩ := hpre log List.mem_cons_self
    obtain ⟨u, rfl, hid⟩ := verified_of_prefix hne hp
    have hstep := mirrors_deliver env io reply h chain.room.id u.log
    have hrest := fun other hm => hpre other (List.mem_cons_of_mem _ hm)
    have hjudge : judge C chain.room.id u.log = .ok u.room := judge_eq_ok.mpr ⟨u.replays, hid⟩
    rw [absorbed, if_neg hne] at hstep
    simp only [hjudge, hv, Option.isSome_none, Bool.false_eq_true, false_or, hio, and_true,
      Book.length_of_none hv, u.ofLog_log, u.length_eq, u.length_pos] at hstep
    by_cases hme : env.me ∈ u.room.members
    · rw [if_pos hme, Book.take_some] at hstep
      obtain ⟨b', w, h', hw, hlongest⟩ :=
        known_delivered reply hio hstep (hid ▸ Book.held_put_self b u) hrest
      refine ⟨b', h', .inr ⟨w, hw, ?_⟩⟩
      rw [heard, List.dropWhile_cons_of_neg (by simp [membersOf_log, hme])]
      exact hlongest
    · rw [if_neg hme, Book.take_none] at hstep
      rw [heard, List.dropWhile_cons_of_pos (by simp [membersOf_log, hme])]
      exact ih hstep hv hrest

theorem eq_of_longest (chain : VerifiedLog C) {log other : List RoomEntry}
    {logs : List (List RoomEntry)} (hlog : Longest log logs) (hother : Longest other logs)
    (hpre : ∀ l ∈ logs, l <+: chain.log) : log = other := by
  have hlen : log.length = other.length :=
    Nat.le_antisymm (hother.2 _ hlog.1) (hlog.2 _ hother.1)
  rw [List.prefix_iff_eq_take.mp (hpre _ hlog.1), List.prefix_iff_eq_take.mp (hpre _ hother.1),
    hlen]

theorem heard_sublist (env : Env C) (delivered : List (List RoomEntry)) :
    (heard env delivered).Sublist delivered := List.dropWhile_sublist _

theorem mem_heard {delivered : List (List RoomEntry)} {log : List RoomEntry}
    (h : log ∈ delivered) (hme : env.me ∈ membersOf C log) : log ∈ heard env delivered := by
  induction delivered with
  | nil => cases h
  | cons first delivered ih =>
    by_cases hfirst : env.me ∈ membersOf C first
    · rw [heard, List.dropWhile_cons_of_neg (by simp [hfirst])]
      exact h
    · rw [heard, List.dropWhile_cons_of_pos (by simp [hfirst])]
      refine ih ((List.mem_cons.mp h).resolve_left ?_)
      rintro rfl
      exact hfirst hme

end

/-- The store holds this log of the room, and the memory what it replays to. -/
def Holds (C : Crypto) (app : App) (id : RoomId) (log : List RoomEntry) : Prop :=
  app.store.rooms.get id = some log ∧
    ∃ room, verifyLog C log = .ok room ∧ app.rooms.get id = some room

open Core.Sample Sample in
/-- Client 3 is invited and kicked.  If the kick is delivered first it is refused, the invite
that comes after it stands, and so the two orders end in different memberships. -/
theorem kick_delivered_before_invite :
    let start := App.start (Store.fresh (key 3))
    let inOrder := run (deliver (client 3 false) .ok none kitchenRoom.id) start [kitchen, kicked]
    let swapped := run (deliver (client 3 false) .ok none kitchenRoom.id) start [kicked, kitchen]
    (kitchen <+: kicked ∧ key 3 ∈ membersOf crypto kitchen) ∧
    (inOrder.store.rooms.get kitchenRoom.id = some kicked ∧
      inOrder.isMember kitchenRoom.id (key 3) = false) ∧
    swapped.store.rooms.get kitchenRoom.id = some kitchen ∧
      swapped.isMember kitchenRoom.id (key 3) = true := by
  decide +kernel

/-- However the beginnings of one chain are delivered to a client that does not know the
room, it ends with the longest of those that came from the first one on that has it as a
member; and so with the longest of all if that one has it as a member. -/
theorem longest_heard_is_held (env : Env C) {io : Io} (hio : io.Saves) (reply : Reply) {app : App}
    {b : Book C} (h : Mirrors app b) {chain : List RoomEntry} {R : Room}
    (hchain : verifyLog C chain = .ok R) (hunknown : app.rooms.get R.id = none)
    {delivered : List (List RoomEntry)} (hpre : ∀ log ∈ delivered, log ≠ [] ∧ log <+: chain) :
    let final := run (deliver env io reply R.id) app delivered
    (heard env delivered = [] → final.rooms.get R.id = none) ∧
    (∀ log, Longest log (heard env delivered) → Holds C final R.id log) ∧
    ∀ log, Longest log delivered → env.me ∈ membersOf C log → Holds C final R.id log := by
  let v : VerifiedLog C := ⟨chain, R, replays_of_verifyLog hchain⟩
  have hnone : b.held v.room.id = none := by
    rw [h.shown] at hunknown
    exact Option.map_eq_none_iff.mp hunknown
  obtain ⟨b', h', hcase⟩ := unknown_delivered env reply v hio h hnone hpre
  have hheard : ∀ log, Longest log (heard env delivered) →
      Holds C (run (deliver env io reply R.id) app delivered) R.id log := by
    intro log hlog
    rcases hcase with ⟨hnil, -⟩ | ⟨w, hw, hlongest⟩
    · rw [hnil] at hlog
      cases hlog.1
    · obtain rfl : log = w.log := eq_of_longest v hlog hlongest fun l hl =>
        (hpre l ((heard_sublist env delivered).subset hl)).2
      refine ⟨?_, w.room, w.replays.verifyLog_eq, ?_⟩
      · rw [h'.stored, hw]
        rfl
      · rw [h'.shown, hw]
        rfl
  refine ⟨fun hnil => ?_, hheard, fun log hlog hme => ?_⟩
  · rcases hcase with ⟨-, hb'⟩ | ⟨w, -, hlongest⟩
    · rw [h'.shown, hb']
      rfl
    · rw [hnil] at hlongest
      cases hlongest.1
  · exact hheard log ⟨mem_heard hlog.1 hme, fun other ho =>
      hlog.2 other ((heard_sublist env delivered).subset ho)⟩

theorem mirrors_start (C : Crypto) (me : Key) :
    Mirrors (App.start (Store.fresh me)) (Book.empty : Book C) :=
  ⟨fun _ => rfl, fun _ => rfl⟩

open Core.Sample Sample in
/-- Of the kick and the invite, in this order, only the invite is heard. -/
theorem longest_heard_is_held_kitchen :
    Holds crypto (run (deliver (client 3 false) .ok none kitchenRoom.id)
      (App.start (Store.fresh (key 3))) [kicked, kitchen]) kitchenRoom.id kitchen := by
  have hkicked : verifyLog crypto kicked =
      .ok (kitchenRoom.after crypto (signed 1 kitchenRoom.head 4 (.kick (key 3)))) := by
    decide +kernel
  have hpre : ∀ log ∈ [kicked, kitchen], log ≠ [] ∧ log <+: kicked := by decide +kernel
  exact (longest_heard_is_held (client 3 false) ⟨rfl, rfl⟩ none (mirrors_start crypto (key 3))
    hkicked rfl hpre).2.1 kitchen ⟨by decide +kernel, by decide +kernel⟩

end Wicara.Client
