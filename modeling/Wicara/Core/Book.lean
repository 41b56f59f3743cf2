import Mathlib.Data.List.Infix
import Mathlib.Logic.Function.Basic
import Wicara.Core.RoomCommitment

namespace Wicara.Core

/-- A log together with the room it replays to. -/
structure VerifiedLog (C : Crypto) where
  log : List RoomEntry
  room : Room
  replays : Replays C log room

variable {C : Crypto}

namespace VerifiedLog

theorem length_eq (v : VerifiedLog C) : v.room.length = v.log.length := v.replays.length_eq

theorem length_pos (v : VerifiedLog C) : 0 < v.log.length :=
  List.length_pos_iff.mpr v.replays.ne_nil

theorem ext_log {v w : VerifiedLog C} (h : v.log = w.log) : v = w := by
  obtain ⟨l, r, hr⟩ := v
  obtain ⟨m, s, hs⟩ := w
  obtain rfl : l = m := h
  obtain rfl := hr.unique hs
  rfl

/-- The room of a verified log is the room of each log it starts with. -/
theorem id_eq_of_prefix {v w : VerifiedLog C} (h : v.log <+: w.log) : v.room.id = w.room.id := by
  obtain ⟨c, vs, hv, -, -, hidv, -⟩ := v.replays.opening
  obtain ⟨d, ws, hw, -, -, hidw, -⟩ := w.replays.opening
  rw [hv, hw, List.cons_prefix_cons] at h
  rw [hidv, hidw, h.1]

def ofLog (C : Crypto) (log : List RoomEntry) : Option (VerifiedLog C) :=
  match h : verifyLog C log with
  | .ok room => some ⟨log, room, replays_of_verifyLog h⟩
  | .error _ => none

theorem ofLog_log (v : VerifiedLog C) : ofLog C v.log = some v := by
  unfold ofLog
  split
  · exact congrArg some (ext_log rfl)
  · rename_i h
    rw [v.replays.verifyLog_eq] at h
    cases h

theorem log_of_ofLog {log : List RoomEntry} {v : VerifiedLog C} (h : ofLog C log = some v) :
    v.log = log := by
  unfold ofLog at h
  split at h
  · cases h
    rfl
  · cases h

end VerifiedLog

/-- What someone holds of each room: a verified log, filed under the id of its room. -/
structure Book (C : Crypto) where
  held : RoomId → Option (VerifiedLog C)
  filed : ∀ id v, held id = some v → v.room.id = id

namespace Book

def empty : Book C := ⟨fun _ => none, fun _ _ h => by cases h⟩

def length (b : Book C) (id : RoomId) : Nat :=
  match b.held id with
  | some v => v.room.length
  | none => 0

def put (v : VerifiedLog C) (b : Book C) : Book C where
  held id := if id = v.room.id then some v else b.held id
  filed id w h := by
    by_cases hid : id = v.room.id
    · rw [if_pos hid, Option.some.injEq] at h
      rw [← h, hid]
    · rw [if_neg hid] at h
      exact b.filed id w h

/-- The rule by which one log replaces another: only if it is longer. -/
def offer (v : VerifiedLog C) (b : Book C) : Book C :=
  if b.length v.room.id < v.room.length then b.put v else b

theorem held_put (b : Book C) (v : VerifiedLog C) (id : RoomId) :
    (b.put v).held id = if id = v.room.id then some v else b.held id := rfl

@[simp] theorem held_put_self (b : Book C) (v : VerifiedLog C) :
    (b.put v).held v.room.id = some v := if_pos rfl

theorem held_put_of_ne (b : Book C) {v : VerifiedLog C} {id : RoomId} (h : id ≠ v.room.id) :
    (b.put v).held id = b.held id := if_neg h

theorem length_of_held {b : Book C} {id : RoomId} {v : VerifiedLog C} (h : b.held id = some v) :
    b.length id = v.log.length := by
  rw [length, h]
  exact v.length_eq

/-- Taking what there is to take. -/
def take (o : Option (VerifiedLog C)) (b : Book C) : Book C :=
  match o with
  | some v => b.put v
  | none => b

@[simp] theorem take_none (b : Book C) : b.take none = b := rfl

@[simp] theorem take_some (b : Book C) (v : VerifiedLog C) : b.take (some v) = b.put v := rfl

def members (b : Book C) (id : RoomId) : Finset Key :=
  match b.held id with
  | some v => v.room.members
  | none => ∅

theorem length_of_none {b : Book C} {id : RoomId} (h : b.held id = none) : b.length id = 0 := by
  rw [length, h]

theorem length_put (b : Book C) (v : VerifiedLog C) (id : RoomId) :
    (b.put v).length id = if id = v.room.id then v.room.length else b.length id := by
  rw [length, held_put]
  by_cases h : id = v.room.id
  · rw [if_pos h, if_pos h]
  · rw [if_neg h, if_neg h]
    rfl

theorem length_le_put {b : Book C} {v : VerifiedLog C} (h : b.length v.room.id ≤ v.room.length)
    (id : RoomId) : b.length id ≤ (b.put v).length id := by
  rw [length_put]
  by_cases hid : id = v.room.id
  · rw [if_pos hid, hid]
    exact h
  · rw [if_neg hid]

end Book

/-- The entry of `N` at the place where `H` ends, if there is one, names the last entry
of `H`. -/
def Links (C : Crypto) (H N : List RoomEntry) : Prop :=
  ∀ e ∈ N[H.length]?, ∃ last ∈ H.getLast?, e.prev = last.hash C

instance (C : Crypto) (H N : List RoomEntry) : Decidable (Links C H N) :=
  inferInstanceAs (Decidable (∀ e ∈ N[H.length]?, ∃ last ∈ H.getLast?, e.prev = last.hash C))

/-- A longer log extends a shorter one exactly when it goes on where that one ends. -/
theorem VerifiedLog.prefix_iff_links {v w : VerifiedLog C}
    (hfree : CollisionFree C (entriesOf v.log w.log)) (hlt : v.log.length < w.log.length) :
    v.log <+: w.log ↔ Links C v.log w.log := by
  obtain ⟨i, hi⟩ : ∃ i, v.log.length = i + 1 := ⟨_, (Nat.succ_pred v.length_pos.ne').symm⟩
  have hlast : v.log.getLast? = some v.log[i] := by
    rw [List.getLast?_eq_getElem?, List.getElem?_eq_some_iff]
    exact ⟨by omega, by simp [hi]⟩
  have hnext : w.log[v.log.length]? = some w.log[i + 1] := by
    rw [List.getElem?_eq_some_iff]
    exact ⟨hlt, by simp [hi]⟩
  have hlinks : Links C v.log w.log ↔ w.log[i + 1].prev = v.log[i].hash C := by
    simp [Links, hlast, hnext]
  rw [hlinks]
  constructor
  · exact w.replays.chained.links_of_prefix hi (by omega)
  · exact v.replays.chained.prefix_of_links w.replays.chained hfree.hash_injOn
      (fun _ => .inl) (fun _ => .inr) hi (by omega)

/-- Under the longer-only rule what is taken extends what was held exactly when, being
longer, it goes on where that ended. -/
theorem Book.extends_offer_iff {b : Book C} {v w : VerifiedLog C}
    (hv : b.held w.room.id = some v) (hfree : CollisionFree C (entriesOf v.log w.log)) :
    (((b.offer w).held w.room.id).map VerifiedLog.log = some w.log → v.log <+: w.log) ↔
      (v.log.length < w.log.length → Links C v.log w.log) := by
  rw [offer, length_of_held hv, w.length_eq]
  by_cases hlt : v.log.length < w.log.length
  · rw [if_pos hlt, held_put_self]
    simp only [Option.map_some, hlt, true_imp_iff]
    exact VerifiedLog.prefix_iff_links hfree hlt
  · rw [if_neg hlt, hv]
    refine iff_of_true ?_ fun h => absurd h hlt
    intro heq
    rw [Option.map_some, Option.some.injEq] at heq
    rw [heq]

/-- Of every room at least what was held is still held. -/
def Book.Grows (b b' : Book C) : Prop :=
  ∀ id v, b.held id = some v → ∃ w, b'.held id = some w ∧ v.log <+: w.log

theorem Book.Grows.refl (b : Book C) : b.Grows b :=
  fun _ v hv => ⟨v, hv, List.prefix_refl _⟩

theorem Book.Grows.trans {b c d : Book C} (h : b.Grows c) (h' : c.Grows d) : b.Grows d := by
  intro id v hv
  obtain ⟨w, hw, hvw⟩ := h id v hv
  obtain ⟨x, hx, hwx⟩ := h' id w hw
  exact ⟨x, hx, hvw.trans hwx⟩

theorem Book.grows_put {b : Book C} {w : VerifiedLog C}
    (h : ∀ v, b.held w.room.id = some v → v.log <+: w.log) : b.Grows (b.put w) := by
  intro id v hv
  by_cases hid : id = w.room.id
  · subst hid
    exact ⟨w, held_put_self b w, h v hv⟩
  · exact ⟨v, by rw [held_put_of_ne b hid, hv], List.prefix_refl _⟩

/-- All the entries the book holds are among these. -/
def Book.Within (E : Set RoomEntry) (b : Book C) : Prop :=
  ∀ id v, b.held id = some v → ∀ e ∈ v.log, e ∈ E

theorem Book.Within.put {E : Set RoomEntry} {b : Book C} (h : b.Within E) {w : VerifiedLog C}
    (hw : ∀ e ∈ w.log, e ∈ E) : (b.put w).Within E := by
  intro id v hv
  by_cases hid : id = w.room.id
  · rw [hid, held_put_self, Option.some.injEq] at hv
    exact hv ▸ hw
  · rw [held_put_of_ne b hid] at hv
    exact h id v hv

/-- A kicked member is back only by a later invite of the founder. -/
theorem Replays.invited_since_kick {l : List RoomEntry} {room : Room} (h : Replays C l room)
    {i : Nat} {e : RoomEntry} {k : Key} (he : l[i]? = some e) (hop : e.op = .kick k)
    (hk : k ∈ room.members) :
    ∃ j f, i < j ∧ l[j]? = some f ∧ f.op = .invite k ∧ f.author = room.founder := by
  induction h with
  | create hp hs hcreate =>
    rename_i c name
    obtain rfl : c = e := (List.mem_singleton.mp (List.mem_of_getElem? he)).symm
    rw [hcreate] at hop
    cases hop
  | snoc h ha ih =>
    rename_i l room f
    have hearlier : ∀ m, (∃ j g, i < j ∧ l[j]? = some g ∧ g.op = .invite k ∧ g.author = m) →
        ∃ j g, i < j ∧ (l ++ [f])[j]? = some g ∧ g.op = .invite k ∧ g.author = m := by
      rintro m ⟨j, g, hj, hg, hgop, hga⟩
      exact ⟨j, g, hj, by rw [List.getElem?_append_left (List.getElem?_eq_some_iff.mp hg).1, hg],
        hgop, hga⟩
    rcases Nat.lt_trichotomy i l.length with hlt | heq | hgt
    · rw [List.getElem?_append_left hlt] at he
      by_cases hin : k ∈ room.members
      · exact hearlier _ (ih he hin)
      · -- only the last entry can have brought them back
        have hallowed := ha.allowed
        simp only [Room.after_members] at hk
        cases hf : f.op with
        | invite m =>
          rw [hf, RoomOp.apply, Finset.mem_insert] at hk
          obtain rfl := hk.resolve_right hin
          rw [hf] at hallowed
          exact ⟨l.length, f, hlt, by simp, hf, hallowed⟩
        | create name => rw [hf] at hallowed; exact hallowed.elim
        | kick m => rw [hf] at hk; exact absurd (Finset.mem_of_mem_erase hk) hin
        | leave => rw [hf] at hk; exact absurd (Finset.mem_of_mem_erase hk) hin
    · subst heq
      obtain rfl : f = e := by simpa using he
      rw [Room.after_members, hop] at hk
      exact absurd rfl (Finset.ne_of_mem_erase hk)
    · rw [List.getElem?_eq_none (by simp; omega)] at he
      cases he

/-- Every kick of `H` is still in `N`, and its target is out unless the founder has since
invited them again. -/
def KicksStand (C : Crypto) (H N : List RoomEntry) : Prop :=
  ∀ (i : Nat) (e : RoomEntry) (k : Key), H[i]? = some e → e.op = .kick k →
    N[i]? = some e ∧ ∀ room, verifyLog C N = .ok room → k ∈ room.members →
      ∃ j f, i < j ∧ N[j]? = some f ∧ f.op = .invite k ∧ f.author = room.founder

theorem kicksStand_of_prefix {H N : List RoomEntry} (h : H <+: N) : KicksStand C H N := by
  intro i e k he hop
  have hN : N[i]? = some e := by
    obtain ⟨t, rfl⟩ := h
    rw [List.getElem?_append_left (List.getElem?_eq_some_iff.mp he).1, he]
  exact ⟨hN, fun room hroom hk => (replays_of_verifyLog hroom).invited_since_kick hN hop hk⟩

/-- Of every room at least what was held is still held, and with it its kicks. -/
def Keeping (C : Crypto) (before after : RoomId → Option (List RoomEntry)) : Prop :=
  ∀ id H, before id = some H → ∃ N, after id = some N ∧ H <+: N ∧ KicksStand C H N

theorem Book.Grows.keeping {b b' : Book C} (h : b.Grows b') :
    Keeping C (fun id => (b.held id).map VerifiedLog.log)
      (fun id => (b'.held id).map VerifiedLog.log) := by
  intro id H hH
  obtain ⟨v, hv, rfl⟩ := Option.map_eq_some_iff.mp hH
  obtain ⟨w, hw, hvw⟩ := h id v hv
  exact ⟨w.log, by simp [hw], hvw, kicksStand_of_prefix hvw⟩

end Wicara.Core
