import Mathlib.Data.Finset.Card
import Mathlib.Data.List.Chain
import Wicara.Core.Sample

namespace Wicara.Core

/-- The entries that say whether `k` is in the room: invites and kicks that name it, and
its own leaves. -/
def RoomEntry.concerns (k : Key) (e : RoomEntry) : Bool :=
  match e.op with
  | .create _ => false
  | .invite member => member = k
  | .kick member => member = k
  | .leave => e.author = k

/-- Among the entries that concern `k` there is a last one, and it is an invite. -/
def LastIsInvite (k : Key) (l : List RoomEntry) : Prop :=
  ∃ e, (l.filter (RoomEntry.concerns k)).getLast? = some e ∧ e.op = .invite k

/-- Membership as the entries of `l` leave it, in a room founded by `founder`. -/
def MemberAsOf (founder : Key) (l : List RoomEntry) (k : Key) : Prop :=
  k = founder ∨ LastIsInvite k l

theorem lastIsInvite_concat {k : Key} {l : List RoomEntry} {e : RoomEntry} :
    LastIsInvite k (l ++ [e]) ↔
      if e.concerns k then e.op = .invite k else LastIsInvite k l := by
  by_cases h : e.concerns k <;> simp [LastIsInvite, List.filter_append, h]

theorem not_lastIsInvite_singleton {k : Key} {e : RoomEntry} {name : String}
    (hop : e.op = .create name) : ¬ LastIsInvite k [e] := by
  simp [LastIsInvite, RoomEntry.concerns, hop]

/-- A chain as it should be, said of the whole list and not of the loop that checks it. -/
structure WellFormed (C : Crypto) (create : RoomEntry) (l : List RoomEntry) : Prop where
  head : l.head? = some create
  genesis : create.prev = Core.genesis
  creates : ∃ name, create.op = .create name
  once : ∀ e ∈ l.tail, ∀ name, e.op ≠ .create name
  linked : ∀ (i : Nat) (h : i + 1 < l.length), l[i + 1].prev = l[i].hash C
  signed : ∀ e ∈ l, e.Signed C
  admin : ∀ e ∈ l, ∀ k, e.op = .invite k ∨ e.op = .kick k → e.author = create.author
  stays : ∀ e ∈ l, e.op ≠ .kick create.author
  leaves : ∀ before e after, l = before ++ e :: after → e.op = .leave →
    e.author ≠ create.author ∧ MemberAsOf create.author before e.author

/-- What one more entry has to satisfy. -/
structure WellFormed.Next (C : Crypto) (create : RoomEntry) (l : List RoomEntry)
    (e : RoomEntry) : Prop where
  once : ∀ name, e.op ≠ .create name
  linked : ∃ last, l.getLast? = some last ∧ e.prev = last.hash C
  signed : e.Signed C
  admin : ∀ k, e.op = .invite k ∨ e.op = .kick k → e.author = create.author
  stays : e.op ≠ .kick create.author
  leaves : e.op = .leave →
    e.author ≠ create.author ∧ MemberAsOf create.author l e.author

variable {C : Crypto} {create e : RoomEntry} {l : List RoomEntry} {room : Room}

theorem wellFormed_singleton :
    WellFormed C create [e] ↔
      e = create ∧ e.prev = genesis ∧ e.Signed C ∧ ∃ name, e.op = .create name := by
  constructor
  · intro h
    obtain rfl : e = create := by simpa using h.head
    exact ⟨rfl, h.genesis, h.signed e (by simp), h.creates⟩
  · rintro ⟨rfl, hp, hs, name, hop⟩
    refine ⟨rfl, hp, ⟨name, hop⟩, by simp, by simp, by simpa using hs, ?_, ?_, ?_⟩
    · simp [hop]
    · simp [hop]
    · intro before f after hl hf
      obtain rfl : f = e := by
        cases before <;> simp_all
      simp [hop] at hf

theorem linked_concat (hl : l ≠ []) :
    (∀ (i : Nat) (h : i + 1 < (l ++ [e]).length),
      (l ++ [e])[i + 1].prev = (l ++ [e])[i].hash C) ↔
    (∀ (i : Nat) (h : i + 1 < l.length), l[i + 1].prev = l[i].hash C) ∧
      ∃ last, l.getLast? = some last ∧ e.prev = last.hash C := by
  have hchain (m : List RoomEntry) :
      (∀ (i : Nat) (h : i + 1 < m.length), m[i + 1].prev = m[i].hash C) ↔
        m.IsChain (fun a b => b.prev = a.hash C) := by
    rw [List.isChain_iff_getElem]
  rw [hchain, hchain, List.isChain_append]
  obtain ⟨last, hlast⟩ := Option.isSome_iff_exists.mp (List.getLast?_isSome.mpr hl)
  simp [hlast]

theorem wellFormed_concat (hl : l ≠ []) :
    WellFormed C create (l ++ [e]) ↔ WellFormed C create l ∧ WellFormed.Next C create l e := by
  have htail : (l ++ [e]).tail = l.tail ++ [e] := List.tail_append_of_ne_nil hl
  have hhead : (l ++ [e]).head? = l.head? := by
    obtain ⟨a, t, rfl⟩ := List.exists_cons_of_ne_nil hl
    rfl
  constructor
  · intro h
    obtain ⟨hlink, hlast⟩ := (linked_concat hl).mp h.linked
    refine ⟨⟨hhead ▸ h.head, h.genesis, h.creates, fun f hf => h.once f (by simp [htail, hf]),
      hlink, fun f hf => h.signed f (by simp [hf]), fun f hf => h.admin f (by simp [hf]),
      fun f hf => h.stays f (by simp [hf]), ?_⟩,
      ⟨h.once e (by simp [htail]), hlast, h.signed e (by simp), h.admin e (by simp),
        h.stays e (by simp), h.leaves l e [] rfl⟩⟩
    intro before f after hsplit
    exact h.leaves before f (after ++ [e]) (by simp [hsplit])
  · rintro ⟨h, hn⟩
    refine ⟨hhead ▸ h.head, h.genesis, h.creates, ?_,
      (linked_concat hl).mpr ⟨h.linked, hn.linked⟩, ?_, ?_, ?_, ?_⟩
    · intro f hf
      rcases List.mem_append.mp (htail ▸ hf) with hf | hf
      · exact h.once f hf
      · exact List.mem_singleton.mp hf ▸ hn.once
    · intro f hf
      rcases List.mem_append.mp hf with hf | hf
      · exact h.signed f hf
      · exact List.mem_singleton.mp hf ▸ hn.signed
    · intro f hf
      rcases List.mem_append.mp hf with hf | hf
      · exact h.admin f hf
      · exact List.mem_singleton.mp hf ▸ hn.admin
    · intro f hf
      rcases List.mem_append.mp hf with hf | hf
      · exact h.stays f hf
      · exact List.mem_singleton.mp hf ▸ hn.stays
    · intro before f after hsplit
      rcases List.eq_nil_or_concat after with rfl | ⟨after, g, rfl⟩
      · obtain ⟨rfl, hf⟩ := List.append_inj' hsplit rfl
        obtain rfl : e = f := by simpa using hf
        exact hn.leaves
      · rw [List.concat_eq_append, ← List.cons_append, ← List.append_assoc] at hsplit
        obtain ⟨rfl, -⟩ := List.append_inj' hsplit rfl
        exact h.leaves before f after rfl

/-- The running set of members is what the last entry concerning each key says. -/
theorem Replays.mem_members (h : Replays C l room) (k : Key) :
    k ∈ room.members ↔ MemberAsOf room.founder l k := by
  induction h with
  | create hp hs hop =>
    simp [Room.opened, MemberAsOf, not_lastIsInvite_singleton hop]
  | snoc h ha ih =>
    rename_i l room e
    have hal := ha.allowed
    simp only [Room.after_members, Room.after_founder, MemberAsOf, lastIsInvite_concat] at ih ⊢
    cases hop : e.op with
    | create name => simp [hop, RoomOp.Allowed] at hal
    | invite member =>
      by_cases hk : member = k
      · simp [RoomEntry.concerns, hop, hk, RoomOp.apply]
      · simp [RoomEntry.concerns, hop, hk, RoomOp.apply, ih, Ne.symm hk]
    | kick member =>
      simp only [hop, RoomOp.Allowed] at hal
      by_cases hk : member = k
      · simp [RoomEntry.concerns, hop, hk, RoomOp.apply, hk ▸ hal.2]
      · simp [RoomEntry.concerns, hop, hk, RoomOp.apply, ih, Ne.symm hk]
    | leave =>
      simp only [hop, RoomOp.Allowed] at hal
      by_cases hk : e.author = k
      · simp [RoomEntry.concerns, hop, hk, RoomOp.apply, hk ▸ hal.2]
      · simp [RoomEntry.concerns, hop, hk, RoomOp.apply, ih, Ne.symm hk]

theorem Replays.founder_eq (h : Replays C l room) (hc : l.head? = some create) :
    room.founder = create.author := by
  obtain ⟨c, rest, rfl, -, -, -, hf⟩ := h.opening
  obtain rfl : c = create := by simpa using hc
  exact hf

/-- What the loop asks of an entry, given what it has computed so far, is what the chain
asks of it, given the entries before it. -/
theorem Replays.admits_iff (h : Replays C l room) (hc : l.head? = some create) :
    room.Admits C e ↔ WellFormed.Next C create l e := by
  have hf := h.founder_eq hc
  obtain ⟨last, hlast, hhead⟩ := h.head_eq
  constructor
  · intro ha
    have hal := ha.allowed
    refine ⟨?_, ⟨last, hlast, ha.follows.trans hhead⟩, ha.signed, ?_, ?_, ?_⟩
    · rintro name hop
      simp [hop, RoomOp.Allowed] at hal
    · rintro k (hop | hop) <;> simp_all [RoomOp.Allowed]
    · intro hop
      simp [hop, RoomOp.Allowed, hf] at hal
    · intro hop
      simp only [hop, RoomOp.Allowed, h.mem_members, hf] at hal
      exact ⟨hal.2, hal.1⟩
  · intro hn
    obtain ⟨last', hlast', hprev⟩ := hn.linked
    obtain rfl : last = last' := by simpa [hlast] using hlast'
    refine ⟨hprev.trans hhead.symm, hn.signed, ?_⟩
    cases hop : e.op with
    | create name => exact absurd hop (hn.once name)
    | invite member => exact (hn.admin member (.inl hop)).trans hf.symm
    | kick member =>
      refine ⟨(hn.admin member (.inr hop)).trans hf.symm, ?_⟩
      rintro rfl
      exact hn.stays (hf ▸ hop)
    | leave =>
      obtain ⟨hne, hmem⟩ := hn.leaves hop
      exact ⟨(h.mem_members _).mpr (hf ▸ hmem), hf ▸ hne⟩

theorem replays_iff_wellFormed : (∃ room, Replays C l room) ↔ ∃ create, WellFormed C create l := by
  induction l using List.reverseRecOn with
  | nil =>
    constructor
    · rintro ⟨room, h⟩
      exact absurd rfl h.ne_nil
    · rintro ⟨create, h⟩
      exact absurd h.head (by simp)
  | append_singleton l e ih =>
    rcases eq_or_ne l [] with rfl | hl
    · simp only [List.nil_append, wellFormed_singleton, ← verifyLog_eq_ok, verifyLog_singleton]
      constructor
      · rintro ⟨room, hp, hs, name, hop, -⟩
        exact ⟨e, rfl, hp, hs, name, hop⟩
      · rintro ⟨create, rfl, hp, hs, name, hop⟩
        exact ⟨_, hp, hs, name, hop, rfl⟩
    · simp only [wellFormed_concat hl, ← verifyLog_eq_ok, verifyLog_snoc hl]
      constructor
      · rintro ⟨_, room, hr, ha, rfl⟩
        rw [verifyLog_eq_ok] at hr
        obtain ⟨create, hw⟩ := ih.mp ⟨room, hr⟩
        exact ⟨create, hw, (hr.admits_iff hw.head).mp ha⟩
      · rintro ⟨create, hw, hn⟩
        obtain ⟨room, hr⟩ := ih.mpr ⟨create, hw⟩
        exact ⟨_, room, hr.verifyLog_eq, (hr.admits_iff hw.head).mpr hn, rfl⟩

/-- `verify_log` accepts exactly the well-formed chains, and the room it returns is the one
the chain describes. -/
theorem verifyLog_accepts_wellFormed (C : Crypto) (l : List RoomEntry) :
    ((∃ room, verifyLog C l = .ok room) ↔ ∃ create, WellFormed C create l) ∧
    ∀ room, verifyLog C l = .ok room ↔
      ∃ create last, WellFormed C create l ∧ l.getLast? = some last ∧
        create.op = .create room.name ∧ room.id = create.hash C ∧
        room.founder = create.author ∧ room.head = last.hash C ∧ room.length = l.length ∧
        ∀ k, k ∈ room.members ↔ MemberAsOf create.author l k := by
  have describes {room : Room} (h : Replays C l room) {create : RoomEntry}
      (hw : WellFormed C create l) :
      ∃ last, l.getLast? = some last ∧ create.op = .create room.name ∧
        room.id = create.hash C ∧ room.founder = create.author ∧ room.head = last.hash C ∧
        room.length = l.length ∧ ∀ k, k ∈ room.members ↔ MemberAsOf create.author l k := by
    obtain ⟨c, rest, rfl, -, hname, hid, hf⟩ := h.opening
    obtain rfl : c = create := by simpa using hw.head
    obtain ⟨last, hlast, hhead⟩ := h.head_eq
    exact ⟨last, hlast, hname, hid, hf, hhead, h.length_eq, fun k => hf ▸ h.mem_members k⟩
  simp only [verifyLog_eq_ok]
  refine ⟨replays_iff_wellFormed, fun room => ⟨fun h => ?_, ?_⟩⟩
  · obtain ⟨create, hw⟩ := replays_iff_wellFormed.mp ⟨room, h⟩
    obtain ⟨last, hd⟩ := describes h hw
    exact ⟨create, last, hw, hd⟩
  · rintro ⟨create, last, hw, hlast, hname, hid, hf, hhead, hlen, hmem⟩
    obtain ⟨room', h⟩ := replays_iff_wellFormed.mpr ⟨create, hw⟩
    obtain ⟨last', hlast', hname', hid', hf', hhead', hlen', hmem'⟩ := describes h hw
    have heq : room = room' := by
      obtain rfl : last = last' := by simpa [hlast] using hlast'
      cases room
      cases room'
      simp_all only [RoomOp.create.injEq, Room.mk.injEq, true_and, and_true]
      ext k
      rw [hmem, hmem']
    exact heq ▸ h

/-! ## Suffixes the founder did not write -/

theorem Room.Admits.leave_of_ne_founder (ha : room.Admits C e) (hne : e.author ≠ room.founder) :
    e.op = .leave ∧ e.author ∈ room.members := by
  have hal := ha.allowed
  cases hop : e.op with
  | create name => simp [hop, RoomOp.Allowed] at hal
  | invite member => exact absurd (by simpa [hop, RoomOp.Allowed] using hal) hne
  | kick member =>
    simp only [hop, RoomOp.Allowed] at hal
    exact absurd hal.1 hne
  | leave =>
    simp only [hop, RoomOp.Allowed] at hal
    exact ⟨rfl, hal.1⟩

/-- The entries `X` took `room` to `room'` by their authors signing themselves out. -/
structure SignedOut (room : Room) (X : List RoomEntry) (room' : Room) : Prop where
  leave : ∀ e ∈ X, e.op = .leave
  distinct : (X.map RoomEntry.author).Nodup
  member : ∀ e ∈ X, e.author ∈ room.members ∧ e.author ≠ room.founder
  members : room'.members = room.members \ (X.map RoomEntry.author).toFinset
  id : room'.id = room.id
  name : room'.name = room.name
  founder : room'.founder = room.founder

theorem SignedOut.nil : SignedOut room [] room := by
  constructor <;> simp

theorem SignedOut.concat {X : List RoomEntry} {mid : Room} (h : SignedOut room X mid)
    (ha : mid.Admits C e) (hne : e.author ≠ room.founder) :
    SignedOut room (X ++ [e]) (mid.after C e) := by
  obtain ⟨hop, hmem⟩ := ha.leave_of_ne_founder (h.founder ▸ hne)
  rw [h.members, Finset.mem_sdiff, List.mem_toFinset] at hmem
  refine ⟨?_, ?_, ?_, ?_, h.id, h.name, h.founder⟩
  · intro f hf
    rcases List.mem_append.mp hf with hf | hf
    · exact h.leave f hf
    · exact List.mem_singleton.mp hf ▸ hop
  · rw [List.map_append, List.map_singleton]
    exact List.nodup_append_comm.mp (List.nodup_cons.mpr ⟨hmem.2, h.distinct⟩)
  · intro f hf
    rcases List.mem_append.mp hf with hf | hf
    · exact h.member f hf
    · exact List.mem_singleton.mp hf ▸ ⟨hmem.1, hne⟩
  · ext k
    simp only [Room.after_members, hop, RoomOp.apply, h.members, Finset.mem_erase,
      Finset.mem_sdiff, List.map_append, List.toFinset_append, Finset.mem_union,
      List.map_singleton, List.mem_toFinset, List.mem_singleton]
    tauto

/-- Each author of the suffix is one member fewer, and the founder stays. -/
theorem SignedOut.length_le {X : List RoomEntry} {room' : Room} (h : SignedOut room X room')
    (hf : room.founder ∈ room.members) : X.length ≤ room.members.card - 1 := by
  rw [← Finset.card_erase_of_mem hf, ← List.length_map RoomEntry.author,
    ← List.toFinset_card_of_nodup h.distinct]
  refine Finset.card_le_card fun k hk => ?_
  obtain ⟨e, he, rfl⟩ := List.mem_map.mp (List.mem_toFinset.mp hk)
  exact Finset.mem_erase.mpr ⟨(h.member e he).2, (h.member e he).1⟩

theorem signedOut_of_replays {X : List RoomEntry} {room' : Room} (h : Replays C l room)
    (h' : Replays C (l ++ X) room') (hX : ∀ e ∈ X, e.author ≠ room.founder) :
    SignedOut room X room' := by
  induction X using List.reverseRecOn generalizing room' with
  | nil =>
    rw [List.append_nil] at h'
    exact h.unique h' ▸ .nil
  | append_singleton X e ih =>
    rw [← List.append_assoc, ← verifyLog_eq_ok, verifyLog_snoc (by simp [h.ne_nil])] at h'
    obtain ⟨mid, hmid, ha, rfl⟩ := h'
    have hout := ih (verifyLog_eq_ok.mp hmid) fun f hf => hX f (by simp [hf])
    exact hout.concat ha (hX e (by simp))

/-- Without the founder's key a coalition can do one thing to a room: its members can sign
themselves out, each of them once. -/
theorem suffix_without_founder (C : Crypto) {L X : List RoomEntry} {R R' : Room}
    (hL : verifyLog C L = .ok R) (hLX : verifyLog C (L ++ X) = .ok R')
    (hX : ∀ e ∈ X, e.author ≠ R.founder) :
    SignedOut R X R' ∧ X.length ≤ R.members.card - 1 := by
  have h := replays_of_verifyLog hL
  have hout := signedOut_of_replays h (replays_of_verifyLog hLX) hX
  exact ⟨hout, hout.length_le h.founder_mem⟩

open Sample in
/-- 2 signs itself out of the kitchen. -/
theorem suffix_without_founder_kitchen :
    SignedOut kitchenRoom [leaveKitchen 2] (kitchenRoom.after crypto (leaveKitchen 2)) ∧
      1 ≤ kitchenRoom.members.card - 1 :=
  suffix_without_founder crypto (L := kitchen) (X := [leaveKitchen 2])
    verifyLog_kitchen (by decide +kernel) (by decide +kernel)

end Wicara.Core
