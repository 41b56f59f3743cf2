import Mathlib.Data.Set.Function
import Wicara.Core.RoomMembership
import Wicara.Lib.HashChain

namespace Wicara.Core

open Lib.Encoding Lib.HashChain

theorem tsMs_selfDelimiting : SelfDelimiting (fun ts : UInt64 => leBytes 8 ts.toNat) := by
  refine .of_length 8 (fun ts => length_leBytes 8 _) ?_
  intro a b h
  exact UInt64.toNat_inj.mp (leBytes_inj a.toNat_lt b.toNat_lt h)

theorem RoomOp.toStdvec_selfDelimiting : SelfDelimiting RoomOp.toStdvec := by
  intro a b x y h
  cases a <;> cases b <;>
    simp only [RoomOp.toStdvec, List.append_assoc] at h <;>
    obtain ⟨htag, hfield⟩ := varint_selfDelimiting h <;>
    try omega
  case create.create s t =>
    obtain ⟨rfl, hx⟩ := string_selfDelimiting hfield
    exact ⟨rfl, hx⟩
  case invite.invite k k' =>
    obtain ⟨rfl, hx⟩ := Bytes.toList_selfDelimiting hfield
    exact ⟨rfl, hx⟩
  case kick.kick k k' =>
    obtain ⟨rfl, hx⟩ := Bytes.toList_selfDelimiting hfield
    exact ⟨rfl, hx⟩
  case leave.leave => exact ⟨rfl, hfield⟩

/-- Nothing in an entry is lost between it and the bytes it is hashed from, although both
its op and its signature vary in length. -/
theorem RoomEntry.preimage_injective : Function.Injective RoomEntry.preimage := by
  rintro ⟨prev, author, ts, op, sig⟩ ⟨prev', author', ts', op', sig'⟩ h
  simp only [RoomEntry.preimage, RoomEntry.transcript, Core.transcript,
    List.append_assoc] at h
  obtain ⟨rfl, hauthor⟩ := Bytes.toList_selfDelimiting (List.append_cancel_left h)
  obtain ⟨rfl, hts⟩ := Bytes.toList_selfDelimiting hauthor
  obtain ⟨rfl, hop⟩ := tsMs_selfDelimiting hts
  obtain ⟨rfl, rfl⟩ := RoomOp.toStdvec_selfDelimiting hop
  rfl

/-- No two of these entries are told apart by their bytes and confused by BLAKE3.  An
injective hash is collision free on every set of entries. -/
def CollisionFree (C : Crypto) (S : Set RoomEntry) : Prop :=
  Set.InjOn C.blake3 (RoomEntry.preimage '' S)

variable {C : Crypto}

theorem CollisionFree.hash_injOn {S : Set RoomEntry} (h : CollisionFree C S) :
    Set.InjOn (RoomEntry.hash C) S := by
  intro e he f hf hhash
  exact RoomEntry.preimage_injective
    (h (Set.mem_image_of_mem _ he) (Set.mem_image_of_mem _ hf) hhash)

theorem CollisionFree.mono {S T : Set RoomEntry} (h : CollisionFree C T) (hST : S ⊆ T) :
    CollisionFree C S :=
  Set.InjOn.mono (Set.image_mono hST) h

/-- On the entries of finitely many logs the check is a finite one. -/
theorem collisionFree_of_list {S : Set RoomEntry} (l : List RoomEntry) (hl : ∀ e ∈ S, e ∈ l)
    (h : ∀ e ∈ l, ∀ f ∈ l, e.hash C = f.hash C → e = f) : CollisionFree C S := by
  rintro _ ⟨e, he, rfl⟩ _ ⟨f, hf, rfl⟩ hhash
  rw [h e (hl e he) f (hl f hf) hhash]

def RoomEntry.IsCreate (e : RoomEntry) : Prop := ∃ name, e.op = .create name

theorem WellFormed.chained {create : RoomEntry} {l : List RoomEntry}
    (h : WellFormed C create l) :
    Chained RoomEntry.prev (RoomEntry.hash C) RoomEntry.IsCreate l where
  root_iff i hi := by
    cases i with
    | zero =>
      have hhead : l[0] = create := by
        have := h.head
        rwa [List.head?_eq_getElem?, List.getElem?_eq_getElem hi, Option.some.injEq] at this
      rw [hhead]
      exact iff_of_true h.creates rfl
    | succ i =>
      have hmem : l[i + 1] ∈ l.tail := by
        rw [← List.getElem_tail (by simp only [List.length_tail]; omega)]
        exact List.getElem_mem _
      simp only [Nat.add_eq_zero_iff, one_ne_zero, and_false, iff_false]
      rintro ⟨name, hop⟩
      exact h.once _ hmem name hop
  linked := h.linked

theorem Replays.chained {l : List RoomEntry} {room : Room} (h : Replays C l room) :
    Chained RoomEntry.prev (RoomEntry.hash C) RoomEntry.IsCreate l := by
  obtain ⟨create, hw⟩ := replays_iff_wellFormed.mp ⟨room, h⟩
  exact hw.chained

/-- The entries of two logs. -/
def entriesOf (A B : List RoomEntry) : Set RoomEntry := {e | e ∈ A ∨ e ∈ B}

variable {A B : List RoomEntry} {RA RB : Room}

theorem CollisionFree.logs {E : Set RoomEntry} (h : CollisionFree C E) (hA : ∀ e ∈ A, e ∈ E)
    (hB : ∀ e ∈ B, e ∈ E) : CollisionFree C (entriesOf A B) :=
  h.mono fun e he => he.elim (hA e) (hB e)

theorem Replays.commits (hA : Replays C A RA) (hB : Replays C B RB)
    (hfree : CollisionFree C (entriesOf A B)) {i j : Nat} (hi : i < A.length)
    (hj : j < B.length) (h : A[i].hash C = B[j].hash C) :
    i = j ∧ A.take (i + 1) = B.take (j + 1) :=
  hA.chained.commits hB.chained hfree.hash_injOn (fun _ => .inl) (fun _ => .inr) hi hj h

theorem Replays.eq_of_head (hA : Replays C A RA) (hB : Replays C B RB)
    (hfree : CollisionFree C (entriesOf A B)) (h : RA.head = RB.head) : A = B := by
  obtain ⟨a, ha, hheadA⟩ := hA.head_eq
  obtain ⟨b, hb, hheadB⟩ := hB.head_eq
  rw [List.getLast?_eq_getElem?, List.getElem?_eq_some_iff] at ha hb
  obtain ⟨hi, rfl⟩ := ha
  obtain ⟨hj, rfl⟩ := hb
  obtain ⟨hij, htake⟩ := hA.commits hB hfree hi hj (hheadA.symm.trans (h.trans hheadB))
  rwa [List.take_of_length_le (by omega), List.take_of_length_le (by omega)] at htake

/-- An entry commits to everything before it, and so to its room and its position: two
accepted logs agree up to entries of one hash, equal heads mean equal logs, no entry occurs
twice, and none stands in two rooms or at two positions. -/
theorem entry_commits_to_prefix (C : Crypto) {A B : List RoomEntry} {RA RB : Room}
    (hA : verifyLog C A = .ok RA) (hB : verifyLog C B = .ok RB)
    (hfree : CollisionFree C (entriesOf A B)) :
    (∀ (i j : Nat) (hi : i < A.length) (hj : j < B.length), A[i].hash C = B[j].hash C →
      i = j ∧ A.take (i + 1) = B.take (j + 1)) ∧
    (RA.head = RB.head → A = B) ∧
    A.Nodup ∧
    ∀ (i j : Nat) (hi : i < A.length) (hj : j < B.length), A[i] = B[j] →
      i = j ∧ RA.id = RB.id := by
  have hA := replays_of_verifyLog hA
  have hB := replays_of_verifyLog hB
  have hAA : CollisionFree C (entriesOf A A) :=
    hfree.mono fun e he => .inl (he.elim (fun h => h) fun h => h)
  refine ⟨fun i j hi hj h => hA.commits hB hfree hi hj h, hA.eq_of_head hB hfree, ?_, ?_⟩
  · rw [List.nodup_iff_injective_getElem]
    rintro ⟨i, hi⟩ ⟨j, hj⟩ hij
    exact Fin.ext (hA.commits hA hAA hi hj (congrArg _ hij)).1
  · intro i j hi hj hij
    obtain ⟨rfl, htake⟩ := hA.commits hB hfree hi hj (congrArg _ hij)
    refine ⟨rfl, ?_⟩
    obtain ⟨a, as, rfl, -, -, hida, -⟩ := hA.opening
    obtain ⟨b, bs, rfl, -, -, hidb, -⟩ := hB.opening
    simp only [List.take_succ_cons, List.cons.injEq] at htake
    rw [hida, hidb, htake.1]

open Sample in
/-- The kitchen before and after 2 left it. -/
theorem entry_commits_to_prefix_kitchen :
    kitchen.Nodup ∧ (kitchenRoom.head = (kitchenRoom.after crypto (leaveKitchen 2)).head →
      kitchen = kitchen ++ [leaveKitchen 2]) := by
  have hleft : verifyLog crypto (kitchen ++ [leaveKitchen 2]) =
      .ok (kitchenRoom.after crypto (leaveKitchen 2)) := by decide +kernel
  have h := entry_commits_to_prefix crypto verifyLog_kitchen hleft
    (collisionFree_of_list (kitchen ++ [leaveKitchen 2])
      (fun e he => he.elim (List.mem_append_left _) fun h => h) (by decide +kernel))
  exact ⟨h.2.2.1, h.2.1⟩

end Wicara.Core
