import Wicara.Client.Convergence
import Wicara.Lib.Run

namespace Wicara.Client

open Wicara.Core Lib Lib.Fallible Lib.Run

namespace Store

/-- `SELECT MAX(seq) FROM ops WHERE sender = me`, on a column that holds signed integers. -/
def resume (me : Key) (s : Store) : UInt64 :=
  .ofInt (((s.ops.rows.filter fun r => r.1.sender = me).map fun r =>
    r.1.seq.toInt64.toInt).max?.getD 0)

/-- The counter comes up at or above what is left. -/
theorem le_resume {s : Store} {me : Key}
    (hsmall : ∀ r ∈ s.ops.rows, r.1.sender = me → r.1.seq.toNat < 2 ^ 63) {row : OpRow}
    (hrow : row ∈ s.ops.rows) (hme : row.1.sender = me) :
    row.1.seq.toNat ≤ (s.resume me).toNat ∧ (s.resume me).toNat < 2 ^ 63 := by
  let seqs := (s.ops.rows.filter fun r => r.1.sender = me).map fun r => OpRow.signed r.1.seq
  have hseqs : OpRow.signed row.1.seq ∈ seqs :=
    List.mem_map_of_mem (List.mem_filter.mpr ⟨hrow, by simpa using hme⟩)
  obtain ⟨top, htop⟩ := Option.isSome_iff_exists.mp (List.isSome_max?_of_mem hseqs)
  obtain ⟨hmem, hmax⟩ := List.max?_eq_some_iff.mp htop
  obtain ⟨r, hr, rfl⟩ := List.mem_map.mp hmem
  rw [List.mem_filter, decide_eq_true_eq] at hr
  have hr63 := hsmall r hr.1 hr.2
  have hle := hmax _ hseqs
  rw [OpRow.signed_of_lt (hsmall row hrow hme), OpRow.signed_of_lt hr63] at hle
  have hresume : (s.resume me).toNat = r.1.seq.toNat := by
    change (UInt64.ofInt (seqs.max?.getD 0)).toNat = _
    rw [htop, Option.getD_some, OpRow.signed_of_lt hr63, UInt64.ofInt, UInt64.toNat_ofNat']
    omega
  omega

/-- `open` on the tables that a store has left. -/
def opened (me : Key) (s : Store) : Store :=
  { s with
    me := me
    counter := ⟨me, s.resume me⟩
    contacts := (s.ops.rows.map (fun r => r.2.1) ++ s.rooms.keys).foldl
      (fun contacts peer => contacts.insertOrIgnore peer ()) s.contacts }

end Store

/-- What is done to a store, one call after another. -/
inductive StoreCall
  | nextId (now : UInt64)
  | record (io : Sqlite) (peer : Key) (frame : Frame)
  | clear (io : Sqlite) (orders : Orders) (peer : Key)
  | forget (io : Sqlite) (orders : Orders) (peer : Key) (names : List String)
  | wipe (io : Sqlite) (orders : Orders)
  | reopen

/-- A store, and which ids it has handed out and then recorded. -/
structure Minting where
  store : Store
  minted : List MessageId
  used : List MessageId

namespace Minting

def start (store : Store) : Minting := ⟨store, [], []⟩

/-- The id that `next_id` would hand out. -/
def next (now : UInt64) (m : Minting) : MessageId := (m.store.counter.mint now).1

def step (m : Minting) : StoreCall → Minting
  | .nextId now => ⟨after (Store.nextId now) m.store, m.minted ++ [m.next now], m.used⟩
  | .record io peer frame =>
    match (Store.record io peer frame).run m.store, frame.id with
    | .ok _ store, some id => ⟨store, m.minted, if id ∈ m.minted then m.used ++ [id] else m.used⟩
    | .ok _ store, none | .error _ store, _ => { m with store := store }
  | .clear io orders peer => { m with store := after (Store.clear io orders peer) m.store }
  | .forget io orders peer names =>
    { m with store := after (Store.forget io orders peer names) m.store }
  | .wipe io orders => { m with store := after (Store.wipe io orders) m.store }
  | .reopen => { m with store := m.store.opened m.store.me }

/-- The next id is above all that were minted and recorded, whatever the clock says. -/
def Fresh (m : Minting) : Prop := ∀ now, ∀ id ∈ m.used, id.seq < (m.next now).seq

/-- What the next call must find: at a restart, no id that was minted and recorded is above the
highest that is left; and an id is recorded while it is not above the counter, which does not
run over. -/
def Resumes (m : Minting) : StoreCall → Prop
  | .nextId _ => m.used = [] ∨ m.store.counter.seq.toNat + 2 < UInt64.size
  | .record io _ frame => io 0 = none → io 1 = none → ∀ id ∈ frame.id, id ∈ m.minted →
    id.seq < m.store.counter.seq + 1
  | .reopen => ∀ id ∈ m.used, id.seq < m.store.resume m.store.me + 1
  | .clear _ _ _ | .forget _ _ _ _ | .wipe _ _ => True

variable {m : Minting}

theorem fresh_iff : m.Fresh ↔ ∀ id ∈ m.used, id.seq < m.store.counter.seq + 1 :=
  ⟨fun h => h 0, fun h _ => h⟩

theorem Fresh.congr {m' : Minting} (h : m.Fresh) (hcounter : m'.store.counter = m.store.counter)
    (hused : m'.used = m.used) : m'.Fresh := by
  rw [fresh_iff] at h ⊢
  rwa [hcounter, hused]

theorem fresh_nextId (h : m.Fresh) (now : UInt64) :
    (m.step (.nextId now)).Fresh ↔ m.Resumes (.nextId now) := by
  rw [fresh_iff] at h ⊢
  change (∀ id ∈ m.used, id.seq < m.store.counter.seq + 1 + 1) ↔ _ ∨ _
  simp only [UInt64.lt_iff_toNat_lt, UInt64.toNat_add, UInt64.toNat_one] at h ⊢
  constructor
  · intro hnext
    rw [or_iff_not_imp_left]
    intro hused
    obtain ⟨id, hid⟩ := List.exists_mem_of_ne_nil _ hused
    have hbefore := h id hid
    have hafter := hnext id hid
    have hsize := m.store.counter.seq.toNat_lt
    change _ < 2 ^ 64
    omega
  · rintro (hnone | hroom) id hid
    · rw [hnone] at hid
      cases hid
    · have hbefore := h id hid
      change _ < 2 ^ 64 at hroom
      omega

theorem wp_record_counter (io : Sqlite) (peer : Key) (frame : Frame) (s : Store) :
    wp (Store.record io peer frame)
      (fun _ s' => s'.counter = s.counter ∧ (frame.id ≠ none → io 0 = none ∧ io 1 = none))
      (fun _ s' => s'.counter = s.counter ∧ ¬(io 0 = none ∧ io 1 = none)) s := by
  unfold Store.record
  cases frame.id with
  | none => exact ⟨rfl, fun h => absurd rfl h⟩
  | some id =>
    simp only [wp_bind, wp_attempt, wp_modify, wp_get, wp_pure]
    refine ⟨fun h0 => ⟨fun h1 => ⟨trivial, fun _ => ⟨h0, h1⟩⟩, fun err herr => ⟨trivial, ?_⟩⟩,
      fun err herr => ⟨trivial, ?_⟩⟩
    · rintro ⟨-, h1⟩
      cases herr.symm.trans h1
    · rintro ⟨h0, -⟩
      cases herr.symm.trans h0

theorem fresh_record (h : m.Fresh) (io : Sqlite) (peer : Key) (frame : Frame) :
    (m.step (.record io peer frame)).Fresh ↔ m.Resumes (.record io peer frame) := by
  have hrecord := wp_record_counter io peer frame m.store
  unfold wp at hrecord
  simp only [step, Resumes]
  cases hrun : (Store.record io peer frame).run m.store with
  | error err store =>
    rw [hrun] at hrecord
    obtain ⟨hcounter, hfails⟩ := hrecord
    simp only
    exact iff_of_true (h.congr hcounter rfl) fun h0 h1 => absurd ⟨h0, h1⟩ hfails
  | ok fresh store =>
    rw [hrun] at hrecord
    obtain ⟨hcounter, hgoes⟩ := hrecord
    cases hid : frame.id with
    | none =>
      exact iff_of_true (h.congr hcounter rfl) fun _ _ id hid => by cases hid
    | some id =>
      obtain ⟨h0, h1⟩ := hgoes (by rw [hid]; exact Option.some_ne_none _)
      simp only [fresh_iff, hcounter, h0, h1, true_imp_iff, Option.mem_def, Option.some.injEq,
        forall_eq']
      rw [fresh_iff] at h
      split
      · rename_i hminted
        simp only [hminted, true_imp_iff, List.mem_append, List.mem_singleton]
        constructor
        · exact fun hall => hall id (.inr rfl)
        · rintro hbelow id' (hold | rfl)
          · exact h id' hold
          · exact hbelow
      · rename_i hother
        exact iff_of_true h fun hminted => absurd hminted hother

theorem frames_clear (io : Sqlite) (orders : Orders) (peer : Key) :
    Frames Store.counter (Store.clear io orders peer) :=
  .bind frames_get fun _ => .bind (frames_lift _) fun _ => .bind (frames_attempt _) fun _ =>
    .bind (frames_modify fun _ => rfl) fun _ => frames_pure _

theorem frames_forget (io : Sqlite) (orders : Orders) (peer : Key) (names : List String) :
    Frames Store.counter (Store.forget io orders peer names) :=
  .bind frames_get fun _ => .bind (frames_lift _) fun _ => .bind (frames_attempt _) fun _ =>
    .bind (frames_modify fun _ => rfl) fun _ => frames_pure _

theorem frames_wipe (io : Sqlite) (orders : Orders) : Frames Store.counter (Store.wipe io orders) :=
  .bind frames_get fun _ => .bind (frames_lift _) fun _ => .bind (frames_lift _) fun _ =>
    .bind (frames_attempt _) fun _ => .bind (frames_modify fun _ => rfl) fun _ => frames_pure _

/-- A restart is no trouble as long as nothing that was minted and recorded is gone. -/
theorem resumes_reopen_of_kept
    (hsmall : ∀ r ∈ m.store.ops.rows, r.1.sender = m.store.me → r.1.seq.toNat < 2 ^ 63)
    (hkept : ∀ id ∈ m.used, id.sender = m.store.me ∧ id ∈ m.store.ops.keys) :
    m.Resumes .reopen := by
  intro id hid
  obtain ⟨hme, hkey⟩ := hkept id hid
  obtain ⟨row, hrow, rfl⟩ := List.mem_map.mp hkey
  obtain ⟨hle, hlt⟩ := Store.le_resume hsmall hrow hme
  rw [UInt64.lt_iff_toNat_lt, UInt64.toNat_add, UInt64.toNat_one]
  omega

/-- Of all calls, each leaves the next id fresh exactly when it finds what it must. -/
theorem fresh_step (h : m.Fresh) (call : StoreCall) : (m.step call).Fresh ↔ m.Resumes call := by
  cases call with
  | nextId now => exact fresh_nextId h now
  | record io peer frame => exact fresh_record h io peer frame
  | clear io orders peer =>
    exact iff_of_true (h.congr (frames_clear io orders peer m.store) rfl) trivial
  | forget io orders peer names =>
    exact iff_of_true (h.congr (frames_forget io orders peer names m.store) rfl) trivial
  | wipe io orders =>
    exact iff_of_true (h.congr (frames_wipe io orders m.store) rfl) trivial
  | reopen => exact fresh_iff

end Minting

/-- Whatever is called in whatever order: every id that can be handed out on the way is above all
that were minted and recorded exactly when every restart finds the highest of them still there. -/
theorem restart_reissues_nothing_iff (store : Store) (calls : List StoreCall) :
    (∀ n, (run Minting.step (.start store) (calls.take n)).Fresh) ↔
      Along Minting.step Minting.Resumes (.start store) calls :=
  Along.iff_throughout (I := fun _ => True) (G := Minting.Fresh) (fun _ _ _ => trivial)
    (fun _ call _ h => Minting.fresh_step h call) trivial fun _ _ hid => absurd hid List.not_mem_nil

namespace Sample

open Core.Sample

/-- 1 says something to 2, empties the conversation, comes up again, and says something else. -/
def comesUpAgain : List StoreCall :=
  [.nextId 5, .record .ok (key 2) (.chat ⟨key 1, 1, 5⟩ "hello" none), .clear .ok .asStored (key 2),
    .reopen, .nextId 9]

end Sample

open Core.Sample Sample in
/-- The seq that 2 has seen already is handed out a second time. -/
theorem cleared_seq_is_reissued :
    let m := run Minting.step (.start (Store.fresh (key 1))) comesUpAgain
    m.minted = [⟨key 1, 1, 5⟩, ⟨key 1, 1, 9⟩] ∧ m.used = [⟨key 1, 1, 5⟩] ∧
    ¬∀ n, (run Minting.step (.start (Store.fresh (key 1))) (comesUpAgain.take n)).Fresh := by
  refine ⟨by decide +kernel, by decide +kernel, fun h => ?_⟩
  have hrestarted : (⟨key 1, 1, 5⟩ : MessageId) ∈
      (run Minting.step (.start (Store.fresh (key 1))) (comesUpAgain.take 4)).used := by
    decide +kernel
  have hnext : ((run Minting.step (.start (Store.fresh (key 1))) (comesUpAgain.take 4)).next 9) =
      ⟨key 1, 1, 9⟩ := by
    decide +kernel
  have hfresh := h 4 9 _ hrestarted
  rw [hnext] at hfresh
  exact absurd hfresh (by decide)

end Wicara.Client
