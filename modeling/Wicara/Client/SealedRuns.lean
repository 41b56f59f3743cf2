import Wicara.Client.Unsealing
import Wicara.Core.Framing
import Mathlib.Logic.Function.Basic

namespace Wicara.Client

open Wicara.Core Lib Lib.Fallible Lib.Refinement Lib.Run

/-- What a result says if it is an error. -/
def failure (x : Except ε α) : Option ε :=
  match x with
  | .ok _ => none
  | .error e => some e

/-- The statements of a call of which the `n`th has to seal something first. -/
def Sqlite.sealing (io : Sqlite) (n : Nat) (value : Except String α) : Sqlite :=
  Function.update io n ((failure value).or (io n))

/-- The statements of `open` with those of its check. -/
def Sqlite.checking (io : Sqlite) : Sqlite :=
  Function.update io 2 ((io 2).or ((io 3).or (io 4)))

section Sealing

variable {io : Sqlite} {n : Nat} {value : Except String α}

theorem Sqlite.sealing_ok {a : α} (h : value = .ok a) : io.sealing n value = io := by
  rw [Sqlite.sealing, h]
  exact Function.update_eq_self n io

theorem Sqlite.sealing_error {err : String} (h : value = .error err) :
    io.sealing n value n = some err := by
  rw [Sqlite.sealing, h, Function.update_self]
  rfl

theorem Sqlite.sealing_of_ne {k : Nat} (h : k ≠ n) : io.sealing n value k = io k :=
  Function.update_of_ne h _ _

end Sealing

namespace SealedStore

variable {A : Cipher} {D : Decoders} {s : SealedStore} {vault : VaultKey}

section Intact

theorem Intact.addContact (h : s.Intact A D) (contacts : Table Key Unit) :
    ({ s with contacts := contacts } : SealedStore).Intact A D := ⟨h.ops, h.rooms, h.settings⟩

theorem Intact.counter (h : s.Intact A D) (me : Key) (counter : Counter) :
    ({ s with me := me, counter := counter } : SealedStore).Intact A D :=
  ⟨h.ops, h.rooms, h.settings⟩

theorem Intact.insertOp (h : s.Intact A D) {payload : List UInt8} {frame : Frame}
    (hopen : openOp A D s.vault payload = .ok frame) (id : MessageId) (peer : Key) :
    ({ s with ops := s.ops.insertOrIgnore id (peer, payload) } : SealedStore).Intact A D := by
  refine ⟨fun row hrow => ?_, h.rooms, h.settings⟩
  rcases Table.mem_insertOrIgnore hrow with hrow | ⟨-, rfl⟩
  · exact h.ops row hrow
  · exact ⟨frame, hopen⟩

theorem forall_upsert {κ ν : Type} [DecidableEq κ] (P : ν → Prop) {t : Table κ ν}
    (h : ∀ row ∈ t.rows, P row.2) {v : ν} (hv : P v) (k : κ) :
    ∀ row ∈ (t.upsert k v).rows, P row.2 := by
  intro row hrow
  have hget := Table.get_eq_some.mpr hrow
  rw [Table.get_upsert] at hget
  split at hget
  · obtain rfl := Option.some.inj hget
    exact hv
  · exact h row (Table.get_eq_some.mp hget)

theorem Intact.upsertRoom (h : s.Intact A D) {sealed : List UInt8} {log : List RoomEntry}
    (hopen : openLog A D s.vault sealed = .ok log) (id : RoomId) :
    ({ s with rooms := s.rooms.upsert id sealed } : SealedStore).Intact A D :=
  ⟨h.ops, forall_upsert (fun sealed => ∃ log, openLog A D s.vault sealed = .ok log) h.rooms
    ⟨log, hopen⟩ id, h.settings⟩

theorem Intact.upsertSetting (h : s.Intact A D) {sealed : List UInt8} {text : String}
    (hopen : openText A s.vault sealed = .ok text) (key : String) :
    ({ s with settings := s.settings.upsert key sealed } : SealedStore).Intact A D :=
  ⟨h.ops, h.rooms, forall_upsert (fun sealed => ∃ text, openText A s.vault sealed = .ok text)
    h.settings ⟨text, hopen⟩ key⟩

/-- What is taken out harms nothing that stays. -/
theorem Intact.of_subset {s' : SealedStore} (h : s.Intact A D) (hvault : s'.vault = s.vault)
    (hops : s'.ops.rows ⊆ s.ops.rows) (hrooms : s'.rooms.rows ⊆ s.rooms.rows)
    (hsettings : s'.settings.rows ⊆ s.settings.rows) : s'.Intact A D := by
  refine ⟨fun row hrow => ?_, fun row hrow => ?_, fun row hrow => ?_⟩ <;> rw [hvault]
  · exact h.ops row (hops hrow)
  · exact h.rooms row (hrooms hrow)
  · exact h.settings row (hsettings hrow)

theorem rows_deleteWhere_subset {κ : Type u} {ν : Type v} (p : κ → ν → Bool) (t : Table κ ν) :
    (t.deleteWhere p).rows ⊆ t.rows := List.filter_sublist.subset

theorem Intact.forgotten (h : s.Intact A D) (msgs : List Message) (peer : Key)
    (names : List String) : (s.forgotten msgs peer names).Intact A D :=
  h.of_subset rfl (rows_deleteWhere_subset _ _) (rows_deleteWhere_subset _ _)
    (rows_deleteWhere_subset _ _)

theorem Intact.cleared (h : s.Intact A D) (msgs : List Message) (peer : Key) :
    (s.cleared msgs peer).Intact A D :=
  h.of_subset rfl (rows_deleteWhere_subset _ _) (List.Subset.refl _) (rows_deleteWhere_subset _ _)

theorem Intact.wiped (h : s.Intact A D) : s.wiped.Intact A D :=
  h.of_subset rfl (List.nil_subset _) (List.nil_subset _) (rows_deleteWhere_subset _ _)

end Intact

section Reveal

theorem reveal_forgotten (msgs : List Message) (peer : Key) (names : List String) :
    (s.forgotten msgs peer names).reveal A D = (s.reveal A D).forgotten msgs peer names := by
  simp only [reveal, forgotten, Store.forgotten, Table.mapValues_erase]
  rw [Table.mapValues_deleteWhere, Table.mapValues_deleteWhere] <;> exact fun _ _ => rfl

theorem reveal_cleared (msgs : List Message) (peer : Key) :
    (s.cleared msgs peer).reveal A D = (s.reveal A D).cleared msgs peer := by
  simp only [reveal, cleared, Store.cleared]
  rw [Table.mapValues_deleteWhere, Table.mapValues_deleteWhere] <;> exact fun _ _ => rfl

theorem reveal_wiped : s.wiped.reveal A D = (s.reveal A D).wiped := by
  simp only [reveal, wiped, Store.wiped, Table.mapValues_empty]
  rw [Table.mapValues_deleteWhere]
  exact fun _ _ => rfl

theorem reveal_insertOp {payload : List UInt8} {frame : Frame}
    (hopen : openOp A D s.vault payload = .ok frame) (id : MessageId) (peer : Key) :
    ({ s with ops := s.ops.insertOrIgnore id (peer, payload) } : SealedStore).reveal A D =
      { s.reveal A D with ops := (s.reveal A D).ops.insertOrIgnore id (peer, frame) } := by
  simp only [reveal, Table.mapValues_insertOrIgnore, revealOp, hopen, Except.toOption,
    Option.getD_some]

theorem reveal_upsertRoom {sealed : List UInt8} {log : List RoomEntry}
    (hopen : openLog A D s.vault sealed = .ok log) (id : RoomId) :
    ({ s with rooms := s.rooms.upsert id sealed } : SealedStore).reveal A D =
      { s.reveal A D with rooms := (s.reveal A D).rooms.upsert id log } := by
  simp only [reveal, Table.mapValues_upsert, revealLog, hopen, Except.toOption, Option.getD_some]

theorem reveal_upsertSetting {sealed : List UInt8} {text : String}
    (hopen : openText A s.vault sealed = .ok text) (key : String) :
    ({ s with settings := s.settings.upsert key sealed } : SealedStore).reveal A D =
      { s.reveal A D with settings := (s.reveal A D).settings.upsert key text } := by
  simp only [reveal, Table.mapValues_upsert, revealText, hopen, Except.toOption, Option.getD_some]

end Reveal

section Calls

theorem refines_nextId (h : s.Under A D vault) (now : UInt64) :
    Refines (reveal A D) (Under A D vault) s (nextId now) (Store.nextId now) :=
  ⟨⟨h.1.counter _ _, h.2⟩, rfl⟩

theorem refines_setSetting (hA : A.Lawful) (h : s.Under A D vault) (io : Sqlite) (nonce : Nonce)
    (key value : String) :
    Refines (reveal A D) (Under A D vault) s (setSetting A io nonce key value)
      (Store.setSetting (io.sealing 0 (vault.sealWith A nonce (utf8 value))) key value) := by
  obtain ⟨hintact, rfl⟩ := h
  refine refines_get_left (refines_lift_bind (fun sealed hseal => ?_) fun err hseal => ?_)
  · rw [Sqlite.sealing_ok hseal]
    refine (refines_attempt ⟨hintact, rfl⟩ (io 0)).bind fun _ s' h' _ => ?_
    have hopen : openText A s'.vault sealed = .ok value := by
      rw [h'.2]
      exact openText_of_sealWith hA hseal
    exact refines_modify ⟨h'.1.upsertSetting hopen key, h'.2⟩ (reveal_upsertSetting hopen key)
  · rw [Store.setSetting, Sqlite.sealing_error hseal]
    exact ⟨⟨hintact, rfl⟩, rfl⟩

theorem refines_addContact (h : s.Under A D vault) (key : Key) :
    Refines (reveal A D) (Under A D vault) s
      (modify fun s => { s with contacts := s.contacts.insertOrIgnore key () } :
        EStateM String SealedStore PUnit)
      (modify fun s => { s with contacts := s.contacts.insertOrIgnore key () }) :=
  refines_modify ⟨h.1.addContact _, h.2⟩ rfl

theorem refines_record (hA : A.Lawful) (h : s.Under A D vault) (io : Sqlite) (nonce : Nonce)
    (peer : Key) {frame : Frame} (hread : D.frame frame.toStdvec = .ok frame) :
    Refines (reveal A D) (Under A D vault) s (record A io nonce peer frame)
      (Store.record (io.sealing 0 (vault.sealWith A nonce frame.toStdvec)) peer frame) := by
  obtain ⟨hintact, rfl⟩ := h
  unfold record Store.record
  cases frame.id with
  | none => exact refines_pure ⟨hintact, rfl⟩ false
  | some id =>
    refine refines_get_left (refines_lift_bind (fun payload hseal => ?_) fun err hseal => ?_)
    · rw [Sqlite.sealing_ok hseal]
      refine (refines_attempt ⟨hintact, rfl⟩ (io 0)).bind fun _ s₁ h₁ _ => ?_
      refine (refines_addContact h₁ peer).bind fun _ s₂ h₂ _ => ?_
      refine (refines_attempt h₂ (io 1)).bind fun _ s₃ h₃ _ => refines_get ?_
      have hopen : openOp A D s₃.vault payload = .ok frame := by
        rw [h₃.2]
        exact openOp_of_sealWith hA hread hseal
      refine (refines_modify ⟨h₃.1.insertOp hopen id peer, h₃.2⟩
        (reveal_insertOp hopen id peer)).bind fun _ s₄ h₄ _ => ?_
      have hkeys : (s₃.reveal A D).ops.keys = s₃.ops.keys := Table.keys_mapValues _ _
      rw [hkeys]
      exact refines_pure h₄ _
    · rw [Sqlite.sealing_error hseal]
      exact ⟨⟨hintact, rfl⟩, rfl⟩

theorem refines_saveRoom (hA : A.Lawful) (h : s.Under A D vault) (io : Sqlite) (nonce : Nonce)
    (id : RoomId) {log : List RoomEntry} (hread : D.log (logToStdvec log) = .ok log) :
    Refines (reveal A D) (Under A D vault) s (saveRoom A io nonce id log)
      (Store.saveRoom (io.sealing 1 (vault.sealWith A nonce (logToStdvec log))) id log) := by
  unfold saveRoom Store.saveRoom
  rw [Sqlite.sealing_of_ne (by decide : 0 ≠ 1)]
  refine (refines_attempt h (io 0)).bind fun _ s₁ h₁ _ => ?_
  refine (refines_addContact h₁ id).bind fun _ s₂ h₂ _ => ?_
  obtain ⟨hintact, rfl⟩ := h₂
  refine refines_get_left (refines_lift_bind (fun sealed hseal => ?_) fun err hseal => ?_)
  · rw [Sqlite.sealing_ok hseal]
    refine (refines_attempt ⟨hintact, rfl⟩ (io 1)).bind fun _ s₃ h₃ _ => ?_
    have hopen : openLog A D s₃.vault sealed = .ok log := by
      rw [h₃.2]
      exact openLog_of_sealWith hA hread hseal
    exact refines_modify ⟨h₃.1.upsertRoom hopen id, h₃.2⟩ (reveal_upsertRoom hopen id)
  · rw [Sqlite.sealing_error hseal]
    exact ⟨⟨hintact, rfl⟩, rfl⟩

theorem refines_clear (h : s.Under A D vault) (io : Sqlite) (orders : SealedOrders) (peer : Key) :
    Refines (reveal A D) (Under A D vault) s (clear A D io orders peer)
      (Store.clear io (orders.revealed A D s) peer) := by
  refine refines_get ?_
  rw [← history_reveal h.1]
  refine (refines_lift h _).bind fun msgs s₁ h₁ _ => ?_
  refine (refines_attempt h₁ (io 1)).bind fun _ s₂ h₂ _ => ?_
  refine (refines_modify ⟨h₂.1.cleared msgs peer, h₂.2⟩ (reveal_cleared msgs peer)).bind
    fun _ s₃ h₃ _ => ?_
  exact refines_pure h₃ _

theorem refines_forget (h : s.Under A D vault) (io : Sqlite) (orders : SealedOrders) (peer : Key)
    (names : List String) :
    Refines (reveal A D) (Under A D vault) s (forget A D io orders peer names)
      (Store.forget io (orders.revealed A D s) peer names) := by
  refine refines_get ?_
  rw [← history_reveal h.1]
  refine (refines_lift h _).bind fun msgs s₁ h₁ _ => ?_
  refine (refines_attempt h₁ (io 1)).bind fun _ s₂ h₂ _ => ?_
  refine (refines_modify ⟨h₂.1.forgotten msgs peer names, h₂.2⟩
    (reveal_forgotten msgs peer names)).bind fun _ s₃ h₃ _ => ?_
  exact refines_pure h₃ _

theorem refines_wipe (h : s.Under A D vault) (io : Sqlite) (orders : SealedOrders) :
    Refines (reveal A D) (Under A D vault) s (wipe A D io orders)
      (Store.wipe io (orders.revealed A D s)) := by
  refine refines_get ?_
  rw [← peers_reveal]
  refine (refines_lift h _).bind fun peers s₁ h₁ _ => ?_
  rw [← attachmentsOf_reveal h.1]
  refine (refines_lift h₁ _).bind fun files s₂ h₂ _ => ?_
  refine (refines_attempt h₂ (io 2)).bind fun _ s₃ h₃ _ => ?_
  refine (refines_modify ⟨h₃.1.wiped, h₃.2⟩ reveal_wiped).bind fun _ s₄ h₄ _ => ?_
  exact refines_pure h₄ _

theorem exists_openWith_of_probe (h : s.Intact A D) {orders : SealedOrders} {sealed : List UInt8}
    (hprobe : s.probe orders = some sealed) :
    ∃ plaintext, s.vault.openWith A sealed = .ok plaintext := by
  rw [probe, Option.or_eq_some_iff] at hprobe
  rcases hprobe with hsetting | ⟨-, hop⟩
  · obtain ⟨row, hrow, rfl⟩ := Option.map_eq_some_iff.mp hsetting
    have hmem := (orders.settings_perm _).mem_iff.mp (List.mem_of_head? hrow)
    obtain ⟨text, htext⟩ := h.settings row hmem
    obtain ⟨plaintext, hopen, -⟩ := bind_eq_ok.mp htext
    exact ⟨plaintext, hopen⟩
  · obtain ⟨row, hrow, rfl⟩ := Option.map_eq_some_iff.mp hop
    have hmem := (orders.ops_perm _).mem_iff.mp (List.mem_of_head? hrow)
    obtain ⟨frame, hframe⟩ := h.ops row hmem
    obtain ⟨plaintext, hopen, -⟩ := bind_eq_ok.mp hframe
    exact ⟨plaintext, hopen⟩

/-- Whoever has the key passes the check. -/
theorem checkBelongsHere_eq (h : s.Under A D vault) (io : Sqlite) (orders : SealedOrders)
    (path : String) : s.checkBelongsHere A io orders path vault =
      match (io 3).or (io 4) with
      | some err => .error err
      | none => .ok () := by
  obtain ⟨hintact, rfl⟩ := h
  rw [checkBelongsHere]
  cases (io 3).or (io 4) with
  | some err => rfl
  | none =>
    cases hprobe : s.probe orders with
    | none => rfl
    | some sealed =>
      obtain ⟨plaintext, hopen⟩ := exists_openWith_of_probe hintact hprobe
      simp only [hopen]

theorem contacts_of_ops : (s.reveal A D).ops.rows.map (fun r => r.2.1) =
    s.ops.rows.map fun r => r.2.1 := by
  rw [reveal, Table.rows_mapValues, List.map_map]
  rfl

theorem resume_reveal (me : Key) : (s.reveal A D).resume me = s.resume me := by
  rw [Store.resume, resume, reveal, Table.rows_mapValues, List.filter_map, List.map_map]
  rfl

theorem refines_openWith (h : s.Under A D vault) (io : Sqlite) (orders : SealedOrders)
    (path : String) (me : Key) :
    Refines (reveal A D) (Under A D vault) s (openWith A io orders path vault me)
      (Store.openWith io.checking me) := by
  unfold openWith Store.openWith
  have hfirst : io.checking 0 = io 0 := Function.update_of_ne (by decide) _ _
  have hsecond : io.checking 1 = io 1 := Function.update_of_ne (by decide) _ _
  have hthird : io.checking 2 = (io 2).or ((io 3).or (io 4)) := Function.update_self _ _ _
  rw [hfirst, hsecond, hthird]
  refine (refines_attempt h (io 0)).bind fun _ s₁ h₁ _ => ?_
  refine (refines_modify ⟨h₁.1.addContact _, h₁.2⟩ ?_).bind fun _ s₂ h₂ _ => ?_
  · rw [contacts_of_ops]
    rfl
  refine (refines_attempt h₂ (io 1)).bind fun _ s₃ h₃ _ => ?_
  refine (refines_modify ⟨h₃.1.addContact _, h₃.2⟩ ?_).bind fun _ s₄ h₄ _ => ?_
  · rw [show (s₃.reveal A D).rooms.keys = s₃.rooms.keys from Table.keys_mapValues _ _]
    rfl
  cases io 2 with
  | some err => exact ⟨h₄, rfl⟩
  | none =>
    change Refines (reveal A D) (Under A D vault) s₄
      (lift (s₄.checkBelongsHere A io orders path vault) >>= fun _ =>
        modify fun s => { s with me := me, counter := ⟨me, s.resume me⟩, vault := vault }) _
    rw [checkBelongsHere_eq h₄]
    cases (io 3).or (io 4) with
    | some err => exact ⟨h₄, rfl⟩
    | none =>
      obtain ⟨hintact, rfl⟩ := h₄
      refine refines_modify ⟨hintact.counter _ _, rfl⟩ ?_
      rw [resume_reveal]
      rfl

end Calls

end SealedStore

/-- The call that an access is to the store under the seals. -/
def SealedAccess.plain (A : Cipher) (D : Decoders) (s : SealedStore) : SealedAccess → Access
  | .nextId now => .nextId now
  | .record io nonce peer frame =>
    .record (io.sealing 0 (s.vault.sealWith A nonce frame.toStdvec)) peer frame
  | .saveRoom io nonce id log =>
    .saveRoom (io.sealing 1 (s.vault.sealWith A nonce (logToStdvec log))) id log
  | .setSetting io nonce key value =>
    .setSetting (io.sealing 0 (s.vault.sealWith A nonce (utf8 value))) key value
  | .setFilePath io nonce id path =>
    .setFilePath (io.sealing 0 (s.vault.sealWith A nonce (utf8 path))) id path
  | .clear io orders peer => .clear io (orders.revealed A D s) peer
  | .forget io orders peer names => .forget io (orders.revealed A D s) peer names
  | .wipe io orders => .wipe io (orders.revealed A D s)

/-- What `postcard` writes of what is recorded it reads back. -/
def SealedAccess.ReadsBack (D : Decoders) : SealedAccess → Prop
  | .record _ _ _ frame => D.frame frame.toStdvec = .ok frame
  | .saveRoom _ _ _ log => D.log (logToStdvec log) = .ok log
  | _ => True

/-- The tables on the disk, and whether a store is open on them. -/
structure SealedDatabase where
  tables : SealedStore
  isOpen : Bool

inductive SealedDatabaseCall
  | reopen (io : Sqlite) (orders : SealedOrders) (path : String) (vault : VaultKey) (me : Key)
  | access (a : SealedAccess)

namespace SealedDatabase

variable (A : Cipher) (D : Decoders)

def step (db : SealedDatabase) : SealedDatabaseCall → SealedDatabase
  | .reopen io orders path vault me =>
    ⟨after (SealedStore.openWith A io orders path vault me) db.tables,
      succeeds (SealedStore.openWith A io orders path vault me) db.tables⟩
  | .access a => if db.isOpen = true then ⟨after (a.act A D) db.tables, true⟩ else db

def reveal (db : SealedDatabase) : Database := ⟨db.tables.reveal A D, db.isOpen⟩

/-- The call that it is to the database under the seals. -/
def plain (db : SealedDatabase) : SealedDatabaseCall → DatabaseCall
  | .reopen io _ _ _ me => .reopen io.checking me
  | .access a => .access (a.plain A D db.tables)

/-- The tables are opened with one key all along. -/
def Allowed (D : Decoders) (vault : VaultKey) : SealedDatabaseCall → Prop
  | .reopen _ _ _ key _ => key = vault
  | .access a => a.ReadsBack D

end SealedDatabase

section Runs

variable {A : Cipher} {D : Decoders} {vault : VaultKey}

theorem refines_access (hA : A.Lawful) {s : SealedStore} (h : s.Under A D vault) {a : SealedAccess}
    (hread : a.ReadsBack D) :
    Refines (SealedStore.reveal A D) (SealedStore.Under A D vault) s (a.act A D)
      (a.plain A D s).act := by
  obtain ⟨hintact, rfl⟩ := h
  cases a with
  | nextId now => exact (SealedStore.refines_nextId ⟨hintact, rfl⟩ now).ignore
  | record io nonce peer frame =>
    exact (SealedStore.refines_record hA ⟨hintact, rfl⟩ io nonce peer hread).ignore
  | saveRoom io nonce id log =>
    exact SealedStore.refines_saveRoom hA ⟨hintact, rfl⟩ io nonce id hread
  | setSetting io nonce key value =>
    exact SealedStore.refines_setSetting hA ⟨hintact, rfl⟩ io nonce key value
  | setFilePath io nonce id path =>
    exact SealedStore.refines_setSetting hA ⟨hintact, rfl⟩ io nonce (fileKey id) path
  | clear io orders peer => exact (SealedStore.refines_clear ⟨hintact, rfl⟩ io orders peer).ignore
  | forget io orders peer names =>
    exact (SealedStore.refines_forget ⟨hintact, rfl⟩ io orders peer names).ignore
  | wipe io orders => exact (SealedStore.refines_wipe ⟨hintact, rfl⟩ io orders).ignore

theorem SealedDatabase.refines_step (hA : A.Lawful) (db : SealedDatabase)
    (call : SealedDatabaseCall) (h : db.tables.Under A D vault)
    (hallowed : SealedDatabase.Allowed D vault call) :
    (db.step A D call).tables.Under A D vault ∧
      (db.step A D call).reveal A D = (db.reveal A D).step (db.plain A D call) := by
  cases call with
  | reopen io orders path key me =>
    obtain rfl : key = vault := hallowed
    obtain ⟨hunder, hafter, hsucceeds⟩ :=
      (SealedStore.refines_openWith h io orders path me).after
    refine ⟨hunder, ?_⟩
    simp only [reveal, SealedDatabase.step, plain, Database.step, hafter, hsucceeds]
  | access a =>
    obtain ⟨hunder, hafter, -⟩ := (refines_access hA h hallowed).after
    unfold SealedDatabase.step plain Database.step reveal
    dsimp only
    split
    · exact ⟨hunder, congrArg (Database.mk · true) hafter⟩
    · exact ⟨h, rfl⟩

/-- The store on the disk is the store under the seals, in every run of calls that open it with
one key: whatever can be read out of it at any moment is what the plain store holds after the
same calls, and no seal on it is broken. -/
theorem sealed_store_is_the_store (hA : A.Lawful) {db : SealedDatabase}
    {calls : List SealedDatabaseCall} (h : db.tables.Under A D vault)
    (hallowed : ∀ call ∈ calls, SealedDatabase.Allowed D vault call) (n : Nat) :
    let now := run (SealedDatabase.step A D) db (calls.take n)
    let plain := run Database.step (db.reveal A D)
      (translated (SealedDatabase.step A D) (SealedDatabase.plain A D) db (calls.take n))
    now.tables.Intact A D ∧ now.isOpen = plain.isOpen ∧
      (∀ io orders, ∃ orders', now.tables.peers io orders = plain.tables.peers io orders' ∧
        ∀ peer limit, now.tables.history A D io orders peer limit =
          plain.tables.history io orders' peer limit) ∧
      (∀ io key, now.tables.setting A io key = plain.tables.setting io key) ∧
      now.tables.roomLogs A D none = .ok plain.tables.rooms.rows := by
  intro now plain
  have hmem : ∀ call ∈ calls.take n, SealedDatabase.Allowed D vault call :=
    fun call hcall => hallowed call (List.mem_of_mem_take hcall)
  obtain ⟨⟨hintact, -⟩, hreveal⟩ := run_refines (f := SealedDatabase.reveal A D)
    (g := SealedDatabase.plain A D)
    (fun db call hdb hcall => SealedDatabase.refines_step hA db call hdb hcall) h
    (along_of_mem hmem db)
  have htables : plain.tables = now.tables.reveal A D := (congrArg Database.tables hreveal).symm
  refine ⟨hintact, congrArg Database.isOpen hreveal, fun io orders => ?_, fun io key => ?_, ?_⟩
  · refine ⟨orders.revealed A D now.tables, ?_, fun peer limit => ?_⟩ <;> rw [htables]
    · exact SealedStore.peers_reveal io orders
    · exact SealedStore.history_reveal hintact io orders peer limit
  · rw [htables]
    exact SealedStore.setting_reveal hintact io key
  · rw [htables]
    exact SealedStore.roomLogs_reveal hintact none

end Runs

namespace Sample

open Core.Sample

theorem settings_in_turn (l : List (String × List UInt8)) : (id l).Perm l := .refl l

theorem reactions_in_turn (l : List ((MessageId × String × Key) × Bool)) : (id l).Perm l := .refl l

def inTurn : SealedOrders where
  ops := id
  ops_perm := List.Perm.refl
  settings := id
  settings_perm := settings_in_turn
  contacts := id
  contacts_perm := List.Perm.refl
  reactions := id
  reactions_perm := reactions_in_turn

def vacant : SealedStore where
  me := key 1
  counter := ⟨key 1, 0⟩
  vault := ⟨key 9⟩
  ops := .empty
  rooms := .empty
  settings := .empty
  contacts := .empty

def shopping : Frame := .chat ⟨key 2, 5, 1⟩ "milk" none

def decoders : Decoders where
  frame := frameAmong [shopping]
  log := decodeAmong []

theorem vacant_under : vacant.Under cipher decoders ⟨key 9⟩ := by
  refine ⟨⟨?_, ?_, ?_⟩, rfl⟩ <;> simp [vacant, Table.empty]

/-- 2 has written to 1, who is called Ada; a write to the disk fails in between. -/
def diary : List SealedDatabaseCall :=
  [.reopen (fun _ => none) inTurn "messages.db" ⟨key 9⟩ (key 1),
    .access (.record (fun _ => none) (.ok (Bytes.replicate 24 1)) (key 2) shopping),
    .access (.setSetting (fun _ => some "disk I/O error") (.ok (Bytes.replicate 24 2))
      "nickname" "Eve"),
    .access (.setSetting (fun _ => none) (.ok (Bytes.replicate 24 3)) "nickname" "Ada")]

theorem diary_allowed : ∀ call ∈ diary, SealedDatabase.Allowed decoders ⟨key 9⟩ call := by
  have hread : decoders.frame shopping.toStdvec = .ok shopping := by decide +kernel
  simpa [diary, SealedDatabase.Allowed, SealedAccess.ReadsBack] using hread

end Sample

open Sample Core.Sample in
theorem sealed_store_is_the_store_diary :
    let now := run (SealedDatabase.step cipher decoders) ⟨vacant, false⟩ (diary.take 4)
    let plain := run Database.step (SealedDatabase.reveal cipher decoders ⟨vacant, false⟩)
      (translated (SealedDatabase.step cipher decoders) (SealedDatabase.plain cipher decoders)
        ⟨vacant, false⟩ (diary.take 4))
    now.tables.Intact cipher decoders ∧ now.isOpen = plain.isOpen ∧
      (∀ io orders, ∃ orders', now.tables.peers io orders = plain.tables.peers io orders' ∧
        ∀ peer limit, now.tables.history cipher decoders io orders peer limit =
          plain.tables.history io orders' peer limit) ∧
      (∀ io key, now.tables.setting cipher io key = plain.tables.setting io key) ∧
      now.tables.roomLogs cipher decoders none = .ok plain.tables.rooms.rows :=
  sealed_store_is_the_store cipher_lawful vacant_under diary_allowed 4

end Wicara.Client
