import Wicara.Client.Identity
import Wicara.Client.SealedRuns
import Wicara.Core.Envelopes
import Wicara.Core.Hex

namespace Wicara.Client

open Wicara.Core Lib Lib.Fallible Lib.Run Lib.Refinement

/-- What keys are made of: `SecretKey::from`, and `StaticSecret::from` with its `to_bytes`. -/
structure KeyBytes (C : Crypto) (S : Sealer) where
  signingKey : Bytes 32 → C.SigningKey
  prekey : Bytes 32 → S.StaticSecret
  toBytes : S.StaticSecret → Bytes 32
  prekey_toBytes : ∀ secret, prekey (toBytes secret) = secret

/-- What the start of a process meets on its way. -/
structure StartIo (S : Sealer) where
  identity : IdentityIo
  logging : Option String
  sqlite : Sqlite
  orders : SealedOrders
  path : String
  bind : Option String
  nick : Option String
  readNickname : Option String
  readPrekey : Option String
  savePrekey : Sqlite
  nonce : Nonce
  secret : S.StaticSecret

variable {C : Crypto} {S : Sealer}

/-- What is on the disk, and the process that has come up there: whose it is, and with which
prekey. -/
structure Home (S : Sealer) where
  file : IdentityFile
  tables : SealedStore
  running : Option (Identity × S.StaticSecret)

section

variable (A : Cipher) (K : KeyBytes C S)

def Identity.me (identity : Identity) : Key := C.verifyingKey (K.signingKey identity.secret)

def loadOrCreatePrekey (x : StartIo S) : EStateM String SealedStore S.StaticSecret := do
  let s ← get
  match ← lift (s.setting A x.readPrekey "prekey") with
  | some text => do
    let bytes ← lift (okOr (decodeHex false (utf8 text)) "stored prekey is not hex")
    if h : bytes.length = 32 then pure (K.prekey ⟨bytes, h⟩)
    else throw "stored prekey is not 32 bytes"
  | none => do
    SealedStore.setSetting A x.savePrekey x.nonce "prekey" (hex (K.toBytes x.secret).toList)
    pure x.secret

namespace Home

def inFile (m : EStateM String IdentityFile α) : EStateM String (Home S) α :=
  zoom Home.file (fun file home => { home with file := file }) m

def inTables (m : EStateM String SealedStore α) : EStateM String (Home S) α :=
  zoom Home.tables (fun tables home => { home with tables := tables }) m

/-- `main` and `run`, up to where the prekey is there. -/
def start (x : StartIo S) : EStateM String (Home S) PUnit := do
  modify fun home => { home with running := none }
  let identity ← inFile (loadOrCreate A x.identity)
  attempt x.logging
  inTables (SealedStore.openWith A x.sqlite x.orders x.path identity.vault (identity.me K))
  attempt x.bind
  if x.nick = none then do
    let home ← get
    let _ ← lift (home.tables.setting A x.readNickname "nickname")
  let prekey ← inTables (loadOrCreatePrekey A K x)
  modify fun home => { home with running := some (identity, prekey) }

end Home

end

/-- What happens to a home: a process comes up, if it does; one that is up works on its store, until
it ends, wherever it is; somebody puts another file in the identity's place. -/
inductive HomeEvent (S : Sealer)
  | start (x : StartIo S)
  | access (a : SealedAccess)
  | replace (file : IdentityFile)

/-- Nobody puts another file in the identity's place, and no start misses the one that is there. -/
def HomeEvent.LeavesFile : HomeEvent S → Prop
  | .start x => x.identity.metadata = none
  | .access _ => True
  | .replace _ => False

/-- It leaves the setting to whom it belongs. -/
def SealedAccess.Spares (key : String) : SealedAccess → Prop
  | .setSetting _ _ key' _ => key' ≠ key
  | .forget _ _ _ names => key ∉ names
  | _ => True

namespace Home

variable (A : Cipher) (D : Decoders) (K : KeyBytes C S)

def step (home : Home S) : HomeEvent S → Home S
  | .start x => after (start A K x) home
  | .access a =>
    if home.running.isSome then { home with tables := after (a.act A D) home.tables } else home
  | .replace file => { home with file := file }

/-- Nothing has been kept here yet. -/
structure Blank (home : Home S) : Prop where
  ops : home.tables.ops = .empty
  rooms : home.tables.rooms = .empty
  settings : home.tables.settings = .empty
  running : home.running = none

/-- A key that is not the one that a home was sealed under opens nothing of it. -/
def Apart (home : Home S) (x : StartIo S) : Prop :=
  ∀ identity file, (loadOrCreate A x.identity).run home.file = .ok identity file →
    identity.vault = home.tables.vault ∨
      ∀ row ∈ home.tables.settings.rows, ∀ text, identity.vault.openWith A row.2 ≠ .ok text

/-- What the program itself does to its store, and keys that come from passphrases. -/
def Allowed (home : Home S) : HomeEvent S → Prop
  | .start x => Apart A home x
  | .access a => a.ReadsBack D ∧ a.Spares "prekey"
  | .replace _ => True

/-- What is kept is sealed under one key, with the prekey among it, and who has come up has both. -/
structure Owned (vault : VaultKey) (prekey : S.StaticSecret) (home : Home S) : Prop where
  under : home.tables.Under A D vault
  kept : home.tables.setting A none "prekey" = .ok (some (hex (K.toBytes prekey).toList))
  running : ∀ identity p, home.running = some (identity, p) → identity.vault = vault ∧ p = prekey

end Home

section Store

variable {A : Cipher} {D : Decoders} {K : KeyBytes C S} {s : SealedStore} {vault : VaultKey}

namespace SealedStore

/-- Where `open` goes through, the key has passed the check. -/
theorem openWith_spec (io : Sqlite) (orders : SealedOrders) (path : String) (me : Key)
    (s : SealedStore) :
    wp (openWith A io orders path vault me)
      (fun _ s' => s.checkBelongsHere A io orders path vault = .ok () ∧
        ∃ contacts counter, s' = { s with
          contacts := contacts, me := me, counter := counter, vault := vault })
      (fun _ s' => ∃ contacts, s' = { s with contacts := contacts }) s := by
  simp only [openWith, wp_bind, wp_attempt, wp_modify, wp_get, wp_lift]
  refine ⟨fun _ => ⟨fun _ => ⟨fun _ => ⟨fun _ hcheck => ⟨hcheck, _, _, rfl⟩, ?_⟩, ?_⟩, ?_⟩, ?_⟩
  · exact fun _ _ => ⟨_, rfl⟩
  · exact fun _ _ => ⟨_, rfl⟩
  · exact fun _ _ => ⟨_, rfl⟩
  · exact fun _ _ => ⟨_, rfl⟩

/-- Where there is a setting it is what the key is tried on. -/
theorem checkBelongsHere_of_apart {io : Sqlite} {orders : SealedOrders} {path : String}
    (hrows : s.settings.rows ≠ [])
    (hapart : ∀ row ∈ s.settings.rows, ∀ text, vault.openWith A row.2 ≠ .ok text) :
    s.checkBelongsHere A io orders path vault =
      .error (((io 3).or (io 4)).getD (foreignMessage path)) := by
  have hne : orders.settings s.settings.rows ≠ [] := fun hnil =>
    hrows (List.perm_nil.mp (hnil ▸ (orders.settings_perm s.settings.rows).symm))
  obtain ⟨row, rows, hcons⟩ := List.exists_cons_of_ne_nil hne
  have hprobe : s.probe orders = some row.2 := by
    rw [probe, hcons]
    rfl
  have hmem : row ∈ s.settings.rows := (orders.settings_perm _).mem_iff.mp (by simp [hcons])
  unfold checkBelongsHere
  rw [hprobe]
  cases (io 3).or (io 4) with
  | some err => rfl
  | none =>
    cases hopen : vault.openWith A row.2 with
    | ok text => exact absurd hopen (hapart row hmem text)
    | error err =>
      simp only [hopen]
      rfl

theorem openWith_refused {P : PUnit → SealedStore → Prop} {io : Sqlite} {orders : SealedOrders}
    {path : String} {me : Key} (hio : ∀ i, io i = none) {err : String}
    (hcheck : s.checkBelongsHere A io orders path vault = .error err) :
    wp (openWith A io orders path vault me) P (fun err' _ => err' = err) s := by
  simp only [openWith, wp_bind, wp_attempt, wp_modify, wp_get, wp_lift, hio]
  refine ⟨fun _ => ⟨fun _ => ⟨fun _ => ⟨fun _ hok => ?_, fun _ herr => ?_⟩, by simp⟩, by simp⟩,
    by simp⟩
  · cases hok.symm.trans hcheck
  · exact Except.error.inj (herr.symm.trans hcheck)

end SealedStore

theorem fileKey_ne_prekey (id : MessageId) : fileKey id ≠ "prekey" := by
  intro h
  have := congrArg String.toList h
  simp [fileKey] at this

theorem not_mem_fileKeys (msgs : List Message) :
    "prekey" ∉ msgs.map fun m => fileKey m.id := by
  rw [List.mem_map]
  rintro ⟨m, -, h⟩
  exact fileKey_ne_prekey m.id h

theorem get_settings_deleteWhere {settings : Table String String} {p : String → String → Bool}
    (h : ∀ value, p "prekey" value = false) :
    (settings.deleteWhere p).get "prekey" = settings.get "prekey" := by
  rw [Table.get_deleteWhere]
  cases settings.get "prekey" with
  | none => rfl
  | some value => simp [h]

theorem frames_setSetting (io : Sqlite) {key : String} (h : key ≠ "prekey") (value : String) :
    Frames (fun s : Store => s.settings.get "prekey") (Store.setSetting io key value) :=
  .bind (frames_attempt _) fun _ => frames_modify fun s => by
    rw [Table.get_upsert, if_neg h.symm]

/-- The prekey is left alone by all that the program does to its store. -/
theorem frames_prekey {a : SealedAccess} (h : a.Spares "prekey") :
    Frames (fun s : Store => s.settings.get "prekey") (a.plain A D s).act := by
  cases a with
  | nextId now => exact fun _ => rfl
  | record io nonce peer frame =>
    refine Frames.ignore ?_
    unfold Store.record
    cases frame.id with
    | none => exact frames_pure _
    | some id =>
      exact .bind (frames_attempt _) fun _ => .bind (frames_modify fun _ => rfl) fun _ =>
        .bind (frames_attempt _) fun _ => .bind frames_get fun _ =>
        .bind (frames_modify fun _ => rfl) fun _ => frames_pure _
  | saveRoom io nonce id log =>
    exact .bind (frames_attempt _) fun _ => .bind (frames_modify fun _ => rfl) fun _ =>
      .bind (frames_attempt _) fun _ => frames_modify fun _ => rfl
  | setSetting io nonce key value => exact frames_setSetting _ h value
  | setFilePath io nonce id path => exact frames_setSetting _ (fileKey_ne_prekey id) path
  | clear io orders peer =>
    refine Frames.ignore (.bind frames_get fun _ => .bind (frames_lift _) fun msgs =>
      .bind (frames_attempt _) fun _ => .bind (frames_modify fun s => ?_) fun _ => frames_pure _)
    exact get_settings_deleteWhere fun _ => decide_eq_false (not_mem_fileKeys msgs)
  | forget io orders peer names =>
    refine Frames.ignore (.bind frames_get fun _ => .bind (frames_lift _) fun msgs =>
      .bind (frames_attempt _) fun _ => .bind (frames_modify fun s => ?_) fun _ => frames_pure _)
    refine get_settings_deleteWhere fun _ => ?_
    rw [decide_eq_false (not_mem_fileKeys msgs), decide_eq_false (show "prekey" ∉ names from h)]
    rfl
  | wipe io orders =>
    refine Frames.ignore (.bind frames_get fun _ => .bind (frames_lift _) fun _ =>
      .bind (frames_lift _) fun _ => .bind (frames_attempt _) fun _ =>
      .bind (frames_modify fun s => ?_) fun _ => frames_pure _)
    rw [Store.get_settings_wiped, if_pos rfl]

theorem setting_access (hA : A.Lawful) (h : s.Under A D vault) {a : SealedAccess}
    (hread : a.ReadsBack D) (hspares : a.Spares "prekey") :
    (after (a.act A D) s).setting A none "prekey" = s.setting A none "prekey" := by
  obtain ⟨hunder, hafter, -⟩ := (refines_access hA h hread).after
  rw [SealedStore.setting_reveal hunder.1, hafter, SealedStore.setting_reveal h.1]
  exact congrArg Except.ok (frames_prekey hspares (s.reveal A D))

theorem setting_ok {io : Option String} {key : String} {value : Option String}
    (h : s.setting A io key = .ok value) : s.setting A none key = .ok value := by
  cases io with
  | some err => cases h
  | none => exact h

/-- A prekey that is there is the one that is taken. -/
theorem loadOrCreatePrekey_of_kept {kept : S.StaticSecret}
    (hkept : s.setting A none "prekey" = .ok (some (hex (K.toBytes kept).toList)))
    (x : StartIo S) :
    wp (loadOrCreatePrekey A K x) (fun prekey s' => prekey = kept ∧ s' = s)
      (fun _ s' => s' = s) s := by
  simp only [loadOrCreatePrekey, wp_bind, wp_get, wp_lift]
  refine ⟨fun value hvalue => ?_, fun _ _ => trivial⟩
  obtain rfl := Except.ok.inj ((setting_ok hvalue).symm.trans hkept)
  simp only [decodeHex_hex, okOr, wp_bind, wp_lift, Except.ok.injEq, forall_eq']
  refine ⟨?_, by simp⟩
  rw [dif_pos (Bytes.length_eq _)]
  exact ⟨K.prekey_toBytes kept, rfl⟩

theorem wp_setSetting (hA : A.Lawful) (h : s.Under A D vault) (io : Sqlite) (nonce : Nonce)
    (key value : String) :
    wp (SealedStore.setSetting A io nonce key value)
      (fun _ s' => s'.Under A D vault ∧ s'.setting A none key = .ok (some value))
      (fun _ s' => s' = s) s := by
  simp only [SealedStore.setSetting, wp_bind, wp_get, wp_lift, wp_attempt, wp_modify]
  refine ⟨fun sealed hseal => ⟨fun _ => ?_, fun _ _ => trivial⟩, fun _ _ => trivial⟩
  have hopen : openText A s.vault sealed = .ok value := openText_of_sealWith hA hseal
  refine ⟨⟨h.1.upsertSetting hopen key, h.2⟩, ?_⟩
  simp only [SealedStore.setting, Table.get_upsert, if_true, hopen]
  rfl

/-- A prekey that is made is there from then on. -/
theorem loadOrCreatePrekey_of_none (hA : A.Lawful) (h : s.Under A D vault)
    (hnone : s.setting A none "prekey" = .ok none) (x : StartIo S) :
    wp (loadOrCreatePrekey A K x)
      (fun prekey s' => s'.Under A D vault ∧
        s'.setting A none "prekey" = .ok (some (hex (K.toBytes prekey).toList)))
      (fun _ s' => s' = s) s := by
  simp only [loadOrCreatePrekey, wp_bind, wp_get, wp_lift]
  refine ⟨fun value hvalue => ?_, fun _ _ => trivial⟩
  obtain rfl := Except.ok.inj ((setting_ok hvalue).symm.trans hnone)
  simp only [wp_bind, wp_pure]
  exact wp_setSetting hA h _ _ _ _

end Store

namespace Home

variable {A : Cipher} {D : Decoders} {K : KeyBytes C S} {home : Home S} {vault : VaultKey}
  {prekey : S.StaticSecret}

/-- What can come of a start: it ends before the tables are opened, with no more than contacts
added to them; or the key has passed the check, and then there is a prekey or there is none. -/
theorem start_rule {P : Home S → Prop} {x : StartIo S}
    (hdown : ∀ contacts, P ⟨after (loadOrCreate A x.identity) home.file,
      { home.tables with contacts := contacts }, none⟩)
    (hopened : ∀ identity contacts counter,
      (loadOrCreate A x.identity).run home.file =
        .ok identity (after (loadOrCreate A x.identity) home.file) →
      home.tables.checkBelongsHere A x.sqlite x.orders x.path identity.vault = .ok () →
      let tables : SealedStore := { home.tables with
        contacts := contacts, me := identity.me K, counter := counter, vault := identity.vault }
      P ⟨after (loadOrCreate A x.identity) home.file, tables, none⟩ ∧
        wp (loadOrCreatePrekey A K x)
          (fun prekey tables => P ⟨after (loadOrCreate A x.identity) home.file, tables,
            some (identity, prekey)⟩)
          (fun _ tables => P ⟨after (loadOrCreate A x.identity) home.file, tables, none⟩) tables) :
    P (after (start A K x) home) := by
  rw [← wp_after (P := P)]
  simp only [Home.start, inFile, inTables, wp_bind, wp_modify, wp_zoom, wp_attempt, wp_ite, wp_get,
    wp_lift]
  rw [wp_iff]
  constructor
  · intro identity file hrun
    obtain rfl : after (loadOrCreate A x.identity) home.file = file := by rw [after, hrun]
    refine ⟨fun _ => ?_, fun _ _ => hdown home.tables.contacts⟩
    refine wp_mono ?_ ?_ (SealedStore.openWith_spec x.sqlite x.orders x.path (identity.me K)
      home.tables)
    · rintro _ _ ⟨hcheck, contacts, counter, rfl⟩
      obtain ⟨hnone, hprekey⟩ := hopened identity contacts counter hrun hcheck
      exact ⟨fun _ => ⟨fun _ => ⟨fun _ _ => hprekey, fun _ _ => hnone⟩, fun _ => hprekey⟩,
        fun _ _ => hnone⟩
    · rintro _ _ ⟨contacts, rfl⟩
      exact hdown contacts
  · intro err file hrun
    obtain rfl : after (loadOrCreate A x.identity) home.file = file := by rw [after, hrun]
    exact hdown home.tables.contacts

theorem Owned.settings_ne_nil (h : Owned A D K vault prekey home) :
    home.tables.settings.rows ≠ [] := by
  intro hnil
  have hget : home.tables.settings.get "prekey" = none := by
    rw [Table.get, hnil]
    rfl
  have hkept := h.kept
  rw [SealedStore.setting, hget] at hkept
  cases hkept

/-- A key that is not the owner's ends the check. -/
theorem Owned.refuses (h : Owned A D K vault prekey home) {x : StartIo S} (hapart : Apart A home x)
    {identity : Identity} {file : IdentityFile}
    (hrun : (loadOrCreate A x.identity).run home.file = .ok identity file)
    (hother : identity.vault ≠ vault) (io : Sqlite) :
    home.tables.checkBelongsHere A io x.orders x.path identity.vault =
      .error (((io 3).or (io 4)).getD (SealedStore.foreignMessage x.path)) := by
  refine SealedStore.checkBelongsHere_of_apart h.settings_ne_nil ?_
  exact (hapart identity file hrun).resolve_left fun hsame => hother (hsame.trans h.under.2)

theorem Owned.passes (h : Owned A D K vault prekey home) {x : StartIo S} (hapart : Apart A home x)
    {identity : Identity} {file : IdentityFile}
    (hrun : (loadOrCreate A x.identity).run home.file = .ok identity file)
    (hcheck : home.tables.checkBelongsHere A x.sqlite x.orders x.path identity.vault = .ok ()) :
    identity.vault = vault := by
  by_contra hother
  rw [h.refuses hapart hrun hother] at hcheck
  cases hcheck

theorem Owned.start (h : Owned A D K vault prekey home) {x : StartIo S} (hapart : Apart A home x) :
    Owned A D K vault prekey (after (start A K x) home) := by
  refine start_rule (fun contacts => ⟨⟨h.under.1.addContact _, h.under.2⟩, h.kept, by simp⟩) ?_
  intro identity contacts counter hrun hcheck tables
  have hvault : identity.vault = home.tables.vault :=
    (h.passes hapart hrun hcheck).trans h.under.2.symm
  have hunder : tables.Under A D vault :=
    ⟨h.under.1.of_subset hvault (List.Subset.refl _) (List.Subset.refl _) (List.Subset.refl _),
      hvault.trans h.under.2⟩
  have hkept : tables.setting A none "prekey" =
      .ok (some (hex (K.toBytes prekey).toList)) := by
    rw [← h.kept, SealedStore.setting, SealedStore.setting, ← hvault]
  refine ⟨⟨hunder, hkept, by simp⟩, ?_⟩
  refine wp_mono ?_ ?_ (loadOrCreatePrekey_of_kept hkept x)
  · rintro p _ ⟨rfl, rfl⟩
    exact ⟨hunder, hkept, by simp [hvault, h.under.2]⟩
  · rintro _ _ rfl
    exact ⟨hunder, hkept, by simp⟩

/-- The first start that goes through makes the home somebody's. -/
theorem Blank.start (hA : A.Lawful) (h : home.Blank) (x : StartIo S) :
    let home' := after (Home.start A K x) home
    home'.Blank ∨ ∃ vault prekey, Owned A D K vault prekey home' := by
  refine start_rule (P := fun home' => home'.Blank ∨ ∃ vault prekey, Owned A D K vault prekey home')
    (fun contacts => .inl ⟨h.ops, h.rooms, h.settings, rfl⟩) ?_
  intro identity contacts counter hrun hcheck tables
  have hblank (file : IdentityFile) : (⟨file, tables, none⟩ : Home S).Blank :=
    ⟨h.ops, h.rooms, h.settings, rfl⟩
  have hunder : tables.Under A D identity.vault := by
    refine ⟨⟨?_, ?_, ?_⟩, rfl⟩
    · simp [tables, h.ops, Table.empty]
    · simp [tables, h.rooms, Table.empty]
    · simp [tables, h.settings, Table.empty]
  have hnone : tables.setting A none "prekey" = .ok none := by
    rw [SealedStore.setting, h.settings]
    rfl
  refine ⟨.inl (hblank _), wp_mono ?_ ?_ (loadOrCreatePrekey_of_none hA hunder hnone x)⟩
  · rintro prekey tables' ⟨hunder', hkept⟩
    exact .inr ⟨identity.vault, prekey, hunder', hkept, by simp⟩
  · rintro _ _ rfl
    exact .inl (hblank _)

theorem Owned.step (hA : A.Lawful) (h : Owned A D K vault prekey home) {event : HomeEvent S}
    (hallowed : Allowed A D home event) : Owned A D K vault prekey (home.step A D K event) := by
  cases event with
  | start x => exact h.start hallowed
  | replace file => exact ⟨h.under, h.kept, h.running⟩
  | access a =>
    rw [Home.step]
    split
    · exact ⟨(refines_access hA h.under hallowed.1).after.1,
        (setting_access hA h.under hallowed.1 hallowed.2).trans h.kept, h.running⟩
    · exact h

theorem Blank.step (hA : A.Lawful) (h : home.Blank) (event : HomeEvent S) :
    (home.step A D K event).Blank ∨
      ∃ vault prekey, Owned A D K vault prekey (home.step A D K event) := by
  cases event with
  | start x => exact h.start hA x
  | replace file => exact .inl ⟨h.ops, h.rooms, h.settings, h.running⟩
  | access a =>
    rw [Home.step, h.running]
    exact .inl h

/-- Once a home is somebody's, it stays theirs. -/
theorem owned_run (hA : A.Lawful) (h : home.Blank) {events : List (HomeEvent S)}
    (hallowed : Along (Home.step A D K) (Allowed A D) home events) :
    let home' := run (Home.step A D K) home events
    home'.Blank ∨ ∃ vault prekey, Owned A D K vault prekey home' := by
  have hstep : ∀ (home : Home S) (event : HomeEvent S),
      (home.Blank ∨ ∃ vault prekey, Owned A D K vault prekey home) → Allowed A D home event →
      (home.step A D K event).Blank ∨
        ∃ vault prekey, Owned A D K vault prekey (home.step A D K event) := by
    rintro home event (hblank | ⟨vault, prekey, howned⟩) hevent
    · exact hblank.step hA event
    · exact .inr ⟨vault, prekey, howned.step hA hevent⟩
  exact Along.invariant hstep (.inl h) hallowed

/-- Who is up goes by the file. -/
def Filed (A : Cipher) (home : Home S) : Prop :=
  ∀ identity p, home.running = some (identity, p) → identity.Held A home.file

theorem start_file (hA : A.Lawful) (x : StartIo S) (home : Home S) :
    let home' := after (Home.start A K x) home
    home'.Filed A ∧ (home.file ≠ none → x.identity.metadata = none → home'.file = home.file) := by
  have hfile : home.file ≠ none → x.identity.metadata = none →
      after (loadOrCreate A x.identity) home.file = home.file :=
    wp_after (P := fun file => home.file ≠ none → x.identity.metadata = none → file = home.file).mp
      (wp_mono (fun _ _ h => h.2) (fun _ _ h => h) (loadOrCreate_spec hA x.identity home.file))
  refine start_rule (P := fun home' => home'.Filed A ∧
    (home.file ≠ none → x.identity.metadata = none → home'.file = home.file))
    (fun contacts => ⟨by simp [Filed], hfile⟩) ?_
  intro identity contacts counter hrun _ tables
  have hheld := ((wp_iff.mp (loadOrCreate_spec hA x.identity home.file)).1 _ _ hrun).1
  refine ⟨⟨by simp [Filed], hfile⟩, wp_of_forall (fun prekey tables' => ⟨?_, hfile⟩)
    fun _ _ => ⟨by simp [Filed], hfile⟩⟩
  rintro _ _ ⟨⟩
  exact hheld

/-- Where the file is left to the program, it stays, and so does who comes up by it. -/
theorem filed_step (hA : A.Lawful) (h : home.Filed A) {event : HomeEvent S}
    (hleft : event.LeavesFile) :
    (home.step A D K event).Filed A ∧
      (home.file ≠ none → (home.step A D K event).file = home.file) := by
  cases event with
  | start x => exact (start_file hA x home).imp_right fun hkept hne => hkept hne hleft
  | replace file => exact hleft.elim
  | access a =>
    rw [Home.step]
    split
    · exact ⟨h, fun _ => rfl⟩
    · exact ⟨h, fun _ => rfl⟩

/-- The home of whoever was up at one moment is still theirs at a later one. -/
theorem owned_from (hA : A.Lawful) (h : home.Blank) {events : List (HomeEvent S)}
    (hallowed : Along (Home.step A D K) (Allowed A D) home events) {m n : Nat} (hmn : m ≤ n)
    {identity : Identity}
    (hm : (run (Home.step A D K) home (events.take m)).running = some (identity, prekey)) :
    Owned A D K identity.vault prekey (run (Home.step A D K) home (events.take n)) := by
  obtain ⟨k, rfl⟩ := Nat.exists_eq_add_of_le hmn
  rw [← List.take_append_drop (m + k) events, List.take_add, Along.append, Along.append] at hallowed
  obtain hblank | ⟨vault, kept, howned⟩ := owned_run hA h hallowed.1.1
  · exact absurd (hm.symm.trans hblank.running) (Option.some_ne_none _)
  · obtain ⟨rfl, rfl⟩ := howned.running _ _ hm
    rw [List.take_add, run_append]
    have hstep : ∀ (home : Home S) (event : HomeEvent S), Owned A D K identity.vault prekey home →
        Allowed A D home event → Owned A D K identity.vault prekey (home.step A D K event) :=
      fun _ _ howned hevent => howned.step hA hevent
    exact Along.invariant hstep howned hallowed.1.2

theorem filed_run (hA : A.Lawful) (h : home.Filed A) {events : List (HomeEvent S)}
    (hleft : ∀ event ∈ events, event.LeavesFile) :
    (run (Home.step A D K) home events).Filed A ∧
      (home.file ≠ none → (run (Home.step A D K) home events).file = home.file) := by
  have hstep : ∀ (home' : Home S) (event : HomeEvent S),
      home'.Filed A ∧ (home.file ≠ none → home'.file = home.file) →
      event.LeavesFile →
      (home'.step A D K event).Filed A ∧
        (home.file ≠ none → (home'.step A D K event).file = home.file) := by
    intro home' event h' hleft
    obtain ⟨hfiled, hkept⟩ := filed_step hA h'.1 hleft
    exact ⟨hfiled, fun hne => (hkept (h'.2 hne ▸ hne)).trans (h'.2 hne)⟩
  exact Along.invariant hstep ⟨h, fun _ => rfl⟩ (along_of_mem hleft home)

theorem same_identity (hA : A.Lawful) (h : home.Filed A) {events : List (HomeEvent S)}
    (hleft : ∀ event ∈ events, event.LeavesFile) {m n : Nat} (hmn : m ≤ n)
    {identity identity' : Identity} {prekey' : S.StaticSecret}
    (hvault : identity'.vault = identity.vault)
    (hm : (run (Home.step A D K) home (events.take m)).running = some (identity, prekey))
    (hn : (run (Home.step A D K) home (events.take n)).running = some (identity', prekey')) :
    identity' = identity := by
  obtain ⟨k, rfl⟩ := Nat.exists_eq_add_of_le hmn
  rw [List.take_add, run_append] at hn
  have hheld := (filed_run hA h fun event hevent =>
    hleft event (List.mem_of_mem_take hevent)).1 _ _ hm
  obtain ⟨hfiled, hkept⟩ := filed_run hA (filed_run hA h fun event hevent =>
    hleft event (List.mem_of_mem_take hevent)).1 fun event hevent =>
      hleft event (List.mem_of_mem_drop (List.mem_of_mem_take hevent))
  have hheld' := hfiled _ _ hn
  rw [hkept] at hheld'
  · exact hheld.unique hheld' hvault
  · obtain ⟨blob, hblob, -⟩ := hheld
    exact Option.ne_none_iff_exists'.mpr ⟨blob, hblob⟩

/-- A prekey outlives the process that made it: whoever comes up in a home, after however many
restarts and whatever else was done to the store, has the same one, and where the identity file has
been left alone it is the same identity.  So mail that was sealed to what one process has published
is opened by any later one. -/
theorem prekey_outlives_restarts (hA : A.Lawful) (hlaws : S.Lawful C) (h : home.Blank)
    {events : List (HomeEvent S)} (hallowed : Along (Home.step A D K) (Allowed A D) home events)
    {m n : Nat} (hmn : m ≤ n) {identity identity' : Identity} {prekey' : S.StaticSecret}
    (hm : (run (Home.step A D K) home (events.take m)).running = some (identity, prekey))
    (hn : (run (Home.step A D K) home (events.take n)).running = some (identity', prekey')) :
    identity'.vault = identity.vault ∧ prekey' = prekey ∧
      ((∀ event ∈ events, event.LeavesFile) → identity' = identity ∧
        ∀ (now : UInt64) (r : SealRun C S),
          (SignedPrekey.new C S.toSealing (K.signingKey identity.secret) prekey now).verify C
            (identity.me K) = .ok r.recipient →
          r.envelope.openWith C S.toSealing prekey' (identity'.me K) =
            .ok (r.plaintext, C.verifyingKey r.identity)) := by
  have howned := owned_from hA h hallowed hmn hm
  obtain ⟨hvault, hprekey⟩ := howned.running _ _ hn
  refine ⟨hvault, hprekey, fun hleft => ?_⟩
  have hfiled : home.Filed A := fun _ _ hrunning => by
    rw [h.running] at hrunning
    cases hrunning
  obtain rfl := same_identity hA hfiled hleft hmn hvault hm hn
  refine ⟨rfl, fun now r hverify => ?_⟩
  obtain ⟨-, howner, hkey⟩ := SignedPrekey.verify_eq_ok hverify
  rw [hprekey, ← howner]
  exact r.opens hlaws hkey

/-- A start with another key than the owner's does not come up, and takes nothing with it. -/
theorem Owned.start_refused (h : Owned A D K vault prekey home) {x : StartIo S}
    (hapart : Apart A home x) {identity : Identity} {file : IdentityFile}
    (hrun : (loadOrCreate A x.identity).run home.file = .ok identity file)
    (hother : identity.vault ≠ vault) :
    let home' := after (Home.start A K x) home
    home'.running = none ∧ home'.tables.ops = home.tables.ops ∧
      home'.tables.rooms = home.tables.rooms ∧ home'.tables.settings = home.tables.settings := by
  refine start_rule (P := fun home' => home'.running = none ∧ home'.tables.ops = home.tables.ops ∧
    home'.tables.rooms = home.tables.rooms ∧ home'.tables.settings = home.tables.settings)
    (fun contacts => ⟨rfl, rfl, rfl, rfl⟩) ?_
  intro identity' contacts counter hrun' hcheck
  rw [hrun] at hrun'
  cases hrun'
  exact absurd (h.passes hapart hrun hcheck) hother

theorem Owned.start_error (h : Owned A D K vault prekey home) {x : StartIo S}
    (hapart : Apart A home x) {identity : Identity} {file : IdentityFile}
    (hrun : (loadOrCreate A x.identity).run home.file = .ok identity file)
    (hother : identity.vault ≠ vault) (hlogging : x.logging = none)
    (hsqlite : ∀ i, x.sqlite i = none) :
    ∃ home', (Home.start A K x).run home = .error (SealedStore.foreignMessage x.path) home' := by
  have hrefused : wp (Home.start A K x) (fun _ _ => False)
      (fun err _ => err = SealedStore.foreignMessage x.path) home := by
    have hcheck := h.refuses hapart hrun hother x.sqlite
    rw [hsqlite 3, hsqlite 4] at hcheck
    simp only [Home.start, inFile, inTables, wp_bind, wp_modify, wp_zoom, wp_attempt]
    refine wp_iff.mpr ⟨fun identity' file' hrun' => ?_, fun _ _ hfailed => ?_⟩
    · rw [hrun] at hrun'
      cases hrun'
      refine ⟨fun _ => ?_, by simp [hlogging]⟩
      exact SealedStore.openWith_refused hsqlite hcheck
    · rw [hrun] at hfailed
      cases hfailed
  rcases wp_cases hrefused with ⟨_, _, _, hfalse⟩ | ⟨_, home', hrun', rfl⟩
  · exact hfalse.elim
  · exact ⟨home', hrun'⟩

/-- A home that somebody has come up in is theirs: another identity does not come up there at any
later moment.  It is told so, and nothing that the home keeps is touched. -/
theorem other_identity_is_refused (hA : A.Lawful) (h : home.Blank) {events : List (HomeEvent S)}
    (hallowed : Along (Home.step A D K) (Allowed A D) home events) {m n : Nat} (hmn : m ≤ n)
    {owner other : Identity} {file : IdentityFile} {x : StartIo S}
    (hm : (run (Home.step A D K) home (events.take m)).running = some (owner, prekey))
    (hapart : Apart A (run (Home.step A D K) home (events.take n)) x)
    (hload : (loadOrCreate A x.identity).run (run (Home.step A D K) home (events.take n)).file =
      .ok other file)
    (hother : other.vault ≠ owner.vault) :
    let now := run (Home.step A D K) home (events.take n)
    let next := now.step A D K (.start x)
    next.running = none ∧ next.tables.ops = now.tables.ops ∧
      next.tables.rooms = now.tables.rooms ∧ next.tables.settings = now.tables.settings ∧
      (x.logging = none → (∀ i, x.sqlite i = none) → ∃ home',
        (Home.start A K x).run now = .error (SealedStore.foreignMessage x.path) home') := by
  intro now next
  have howned := owned_from hA h hallowed hmn hm
  obtain ⟨hdown, hops, hrooms, hsettings⟩ := howned.start_refused hapart hload hother
  exact ⟨hdown, hops, hrooms, hsettings, howned.start_error hapart hload hother⟩

end Home

namespace Sample

open Core.Sample

def keyBytes : KeyBytes crypto box where
  signingKey secret := secret.toList.headD 0
  prekey bytes := bytes.toList.headD 0
  toBytes secret := Bytes.replicate 32 secret
  prekey_toBytes _ := rfl

/-- A start at which nothing goes wrong, with a prekey at hand in case that there is none. -/
def waking (passphrase : String) (secret : UInt8) : StartIo box where
  identity := answering passphrase
  logging := none
  sqlite _ := none
  orders := inTurn
  path := "wicara/messages.db"
  bind := none
  nick := none
  readNickname := none
  readPrekey := none
  savePrekey _ := none
  nonce := .ok (Bytes.replicate 24 5)
  secret := secret

def emptyHome : Home box := ⟨none, vacant, none⟩

/-- The owner comes up, clears up, and comes up again. -/
def days : List (HomeEvent box) :=
  [.start (waking "correct horse" 7), .access (.wipe (fun _ => none) inTurn),
    .start (waking "correct horse" 8)]

/-- Then the identity file is lost. -/
def lostDays : List (HomeEvent box) := days ++ [.replace none]

def homeAfter (n : Nat) : Home box :=
  run (Home.step cipher decoders keyBytes) emptyHome (lostDays.take n)

def whoIsUp (home : Home box) : Option (Identity × UInt8) := home.running

def owner : Identity := ⟨key 1, (homeAfter 1).tables.vault⟩

/-- Who has come across the home. -/
def intruder : StartIo box := waking "battery staple" 9

def other : Identity :=
  ((loadOrCreate cipher intruder.identity).run' none).getD ⟨key 0, ⟨key 0⟩⟩

theorem emptyHome_blank : emptyHome.Blank := ⟨rfl, rfl, rfl, rfl⟩

theorem whoIsUp_first : whoIsUp (homeAfter 1) = some (owner, 7) := by decide +kernel

theorem whoIsUp_again : whoIsUp (homeAfter 3) = some (owner, 7) := by decide +kernel

theorem days_allowed : Along (Home.step cipher decoders keyBytes)
    (Home.Allowed cipher decoders) emptyHome days := by
  refine ⟨fun _ _ _ => .inr (by simp [emptyHome, vacant, Table.empty]), ⟨trivial, trivial⟩,
    fun identity file h => .inl ?_, trivial⟩
  have hload : (loadOrCreate cipher (answering "correct horse")).run' (homeAfter 2).file =
      some owner := by decide +kernel
  obtain rfl : identity = owner :=
    Option.some.inj ((run'_eq_some.mpr ⟨file, h⟩).symm.trans hload)
  show owner.vault = (homeAfter 2).tables.vault
  decide +kernel

theorem days_left : ∀ event ∈ days, event.LeavesFile := by
  simp [days, HomeEvent.LeavesFile, waking, answering]

theorem lostDays_allowed :
    Along (Home.step cipher decoders keyBytes) (Home.Allowed cipher decoders) emptyHome lostDays :=
  Along.append.mpr ⟨days_allowed, trivial, trivial⟩

theorem intruder_loads : ∃ file, (loadOrCreate cipher intruder.identity).run (homeAfter 4).file =
    .ok other file := run'_eq_some.mp (by decide +kernel)

theorem intruder_apart : Home.Apart cipher (homeAfter 4) intruder := by
  rintro identity file h
  obtain ⟨file', hother⟩ := intruder_loads
  obtain ⟨rfl, rfl⟩ := EStateM.Result.ok.inj (h.symm.trans hother)
  have hsealed : ∀ row ∈ (homeAfter 4).tables.settings.rows,
      (other.vault.openWith cipher row.2).toOption = none := by decide +kernel
  refine .inr fun row hrow text hopen => ?_
  have hnone := hsealed row hrow
  rw [hopen] at hnone
  cases hnone

end Sample

open Sample Core.Sample in
theorem prekey_outlives_restarts_again :
    owner.vault = owner.vault ∧ (7 : UInt8) = 7 ∧ owner = owner ∧
      ∀ (now : UInt64) (r : SealRun crypto box),
        (SignedPrekey.new crypto box.toSealing (keyBytes.signingKey owner.secret) (7 : UInt8)
          now).verify crypto (owner.me keyBytes) = .ok r.recipient →
        r.envelope.openWith crypto box.toSealing (7 : UInt8) (owner.me keyBytes) =
          .ok (r.plaintext, crypto.verifyingKey r.identity) := by
  obtain ⟨hvault, hprekey, hleft⟩ := Home.prekey_outlives_restarts (m := 1) (n := 3) cipher_lawful
    box_lawful_crypto emptyHome_blank days_allowed (by decide) whoIsUp_first whoIsUp_again
  exact ⟨hvault, hprekey, hleft days_left⟩

open Sample Core.Sample in
theorem other_identity_is_refused_intruder :
    let now := run (Home.step cipher decoders keyBytes) emptyHome (lostDays.take 4)
    let next := now.step cipher decoders keyBytes (.start intruder)
    next.running = none ∧ next.tables.ops = now.tables.ops ∧
      next.tables.rooms = now.tables.rooms ∧ next.tables.settings = now.tables.settings ∧
      (intruder.logging = none → (∀ i, intruder.sqlite i = none) → ∃ home',
        (Home.start cipher keyBytes intruder).run now =
          .error (SealedStore.foreignMessage intruder.path) home') := by
  obtain ⟨file, hload⟩ := intruder_loads
  have hother : other.vault ≠ owner.vault := by decide +kernel
  exact Home.other_identity_is_refused (m := 1) (n := 4) cipher_lawful emptyHome_blank
    lostDays_allowed (by decide) whoIsUp_first intruder_apart hload hother

end Wicara.Client
