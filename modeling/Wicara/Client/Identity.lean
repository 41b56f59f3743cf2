import Mathlib.Data.List.DropRight
import Wicara.Core.Vault
import Wicara.Lib.Fallible
import Wicara.Lib.Run

namespace Wicara.Client

open Wicara.Core Lib Lib.Fallible Lib.Run

structure Identity where
  secret : Bytes 32
  vault : VaultKey
  deriving DecidableEq

/-- `MIN_PASSPHRASE` -/
def minPassphrase : Nat := 8

/-- What there is to read passphrases from: a terminal, or standard input with its line breaks. -/
structure Console where
  terminal : Bool
  lines : List (Except String String)

/-- `trim_end_matches(['\r', '\n'])` -/
def trimLine (line : String) : String :=
  String.ofList (line.toList.rdropWhile fun c => c = '\r' ∨ c = '\n')

namespace Console

def ask (console : Console) : Except String (String × Console) :=
  if console.terminal = true then
    match console.lines with
    | .ok line :: lines => .ok (line, { console with lines := lines })
    | _ => .error "reading passphrase"
  else
    match console.lines with
    | .ok line :: lines => .ok (trimLine line, { console with lines := lines })
    | .error err :: _ => .error err
    | [] => .error "no passphrase on stdin"

end Console

/-- How far `fs::write` comes: it opens the file, which empties it, and then it writes. -/
inductive FileWrite
  | written
  | notOpened
  | torn (n : Nat)

/-- What a call of `load_or_create` meets: the console, the generator, and the disk, which may
refuse to tell of the file, to be read, to make the directory, to be written, or to set the file's
mode. -/
structure IdentityIo where
  console : Console
  salt : Except String (Bytes 16)
  secret : Except String (Bytes 32)
  nonce : Except String (Bytes 24)
  metadata : Option String
  read : Option String
  makeDir : Option String
  write : FileWrite
  setMode : Option String
  path : String
  parent : String

/-- The identity file, where there is one. -/
abbrev IdentityFile := Option (List UInt8)

section

variable (A : Cipher)

def unlockMessage (x : IdentityIo) (err : String) : String :=
  s!"{err}\n\nCould not unlock {x.path}.\n" ++
  "There is no recovery for a lost passphrase — that is the design, not\n" ++
  "an oversight. To start over with a new identity, delete everything in\n" ++
  s!"{x.parent}. You will get a new EndpointId, peers will have to add you again,\n" ++
  "and your message history goes with it."

def load (x : IdentityIo) (blob : List UInt8) : Except String Identity := do
  ensure (x.read = none) s!"reading {x.path}"
  if h : saltLen < blob.length then
    let salt : Bytes 16 := ⟨blob.take saltLen, List.length_take_of_le (Nat.le_of_lt h)⟩
    let (passphrase, _) ← x.console.ask
    let vault ← VaultKey.derive A passphrase salt
    let secret ← (vault.openWith A (blob.drop saltLen)).mapError (unlockMessage x)
    if hsecret : secret.length = 32 then pure ⟨⟨secret, hsecret⟩, vault⟩
    else .error "identity file does not hold a 32-byte key"
  else .error s!"{x.path} is truncated; it is not a wicara identity file"

/-- `fs::write` -/
def writeFile (x : IdentityIo) (blob : List UInt8) : EStateM String IdentityFile PUnit :=
  match x.write with
  | .written => set (some blob)
  | .notOpened => throw s!"writing {x.path}"
  | .torn n => do
    set (some (blob.take n))
    throw s!"writing {x.path}"

def create (x : IdentityIo) : EStateM String IdentityFile Identity := do
  let (passphrase, console) ← lift x.console.ask
  lift (ensure (minPassphrase ≤ passphrase.length)
    s!"passphrase must be at least {minPassphrase} characters")
  let (again, _) ← lift console.ask
  lift (ensure (again = passphrase) "passphrases do not match")
  let salt ← lift (random x.salt)
  let vault ← lift (VaultKey.derive A passphrase salt)
  let secret ← lift (random x.secret)
  let sealed ← lift (vault.sealWith A x.nonce secret.toList)
  attempt x.makeDir
  writeFile x (salt.toList ++ sealed)
  attempt x.setMode
  pure ⟨secret, vault⟩

/-- `path.exists()` is false also of a file that the disk does not tell of. -/
def loadOrCreate (x : IdentityIo) : EStateM String IdentityFile Identity := do
  match ← get with
  | some blob => if x.metadata = none then lift (load A x blob) else create A x
  | none => create A x

end

variable {A : Cipher}

/-- What the file gives to whoever has the identity's key. -/
def Identity.Held (A : Cipher) (file : IdentityFile) (identity : Identity) : Prop :=
  ∃ blob ∈ file, identity.vault.openWith A (blob.drop saltLen) = .ok identity.secret.toList

/-- One file and one key are one identity. -/
theorem Identity.Held.unique {file : IdentityFile} {identity identity' : Identity}
    (h : identity.Held A file) (h' : identity'.Held A file)
    (hvault : identity'.vault = identity.vault) : identity' = identity := by
  obtain ⟨blob, hblob, hopen⟩ := h
  obtain ⟨blob', hblob', hopen'⟩ := h'
  obtain rfl := Option.mem_unique hblob hblob'
  rw [hvault, hopen] at hopen'
  have hsecret : identity'.secret = identity.secret :=
    Bytes.toList_injective (Except.ok.inj hopen').symm
  cases identity
  cases identity'
  simp only at hvault hsecret
  rw [hvault, hsecret]

/-- What a file has to be, and what has to be answered, for it to load. -/
theorem load_eq_ok {x : IdentityIo} {blob : List UInt8} {identity : Identity} :
    load A x blob = .ok identity ↔
      x.read = none ∧ ∃ h : saltLen < blob.length, ∃ passphrase console,
        x.console.ask = .ok (passphrase, console) ∧
        VaultKey.derive A passphrase ⟨blob.take saltLen, List.length_take_of_le (Nat.le_of_lt h)⟩ =
          .ok identity.vault ∧
        identity.vault.openWith A (blob.drop saltLen) = .ok identity.secret.toList := by
  rw [load, ensure_bind_eq_ok]
  refine and_congr_right fun _ => ?_
  split
  case isFalse hshort => exact iff_of_false (by simp) fun h => hshort h.fst
  case isTrue hlong =>
    simp only [bind_eq_ok, mapError_eq_ok, Prod.exists, exists_prop_of_true hlong]
    refine exists_congr fun passphrase => exists_congr fun console => and_congr_right fun _ => ?_
    constructor
    · rintro ⟨vault, hvault, secret, hsecret, h⟩
      split at h
      · cases h
        exact ⟨hvault, hsecret⟩
      · cases h
    · rintro ⟨hvault, hsecret⟩
      refine ⟨identity.vault, hvault, _, hsecret, ?_⟩
      rw [dif_pos identity.secret.length_eq]
      rfl

theorem writeFile_spec (x : IdentityIo) (blob : List UInt8) (file : IdentityFile) :
    wp (writeFile x blob) (fun _ file' => file' = some blob) (fun _ _ => True) file := by
  unfold writeFile
  split
  · exact rfl
  · trivial
  · trivial

theorem mk_salt (salt : Bytes 16) (sealed : List UInt8)
    (h : ((salt.toList ++ sealed).take saltLen).length = 16) :
    (⟨(salt.toList ++ sealed).take saltLen, h⟩ : Bytes 16) = salt :=
  Bytes.toList_injective (List.take_left' salt.length_eq)

theorem drop_salt (salt : Bytes 16) (sealed : List UInt8) :
    (salt.toList ++ sealed).drop saltLen = sealed := List.drop_left' salt.length_eq

/-- What has been answered, and what is in the file, when an identity has been made. -/
def Created (A : Cipher) (x : IdentityIo) (identity : Identity) (file : IdentityFile) : Prop :=
  ∃ passphrase console salt sealed, x.console.ask = .ok (passphrase, console) ∧
    minPassphrase ≤ passphrase.length ∧ VaultKey.derive A passphrase salt = .ok identity.vault ∧
    identity.vault.sealWith A x.nonce identity.secret.toList = .ok sealed ∧
    file = some (salt.toList ++ sealed)

theorem create_spec (x : IdentityIo) (file : IdentityFile) :
    wp (create A x) (fun identity => Created A x identity) (fun _ _ => True) file := by
  simp only [create, wp_bind, wp_lift, wp_attempt, ensure_eq_ok]
  refine ⟨fun asked hask => ⟨fun _ hlong => ?_, fun _ _ => trivial⟩, fun _ _ => trivial⟩
  refine ⟨fun _ _ => ⟨fun _ _ => ⟨fun salt _ => ⟨fun vault hvault => ⟨fun secret _ =>
    ⟨fun sealed hsealed => ⟨fun _ => ?_, ?_⟩, ?_⟩, ?_⟩, ?_⟩, ?_⟩, ?_⟩, ?_⟩
  · refine wp_mono (fun _ file' hfile => ⟨fun _ => ?_, fun _ _ => trivial⟩) (fun _ _ _ => trivial)
      (writeFile_spec x (salt.toList ++ sealed) file)
    exact ⟨asked.1, asked.2, salt, sealed, hask, hlong, hvault, hsealed, hfile⟩
  all_goals exact fun _ _ => trivial

theorem Created.held (hA : A.Lawful) {x : IdentityIo} {identity : Identity} {file : IdentityFile}
    (h : Created A x identity file) : identity.Held A file := by
  obtain ⟨passphrase, console, salt, sealed, -, -, -, hsealed, rfl⟩ := h
  refine ⟨_, rfl, ?_⟩
  rw [drop_salt]
  exact VaultKey.openWith_of_sealWith hA hsealed

/-- A file that is seen to be there is left as it is; one that is made holds the identity. -/
theorem loadOrCreate_spec (hA : A.Lawful) (x : IdentityIo) (file : IdentityFile) :
    wp (loadOrCreate A x)
      (fun identity file' =>
        identity.Held A file' ∧ (file ≠ none → x.metadata = none → file' = file))
      (fun _ file' => file ≠ none → x.metadata = none → file' = file) file := by
  have hcreate (hunseen : file ≠ none → x.metadata ≠ none) : wp (create A x)
      (fun identity file' =>
        identity.Held A file' ∧ (file ≠ none → x.metadata = none → file' = file))
      (fun _ file' => file ≠ none → x.metadata = none → file' = file) file :=
    wp_mono (fun identity file' h => ⟨h.held hA, fun hne hseen => absurd hseen (hunseen hne)⟩)
      (fun _ _ _ hne hseen => absurd hseen (hunseen hne)) (create_spec x file)
  simp only [loadOrCreate, wp_bind, wp_get]
  cases file with
  | some blob =>
    simp only [wp_ite, wp_lift]
    refine ⟨fun _ => ⟨fun identity h => ?_, by simp⟩, fun hunseen => hcreate fun _ => hunseen⟩
    obtain ⟨-, -, -, -, -, -, hopen⟩ := load_eq_ok.mp h
    exact ⟨⟨blob, rfl, hopen⟩, by simp⟩
  | none => exact hcreate fun hne => absurd rfl hne

theorem Created.length_eq (hA : A.Lawful) {x : IdentityIo} {identity : Identity}
    {blob : List UInt8} (h : Created A x identity (some blob)) : blob.length = 88 := by
  obtain ⟨-, -, salt, sealed, -, -, -, hsealed, hfile⟩ := h
  rw [Option.some.inj hfile, List.length_append, salt.length_eq,
    VaultKey.length_of_sealWith hA hsealed, identity.secret.length_eq]
  rfl

/-- Whoever can answer with the passphrase again has the identity again. -/
theorem Created.loads (hA : A.Lawful) {x y : IdentityIo} {identity : Identity} {blob : List UInt8}
    (h : Created A x identity (some blob)) (hread : y.read = none)
    {passphrase : String} {console console' : Console}
    (hasked : x.console.ask = .ok (passphrase, console))
    (hask : y.console.ask = .ok (passphrase, console')) : load A y blob = .ok identity := by
  have hlong : saltLen < blob.length := by
    rw [h.length_eq hA]
    decide
  obtain ⟨_, _, salt, sealed, hx, -, hvault, hsealed, hfile⟩ := h
  obtain ⟨rfl, rfl⟩ := Prod.mk.inj (Except.ok.inj (hasked.symm.trans hx))
  obtain rfl := Option.some.inj hfile
  refine load_eq_ok.mpr ⟨hread, hlong, passphrase, console', hask, ?_, ?_⟩
  · exact (congrArg _ (mk_salt salt sealed _)).trans hvault
  · rw [drop_salt]
    exact VaultKey.openWith_of_sealWith hA hsealed

/-- Nothing that is asked of the program puts another file in the place of one that it sees. -/
theorem file_run (hA : A.Lawful) (blob : List UInt8) {calls : List IdentityIo}
    (hseen : ∀ call ∈ calls, call.metadata = none) :
    run (fun file y => after (loadOrCreate A y) file) (some blob) calls = some blob := by
  have hkept : ∀ (file : IdentityFile) (y : IdentityIo), file = some blob → y.metadata = none →
      after (loadOrCreate A y) file = some blob := by
    rintro _ y rfl hy
    refine wp_after (P := fun file => file = some blob).mp
      (wp_mono ?_ ?_ (loadOrCreate_spec hA y (some blob)))
    · exact fun _ _ h => h.2 (Option.some_ne_none _) hy
    · exact fun _ _ h => h (Option.some_ne_none _) hy
  exact Along.invariant hkept rfl (along_of_mem hseen _)

/-- A key that does not open the file ends the load, with what to do about it. -/
theorem load_of_sealed {y : IdentityIo} {salt : Bytes 16} {sealed : List UInt8}
    {passphrase : String} {console : Console} {vault : VaultKey} {err : String}
    (hlong : saltLen < (salt.toList ++ sealed).length) (hread : y.read = none)
    (hask : y.console.ask = .ok (passphrase, console))
    (hvault : VaultKey.derive A passphrase salt = .ok vault)
    (hopen : vault.openWith A sealed = .error err) :
    load A y (salt.toList ++ sealed) = .error (unlockMessage y err) := by
  have hderive := (congrArg (VaultKey.derive A passphrase)
    (mk_salt salt sealed (List.length_take_of_le (Nat.le_of_lt hlong)))).trans hvault
  rw [load, ensure, if_pos hread, dif_pos hlong]
  simp only [drop_salt, hask, bind, Except.bind]
  rw [hderive]
  simp only [hopen]
  rfl

/-- An identity that has been made stays what it is: however often it is asked for, its file stays
as it was written; the passphrase that it was made with gives it back; one whose key does not open
the file is refused; and one with the same key gives the same identity.  All this as long as the
disk tells of the file: where it does not, `create` goes over it. -/
theorem identity_is_kept (hA : A.Lawful) {x : IdentityIo} {identity : Identity}
    {before file : IdentityFile} (hcreated : (create A x).run before = .ok identity file)
    {calls : List IdentityIo} (hseen : ∀ call ∈ calls, call.metadata = none) {y : IdentityIo}
    (hy : y.metadata = none) :
    let call (y : IdentityIo) := loadOrCreate A y
    run (fun file y => after (call y) file) file calls = file ∧
      ∃ salt : Bytes 16, ∃ sealed, file = some (salt.toList ++ sealed) ∧ sealed.length = 72 ∧
        (∀ identity' file', (call y).run file = .ok identity' file' →
          identity'.vault = identity.vault → identity' = identity) ∧
        ∀ passphrase console, y.read = none → y.console.ask = .ok (passphrase, console) →
          (∀ console', x.console.ask = .ok (passphrase, console') →
            (call y).run file = .ok identity file) ∧
          ∀ vault err, VaultKey.derive A passphrase salt = .ok vault →
            vault.openWith A sealed = .error err →
            (call y).run file = .error (unlockMessage y err) file := by
  intro call
  have hmade : Created A x identity file := (wp_iff.mp (create_spec x before)).1 _ _ hcreated
  obtain ⟨_, _, salt, sealed, -, -, -, hsealed, hfile⟩ := id hmade
  subst hfile
  have hrun : (call y).run (some (salt.toList ++ sealed)) =
      (lift (load A y (salt.toList ++ sealed)) : EStateM _ IdentityFile _).run
        (some (salt.toList ++ sealed)) := by
    change (if y.metadata = none then lift (load A y (salt.toList ++ sealed)) else create A y :
      EStateM _ IdentityFile _).run (some (salt.toList ++ sealed)) = _
    rw [if_pos hy]
  refine ⟨file_run hA _ hseen, salt, sealed, rfl, ?_, ?_,
    fun passphrase console hread hask => ⟨?_, ?_⟩⟩
  · rw [VaultKey.length_of_sealWith hA hsealed, identity.secret.length_eq]
    rfl
  · intro identity' file' h hvault
    obtain ⟨hheld, hkept⟩ := (wp_iff.mp (loadOrCreate_spec hA y _)).1 _ _ h
    rw [hkept (Option.some_ne_none _) hy] at hheld
    exact (hmade.held hA).unique hheld hvault
  · intro console' hasked
    rw [hrun, hmade.loads hA hread hasked hask]
    rfl
  · intro vault err hvault hopen
    rw [hrun, load_of_sealed (hmade.length_eq hA ▸ by decide) hread hask hvault hopen]
    rfl

namespace Sample

open Core.Sample

def answering (passphrase : String) : IdentityIo where
  console := ⟨true, [.ok passphrase, .ok passphrase]⟩
  salt := .ok (Bytes.replicate 16 3)
  secret := .ok (key 1)
  nonce := .ok (Bytes.replicate 24 4)
  metadata := none
  read := none
  makeDir := none
  write := .written
  setMode := none
  path := "wicara/identity.key"
  parent := "wicara"

def horse : Identity :=
  ((create cipher (answering "correct horse")).run' none).getD ⟨key 0, ⟨key 0⟩⟩

theorem horse_created : ∃ file, (create cipher (answering "correct horse")).run none =
    .ok horse file := run'_eq_some.mp (by decide +kernel)

end Sample

open Sample Core.Sample in
theorem identity_is_kept_horse : ∃ file,
    run (fun file y => after (loadOrCreate cipher y) file) file [answering "battery staple"] =
        file ∧
      ∃ salt : Bytes 16, ∃ sealed, file = some (salt.toList ++ sealed) ∧ sealed.length = 72 ∧
        (∀ identity' file', (loadOrCreate cipher (answering "correct horse")).run file =
          .ok identity' file' → identity'.vault = horse.vault → identity' = horse) ∧
        ∀ passphrase console, (answering "correct horse").read = none →
          (answering "correct horse").console.ask = .ok (passphrase, console) →
          (∀ console', (answering "correct horse").console.ask = .ok (passphrase, console') →
            (loadOrCreate cipher (answering "correct horse")).run file = .ok horse file) ∧
          ∀ vault err, VaultKey.derive cipher passphrase salt = .ok vault →
            vault.openWith cipher sealed = .error err →
            (loadOrCreate cipher (answering "correct horse")).run file =
              .error (unlockMessage (answering "correct horse") err) file := by
  obtain ⟨file, hcreated⟩ := horse_created
  exact ⟨file, identity_is_kept cipher_lawful hcreated (by simp [answering]) rfl⟩

end Wicara.Client
