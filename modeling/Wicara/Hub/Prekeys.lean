import Mathlib.Data.List.Sort
import Wicara.Core.Transcripts
import Wicara.Hub.MailTasks

namespace Wicara.Hub

open Wicara.Core Lib Lib.Encoding Lib.Fallible Lib.Run

structure PrekeyRow where
  createdMs : Int
  blob : List UInt8
  deriving DecidableEq

/-- The prekeys of the hub's store, by their owners. -/
structure PrekeyStore where
  prekeys : Table Key PrekeyRow

def PrekeyStore.empty : PrekeyStore := ⟨.empty⟩

abbrev PrekeyAct := EStateM Error PrekeyStore

namespace PrekeyStore

/-- Last publish wins. -/
def published (prekey : SignedPrekey) (blob : List UInt8) (s : PrekeyStore) : PrekeyStore :=
  { s with prekeys := s.prekeys.upsert prekey.owner ⟨prekey.createdMs.toInt64.toInt, blob⟩ }

def putPrekey (io : Option String) (prekey : SignedPrekey) (blob : List UInt8) :
    PrekeyAct PUnit := do
  attempt (io.map fun _ => Error.internal)
  modify (published prekey blob)

def prekey (io : Option String) (owner : Key) : PrekeyAct (Option (List UInt8)) := do
  attempt (io.map fun _ => Error.internal)
  let s ← get
  pure ((s.prekeys.get owner).map PrekeyRow.blob)

end PrekeyStore

section

variable (C : Crypto) (R : Readers) (read : List UInt8 → Except String SignedPrekey)

/-- What `put_prekey` looks at before it asks the store anything. -/
def checkPrekey (body : List UInt8) : Except Error SignedPrekey := do
  let prekey ← readBody (read body)
  let _ ← (prekey.verify C prekey.owner).mapError .badRequest
  pure prekey

/-- `PUT /prekey` -/
def putPrekey (io : Option String) (body : List UInt8) : PrekeyAct Nat := do
  let prekey ← lift (checkPrekey C read body)
  PrekeyStore.putPrekey io prekey body
  pure 204

/-- `GET /prekey/{endpoint}` -/
def getPrekey (io : Option String) (path : String) : PrekeyAct (List UInt8) := do
  let endpoint ← lift (parseEndpoint R path)
  match ← PrekeyStore.prekey io endpoint with
  | some blob => pure blob
  | none => throw ⟨404, "no prekey published"⟩

inductive PrekeyCall
  | put (body : List UInt8)
  | get (path : String)

/-- A request; it holds the lock of the store once, so it has no part that another could come
into. -/
structure PrekeyRequest where
  call : PrekeyCall
  io : Option String

inductive PrekeyAnswer
  | status (code : Nat)
  | prekey (blob : List UInt8)

def PrekeyRequest.serve (r : PrekeyRequest) : PrekeyAct PrekeyAnswer :=
  match r.call with
  | .put body => do
    let code ← putPrekey C read r.io body
    pure (.status code)
  | .get path => do
    let blob ← getPrekey R r.io path
    pure (.prekey blob)

/-- The prekeys, and beside them every publication that was accepted, in their order. -/
structure Directory where
  store : PrekeyStore
  accepted : List (SignedPrekey × List UInt8)

def Directory.start : Directory := ⟨.empty, []⟩

/-- What a request that was answered so has published. -/
def PrekeyRequest.publishes (r : PrekeyRequest) (answer : PrekeyAnswer) :
    List (SignedPrekey × List UInt8) :=
  match r.call, answer with
  | .put body, .status _ =>
    match read body with
    | .ok prekey => [(prekey, body)]
    | .error _ => []
  | _, _ => []

/-- A publication that the hub will accept. -/
def PrekeyRequest.Publishes (r : PrekeyRequest) (body : List UInt8) (prekey : SignedPrekey) :
    Prop :=
  r.call = .put body ∧ r.io = none ∧ checkPrekey C read body = .ok prekey

namespace Directory

def take (d : Directory) (r : PrekeyRequest) : Directory :=
  match (r.serve C R read).run d.store with
  | .ok answer store => ⟨store, d.accepted ++ r.publishes read answer⟩
  | .error _ store => ⟨store, d.accepted⟩

def acceptedFor (d : Directory) (owner : Key) : List (SignedPrekey × List UInt8) :=
  d.accepted.filter fun x => x.1.owner = owner

/-- Nothing newer than what is served was ever accepted. -/
def Freshest (d : Directory) : Prop :=
  ∀ owner row, d.store.prekeys.get owner = some row → ∃ prekey, read row.blob = .ok prekey ∧
    ∀ x ∈ d.acceptedFor owner, x.1.createdMs ≤ prekey.createdMs

/-- What a request publishes is no older than what is served. -/
def NotOlder (d : Directory) (r : PrekeyRequest) : Prop :=
  ∀ body prekey, r.Publishes C read body prekey →
    ∀ x ∈ (d.acceptedFor prekey.owner).getLast?, x.1.createdMs ≤ prekey.createdMs

/-- What is served is what was accepted last, and was signed by its owner. -/
structure Kept (d : Directory) : Prop where
  last : ∀ owner, (d.store.prekeys.get owner).map PrekeyRow.blob =
    (d.acceptedFor owner).getLast?.map Prod.snd
  checked : ∀ x ∈ d.accepted, checkPrekey C read x.2 = .ok x.1

end Directory

end

variable {C : Crypto} {R : Readers} {read : List UInt8 → Except String SignedPrekey}

theorem checkPrekey_eq_ok {body : List UInt8} {prekey : SignedPrekey} :
    checkPrekey C read body = .ok prekey ↔
      read body = .ok prekey ∧ ∃ v, prekey.verify C prekey.owner = .ok v := by
  simp only [checkPrekey, bind_eq_ok, readBody_eq_ok, pure, Except.pure, Except.ok.injEq]
  constructor
  · rintro ⟨p, hread, v, hv, rfl⟩
    refine ⟨hread, v, ?_⟩
    cases hverify : p.verify C p.owner <;> simp [hverify, Except.mapError] at hv ⊢
    exact hv
  · rintro ⟨hread, v, hv⟩
    exact ⟨prekey, hread, v, by rw [hv]; rfl, rfl⟩

/-- A prekey that passes the check says what its owner has signed. -/
theorem checkPrekey_signed {body : List UInt8} {prekey : SignedPrekey}
    (h : checkPrekey C read body = .ok prekey) :
    C.verifyStrict prekey.owner
      (Transcript.prekey prekey.owner prekey.prekey prekey.createdMs).bytes prekey.signature =
        true := by
  obtain ⟨-, v, hv⟩ := checkPrekey_eq_ok.mp h
  exact (SignedPrekey.verify_eq_ok hv).1

theorem run_prekey (s : PrekeyStore) (owner : Key) :
    (PrekeyStore.prekey none owner).run s =
      .ok ((s.prekeys.get owner).map PrekeyRow.blob) s := rfl

/-- What `get_prekey` answers, if its query does not fail. -/
theorem run_getPrekey {path : String} {owner : Key} (hpath : parseEndpoint R path = .ok owner)
    (s : PrekeyStore) :
    (getPrekey R none path).run s =
      match s.prekeys.get owner with
      | some row => .ok row.blob s
      | none => .error ⟨404, "no prekey published"⟩ s := by
  simp only [getPrekey, hpath, lift, pure_bind, EStateM.run_bind, run_prekey]
  cases s.prekeys.get owner <;> rfl

/-- All that a request can do: its publication is accepted, or nothing happens. -/
theorem PrekeyRequest.wp_serve (r : PrekeyRequest) (s : PrekeyStore) :
    wp (r.serve C R read)
      (fun answer s' =>
        (∃ body prekey, r.Publishes C read body prekey ∧ s' = s.published prekey body ∧
          r.publishes read answer = [(prekey, body)]) ∨
        (s' = s ∧ r.publishes read answer = [] ∧ ∀ body prekey, ¬r.Publishes C read body prekey))
      (fun _ s' => s' = s ∧ ∀ body prekey, ¬r.Publishes C read body prekey) s := by
  obtain ⟨call, io⟩ := r
  cases call with
  | put body =>
    simp only [serve, putPrekey, PrekeyStore.putPrekey, wp_bind, wp_lift, wp_attempt, wp_modify,
      wp_pure, Option.map_eq_none_iff]
    refine ⟨fun prekey hcheck => ⟨?_, ?_⟩, fun err hcheck => ⟨trivial, ?_⟩⟩
    · rintro rfl
      refine .inl ⟨body, prekey, ⟨rfl, rfl, hcheck⟩, rfl, ?_⟩
      simp only [publishes, (checkPrekey_eq_ok.mp hcheck).1]
    · rintro err hio
      refine ⟨trivial, ?_⟩
      rintro _ _ ⟨-, rfl, -⟩
      cases hio
    · rintro _ prekey ⟨hcall, -, hok⟩
      cases hcall
      cases hcheck.symm.trans hok
  | get path =>
    have hget : ∀ body prekey, ¬Publishes C read ⟨.get path, io⟩ body prekey := by
      rintro body prekey ⟨hcall, -⟩
      cases hcall
    simp only [serve, getPrekey, PrekeyStore.prekey, wp_bind, wp_lift, wp_attempt, wp_get, wp_pure]
    refine ⟨fun owner _ => ⟨fun _ => ?_, fun _ _ => ⟨trivial, hget⟩⟩, fun _ _ => ⟨trivial, hget⟩⟩
    cases s.prekeys.get owner with
    | none => exact ⟨rfl, hget⟩
    | some row => exact .inr ⟨rfl, rfl, hget⟩

namespace Directory

theorem take_cases (C : Crypto) (R : Readers) (read : List UInt8 → Except String SignedPrekey)
    (d : Directory) (r : PrekeyRequest) :
    (∃ body prekey, r.Publishes C read body prekey ∧
      d.take C R read r = ⟨d.store.published prekey body, d.accepted ++ [(prekey, body)]⟩) ∨
    (d.take C R read r = d ∧ ∀ body prekey, ¬r.Publishes C read body prekey) := by
  unfold take
  obtain ⟨answer, store, hrun, h⟩ | ⟨err, store, hrun, rfl, hnone⟩ :=
    wp_cases (show wp (r.serve C R read) _ _ d.store from r.wp_serve d.store)
  · rw [hrun]
    rcases h with ⟨body, prekey, hpub, rfl, hlist⟩ | ⟨rfl, hlist, hnone⟩
    · exact .inl ⟨body, prekey, hpub, by simp only [hlist]⟩
    · exact .inr ⟨by simp only [hlist, List.append_nil], hnone⟩
  · rw [hrun]
    exact .inr ⟨rfl, hnone⟩

variable {d : Directory}

theorem acceptedFor_append (owner : Key) (x : SignedPrekey × List UInt8) (store : PrekeyStore) :
    acceptedFor ⟨store, d.accepted ++ [x]⟩ owner =
      if x.1.owner = owner then d.acceptedFor owner ++ [x] else d.acceptedFor owner := by
  rw [acceptedFor, List.filter_append]
  split <;> simp [acceptedFor, *]

theorem kept_start : (start).Kept C read := ⟨fun _ => rfl, fun _ h => absurd h List.not_mem_nil⟩

/-- The step lemma. -/
theorem Kept.take (h : d.Kept C read) (r : PrekeyRequest) : (d.take C R read r).Kept C read := by
  obtain ⟨body, prekey, ⟨-, -, hcheck⟩, hd⟩ | ⟨hd, -⟩ := take_cases C R read d r
  · rw [hd]
    refine ⟨fun owner => ?_, fun x hx => ?_⟩
    · rw [acceptedFor_append, PrekeyStore.published, Table.get_upsert]
      by_cases howner : owner = prekey.owner
      · simp [howner]
      · rw [if_neg howner, if_neg (Ne.symm howner)]
        exact h.last owner
    · rw [List.mem_append, List.mem_singleton] at hx
      rcases hx with hx | rfl
      · exact h.checked x hx
      · exact hcheck
  · rwa [hd]

theorem Kept.run (h : d.Kept C read) (requests : List PrekeyRequest) :
    (Lib.Run.run (Directory.take C R read) d requests).Kept C read := by
  have hstep : ∀ (d : Directory) r, d.Kept C read → (d.take C R read r).Kept C read :=
    fun _ r h => h.take r
  exact run_invariant hstep h requests

/-- In terms of what was accepted, whatever the table says. -/
theorem Kept.freshest_iff (h : d.Kept C read) :
    d.Freshest read ↔ ∀ owner, ∀ x ∈ (d.acceptedFor owner).getLast?,
      ∀ y ∈ d.acceptedFor owner, y.1.createdMs ≤ x.1.createdMs := by
  refine forall_congr' fun owner => ?_
  have hlast := h.last owner
  cases hx : (d.acceptedFor owner).getLast? with
  | none =>
    rw [hx, Option.map_none, Option.map_eq_none_iff] at hlast
    simp [hlast]
  | some x =>
    obtain ⟨row, hrow, hblob⟩ := Option.map_eq_some_iff.mp (hlast.trans (congrArg _ hx))
    have hmem := (List.mem_filter.mp (List.mem_of_getLast? hx)).1
    have hread : read row.blob = .ok x.1 := hblob ▸ (checkPrekey_eq_ok.mp (h.checked x hmem)).1
    simp [hrow, hread]

/-- What is published is the newest again exactly when it is no older than what was served. -/
theorem Kept.freshest_take_iff (h : d.Kept C read) (hfresh : d.Freshest read)
    (r : PrekeyRequest) : (d.take C R read r).Freshest read ↔ d.NotOlder C read r := by
  rw [(h.take r).freshest_iff]
  rw [h.freshest_iff] at hfresh
  obtain ⟨body, prekey, hpub, hd⟩ | ⟨hd, hnone⟩ := take_cases C R read d r
  · rw [hd]
    constructor
    · rintro hnewest body' prekey' ⟨hcall, -, hcheck⟩ x hx
      cases hpub.1.symm.trans hcall
      cases hpub.2.2.symm.trans hcheck
      have hown := hnewest prekey.owner
      rw [acceptedFor_append, if_pos rfl, List.getLast?_concat] at hown
      exact hown _ rfl x (List.mem_append_left _ (List.mem_of_getLast? hx))
    · intro hnotOlder owner
      rw [acceptedFor_append]
      split
      case isTrue howner =>
        subst howner
        rw [List.getLast?_concat]
        rintro _ ⟨⟩ y hy
        rw [List.mem_append, List.mem_singleton] at hy
        rcases hy with hy | rfl
        · -- the last one that was accepted is in between
          obtain ⟨x, hx⟩ := Option.isSome_iff_exists.mp
            (List.getLast?_isSome.mpr (List.ne_nil_of_mem hy))
          exact UInt64.le_trans (hfresh _ x hx y hy) (hnotOlder _ _ hpub x hx)
        · exact UInt64.le_refl _
      case isFalse => exact hfresh owner
  · rw [hd]
    exact iff_of_true hfresh fun body prekey hpub => absurd hpub (hnone body prekey)

end Directory

/-- The hub serves what was accepted last for an owner, whoever has sent it, and this is something
that the owner signed; it is the newest of all that was accepted, at every moment of a run, exactly
when nobody sends one that is older than what is served. -/
theorem last_publish_is_served (C : Crypto) (R : Readers)
    (read : List UInt8 → Except String SignedPrekey) (requests : List PrekeyRequest) :
    let d := run (Directory.take C R read) .start requests
    (∀ path owner, parseEndpoint R path = .ok owner →
      (∀ x ∈ (d.acceptedFor owner).getLast?,
        (getPrekey R none path).run d.store = .ok x.2 d.store) ∧
      (d.acceptedFor owner = [] → (getPrekey R none path).run d.store =
        .error ⟨404, "no prekey published"⟩ d.store)) ∧
    (∀ x ∈ d.accepted, read x.2 = .ok x.1 ∧ C.verifyStrict x.1.owner
      (Transcript.prekey x.1.owner x.1.prekey x.1.createdMs).bytes x.1.signature = true) ∧
    ((∀ n, (run (Directory.take C R read) .start (requests.take n)).Freshest read) ↔
      Along (Directory.take C R read) (Directory.NotOlder C read) .start requests) := by
  intro d
  have hkept : d.Kept C read := Directory.kept_start.run requests
  refine ⟨fun path owner hpath => ?_, fun x hx => ?_, ?_⟩
  · rw [run_getPrekey hpath]
    have hlast := hkept.last owner
    constructor
    · intro x hx
      obtain ⟨row, hrow, hblob⟩ := Option.map_eq_some_iff.mp (hlast.trans (congrArg _ hx))
      rw [hrow, ← hblob]
    · intro hnil
      rw [hnil, List.getLast?_nil, Option.map_none, Option.map_eq_none_iff] at hlast
      rw [hlast]
  · have hcheck := hkept.checked x hx
    exact ⟨(checkPrekey_eq_ok.mp hcheck).1, checkPrekey_signed hcheck⟩
  · refine Along.iff_throughout (G := Directory.Freshest read) (I := Directory.Kept C read)
      (fun d r h => h.take r) (fun d r h hfresh => h.freshest_take_iff hfresh r)
      Directory.kept_start ?_
    intro owner row hrow
    cases hrow

namespace Sample

open Core.Sample

/-- The prekeys that 1 signs at these times. -/
def signedAt (createdMs : UInt64) : SignedPrekey where
  owner := key 1
  prekey := Bytes.replicate 32 8
  createdMs := createdMs
  signature := (crypto.sign (1 : UInt8)
    (prekeyTranscript (key 1) (Bytes.replicate 32 8) createdMs)).toList

def prekeyBody (prekey : SignedPrekey) : List UInt8 :=
  prekey.owner.toList ++ (prekey.prekey.toList ++ (leBytes 8 prekey.createdMs.toNat ++
    prekey.signature))

def readPrekey (body : List UInt8) : Except String SignedPrekey :=
  match [signedAt 1, signedAt 2].find? fun prekey => prekeyBody prekey = body with
  | some prekey => .ok prekey
  | none => .error "Hit the end of buffer, expected more data"

/-- 1 publishes twice, and then anybody sends again what was published first. -/
def rolledBack : List PrekeyRequest :=
  [signedAt 1, signedAt 2, signedAt 1].map fun prekey => ⟨.put (prekeyBody prekey), none⟩

end Sample

open Core.Sample Sample in
theorem last_publish_is_served_for_rolledBack :
    let d := run (Directory.take crypto (readers []) readPrekey) .start rolledBack
    ∃ x ∈ (d.acceptedFor (key 1)).getLast?,
      (getPrekey (readers []) none (hex (key 1).toList)).run d.store = .ok x.2 d.store := by
  intro d
  have hpath : parseEndpoint (readers []) (hex (key 1).toList) = .ok (key 1) := by decide +kernel
  have hsome : (d.acceptedFor (key 1)).getLast?.isSome = true := by decide +kernel
  obtain ⟨x, hx⟩ := Option.isSome_iff_exists.mp hsome
  exact ⟨x, hx,
    ((last_publish_is_served crypto (readers []) readPrekey rolledBack).1 _ _ hpath).1 x hx⟩

open Core.Sample Sample in
theorem old_prekey_comes_back :
    let d := run (Directory.take crypto (readers []) readPrekey) .start rolledBack
    (d.acceptedFor (key 1)).map (fun x => x.1.createdMs) = [1, 2, 1] ∧
    (d.store.prekeys.get (key 1)).map (fun row => readPrekey row.blob) = some (.ok (signedAt 1)) ∧
    ¬d.Freshest readPrekey := by
  intro d
  have hrun : (d.acceptedFor (key 1)).map (fun x => x.1.createdMs) = [1, 2, 1] ∧
      (d.store.prekeys.get (key 1)).map (fun row => readPrekey row.blob) =
        some (.ok (signedAt 1)) := by decide +kernel
  refine ⟨hrun.1, hrun.2, fun hfresh => ?_⟩
  obtain ⟨row, hrow, hread⟩ := Option.map_eq_some_iff.mp hrun.2
  obtain ⟨prekey, hprekey, hnewest⟩ := hfresh (key 1) row hrow
  obtain rfl := Except.ok.inj (hread.symm.trans hprekey)
  have hmem : (2 : UInt64) ∈ (d.acceptedFor (key 1)).map fun x => x.1.createdMs := by
    rw [hrun.1]
    exact List.mem_cons_of_mem _ List.mem_cons_self
  obtain ⟨x, hx, htwo⟩ := List.mem_map.mp hmem
  have hle := hnewest x hx
  rw [htwo] at hle
  exact absurd hle (by decide)

end Wicara.Hub
