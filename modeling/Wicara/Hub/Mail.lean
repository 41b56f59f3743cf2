import Mathlib.Data.List.Sort
import Wicara.Core.E2e
import Wicara.Hub.Rooms
import Wicara.Lib.Text

namespace Wicara.Hub

open Wicara.Core Lib Lib.Encoding Lib.Fallible

/-- `MAX_ENVELOPE` -/
def maxEnvelope : Nat := 64 * 1024

/-- `QUOTA_PER_SENDER` -/
def quotaPerSender : Nat := 200

/-- `QUOTA_PER_RECIPIENT` -/
def quotaPerRecipient : Nat := 2000

/-- `TTL`, in milliseconds. -/
def ttlMs : Nat := 7 * 24 * 60 * 60 * 1000

structure MailRow where
  recipient : Key
  sender : Key
  receivedMs : Int
  blob : List UInt8
  deriving DecidableEq

/-- The mail of the hub's store, by the row's id. -/
structure MailStore where
  mail : Table Int MailRow

def MailStore.empty : MailStore := ⟨.empty⟩

/-- What the statements of one request say that fail, by their number. -/
abbrev Sqlite := Nat → Option String

def Sqlite.ok : Sqlite := fun _ => none

/-- What the mailbox is given: `postcard`'s readers and `HEXLOWER_PERMISSIVE.decode`. -/
structure Readers where
  envelope : List UInt8 → Except String Envelope
  ids : List UInt8 → Except String (List Int)
  hex : List UInt8 → Option (List UInt8)

/-- An `i64` as `postcard` writes it. -/
def zigzag (n : Int) : Nat := if 0 ≤ n then 2 * n.toNat else 2 * (-n).toNat - 1

/-- A row of what `get_mail` returns. -/
def rowToStdvec (row : Int × Envelope) : List UInt8 := varint (zigzag row.1) ++ row.2.toStdvec

/-- `postcard::to_stdvec` of what `mail_for` found. -/
def mailToStdvec (mail : List (Int × Envelope)) : List UInt8 :=
  varint mail.length ++ (mail.map rowToStdvec).flatten

namespace MailStore

/-- An `INTEGER PRIMARY KEY` that is not given one is one more than the largest there is. -/
def nextId (s : MailStore) : Int :=
  match s.mail.keys.max? with
  | some id => id + 1
  | none => 1

def inserted (row : MailRow) (s : MailStore) : MailStore :=
  { s with mail := s.mail.insertOrIgnore s.nextId row }

def pendingFrom (s : MailStore) (sender recipient : Key) : Nat :=
  s.mail.rows.countP fun r => r.2.sender = sender ∧ r.2.recipient = recipient

def pendingFor (s : MailStore) (recipient : Key) : Nat :=
  s.mail.rows.countP fun r => r.2.recipient = recipient

variable (R : Readers)

/-- A row that does not decode is skipped. -/
def readRow (r : Int × MailRow) : Option (Int × Envelope) :=
  match R.envelope r.2.blob with
  | .ok envelope => some (r.1, envelope)
  | .error _ => none

def mailFor (recipient : Key) (s : MailStore) : List (Int × Envelope) :=
  ((s.mail.rows.filter fun r => r.2.recipient = recipient).insertionSort
    fun a b => a.1 ≤ b.1).filterMap (readRow R)

/-- The transaction of `delete_mail`. -/
def deleted (recipient : Key) (ids : List Int) (s : MailStore) : MailStore :=
  { s with mail := s.mail.deleteWhere fun id row => id ∈ ids ∧ row.recipient = recipient }

/-- `now_ms().saturating_sub(ttl)`, as the column holds it. -/
def cutoff (now : UInt64) : Int := (UInt64.ofNat (now.toNat - ttlMs)).toInt64.toInt

def swept (now : UInt64) (s : MailStore) : MailStore :=
  { s with mail := s.mail.deleteWhere fun _ row => row.receivedMs < cutoff now }

end MailStore

/-- A request's work on the mail, failing as a response. -/
abbrev MailAct := EStateM Error MailStore

def statement (outcome : Option String) : MailAct PUnit := attempt (outcome.map fun _ => .internal)

def Error.unauthorized (message : String) : Error := ⟨401, message⟩

def Error.tooMany (message : String) : Error := ⟨429, message⟩

/-- `decode`: what the reader says of the body. -/
def readBody (read : Except String α) : Except Error α :=
  read.mapError fun e => .badRequest s!"malformed body: {e}"

theorem readBody_eq_ok {read : Except String α} {a : α} : readBody read = .ok a ↔ read = .ok a := by
  cases read <;> simp [readBody, Except.mapError]

/-- The headers that a request signs itself with, as far as they are text. -/
structure Headers where
  endpoint : Option String
  timestamp : Option String
  signature : Option String

def header (name : String) : Option String → Except Error String
  | some value => .ok value
  | none => .error (.unauthorized s!"missing {name}")

/-- `str::parse::<u64>` -/
def parseU64 (text : String) : Option UInt64 :=
  let digits := if text.toList.head? = some '+' then text.toList.tail else text.toList
  if digits ≠ [] ∧ digits.all Char.isDigit = true then
    let n := digits.foldl (fun n c => 10 * n + (c.toNat - '0'.toNat)) 0
    if n < UInt64.size then some (.ofNat n) else none
  else none

section

variable (C : Crypto) (R : Readers)

def parseEndpoint (text : String) : Except Error Key :=
  match R.hex (String.ofList (trim text.toList)).toByteArray.data.toList with
  | none => .error (.badRequest "endpoint id is not hex")
  | some bytes =>
    if h : bytes.length = 32 then .ok ⟨bytes, h⟩
    else .error (.badRequest "endpoint id is not 32 bytes")

def authenticate (now : UInt64) (headers : Headers) : Except Error Key := do
  let endpoint ← parseEndpoint R (← header "x-wicara-endpoint" headers.endpoint)
  let timestamp ← header "x-wicara-timestamp" headers.timestamp
  let ts ← match parseU64 timestamp with
    | some ts => .ok ts
    | none => .error (.unauthorized "bad timestamp")
  let text ← header "x-wicara-signature" headers.signature
  let signature ← match R.hex text.toByteArray.data.toList with
    | some signature => .ok signature
    | none => .error (.unauthorized "signature is not hex")
  (MailboxAuth.verify C endpoint ts signature now).mapError .unauthorized
  pure endpoint

/-- What `post_mail` looks at before it asks the store anything. -/
def addressed (path : String) (body : List UInt8) : Except Error Envelope := do
  ensure (body.length ≤ maxEnvelope)
    (⟨413, s!"envelope is over the {maxEnvelope}-byte limit"⟩ : Error)
  let recipient ← parseEndpoint R path
  let envelope ← readBody (R.envelope body)
  ensure (envelope.recipient = recipient)
    (Error.badRequest "envelope is addressed to a different endpoint")
  (envelope.verifySignature C).mapError .badRequest
  pure envelope

/-- The check on one sender's backlog. -/
def checkSender (io : Sqlite) (envelope : Envelope) : MailAct PUnit := do
  statement (io 0)
  let s ← get
  lift (ensure (s.pendingFrom envelope.sender envelope.recipient < quotaPerSender)
    (.tooMany s!"{quotaPerSender} messages already waiting for that recipient"))

/-- The check on the whole mailbox. -/
def checkRecipient (io : Sqlite) (envelope : Envelope) : MailAct PUnit := do
  statement (io 1)
  let s ← get
  lift (ensure (s.pendingFor envelope.recipient < quotaPerRecipient)
    (.tooMany s!"that mailbox is full at {quotaPerRecipient} messages"))

/-- The row an envelope is kept in. -/
def mailRow (now : UInt64) (envelope : Envelope) (body : List UInt8) : MailRow where
  recipient := envelope.recipient
  sender := envelope.sender
  receivedMs := now.toInt64.toInt
  blob := body

@[simp] theorem sender_mailRow (now : UInt64) (envelope : Envelope) (body : List UInt8) :
    (mailRow now envelope body).sender = envelope.sender := rfl

@[simp] theorem recipient_mailRow (now : UInt64) (envelope : Envelope) (body : List UInt8) :
    (mailRow now envelope body).recipient = envelope.recipient := rfl

@[simp] theorem blob_mailRow (now : UInt64) (envelope : Envelope) (body : List UInt8) :
    (mailRow now envelope body).blob = body := rfl

def putMail (io : Sqlite) (now : UInt64) (envelope : Envelope) (body : List UInt8) :
    MailAct PUnit := do
  statement (io 2)
  modify (MailStore.inserted (mailRow now envelope body))

/-- `POST /mail/{recipient}` -/
def postMail (io : Sqlite) (now : UInt64) (path : String) (body : List UInt8) : MailAct Nat := do
  let envelope ← lift (addressed C R path body)
  checkSender io envelope
  checkRecipient io envelope
  putMail io now envelope body
  pure 202

/-- `GET /mail` -/
def getMail (io : Sqlite) (now : UInt64) (headers : Headers) : MailAct (List UInt8) := do
  let me ← lift (authenticate C R now headers)
  statement (io 0)
  let s ← get
  pure (mailToStdvec (s.mailFor R me))

/-- `DELETE /mail` -/
def deleteMail (io : Sqlite) (now : UInt64) (headers : Headers) (body : List UInt8) :
    MailAct Nat := do
  let me ← lift (authenticate C R now headers)
  let ids ← lift (readBody (R.ids body))
  statement (io 0)
  modify (MailStore.deleted me ids)
  pure 204

/-- One round of the task that empties the mailboxes of what is too old. -/
def sweep (io : Sqlite) (now : UInt64) : MailAct PUnit := do
  statement (io 0)
  modify (MailStore.swept now)

end

namespace MailStore

variable {R : Readers} {s : MailStore}

theorem lt_nextId {id : Int} (h : id ∈ s.mail.keys) : id < s.nextId := by
  unfold nextId
  cases hmax : s.mail.keys.max? with
  | none =>
    rw [List.max?_eq_none_iff.mp hmax] at h
    cases h
  | some top =>
    have := (List.max?_eq_some_iff.mp hmax).2 id h
    simp only
    omega

theorem nextId_not_mem : s.nextId ∉ s.mail.keys := fun h => lt_irrefl _ (lt_nextId h)

theorem rows_inserted (row : MailRow) :
    (s.inserted row).mail.rows = s.mail.rows ++ [(s.nextId, row)] :=
  Table.rows_insertOrIgnore nextId_not_mem row

theorem get_inserted {row row' : MailRow} {id : Int} :
    (s.inserted row).mail.get id = some row' ↔
      s.mail.get id = some row' ∨ id = s.nextId ∧ row' = row := by
  rw [Table.get_eq_some, rows_inserted, Table.mem_rows_append, Table.get_eq_some]

theorem get_deleted {recipient : Key} {ids : List Int} {row : MailRow} {id : Int} :
    (s.deleted recipient ids).mail.get id = some row ↔
      s.mail.get id = some row ∧ ¬(id ∈ ids ∧ row.recipient = recipient) := by
  rw [deleted, Table.get_deleteWhere, Option.filter_eq_some_iff]
  simp [imp_iff_not_or]

theorem get_swept {now : UInt64} {row : MailRow} {id : Int} :
    (s.swept now).mail.get id = some row ↔
      s.mail.get id = some row ∧ ¬row.receivedMs < cutoff now := by
  rw [swept, Table.get_deleteWhere, Option.filter_eq_some_iff]
  simp

theorem readRow_eq_some {r : Int × MailRow} {mail : Int × Envelope} :
    readRow R r = some mail ↔ r.1 = mail.1 ∧ R.envelope r.2.blob = .ok mail.2 := by
  obtain ⟨id, e⟩ := mail
  cases h : R.envelope r.2.blob <;> simp [readRow, h]

theorem mem_mailFor {recipient : Key} {id : Int} {e : Envelope} :
    (id, e) ∈ s.mailFor R recipient ↔
      ∃ row, s.mail.get id = some row ∧ row.recipient = recipient ∧
        R.envelope row.blob = .ok e := by
  simp only [mailFor, List.mem_filterMap, List.mem_insertionSort, List.mem_filter,
    decide_eq_true_eq, readRow_eq_some, Prod.exists, Table.get_eq_some]
  constructor
  · rintro ⟨_, row, ⟨hrow, hrecipient⟩, rfl, hread⟩
    exact ⟨row, hrow, hrecipient, hread⟩
  · rintro ⟨row, hrow, hrecipient, hread⟩
    exact ⟨id, row, ⟨hrow, hrecipient⟩, rfl, hread⟩

end MailStore

end Wicara.Hub
