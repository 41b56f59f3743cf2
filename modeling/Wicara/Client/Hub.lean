import Wicara.Client.App
import Wicara.Core.RoomLaws

namespace Wicara.Client

open Wicara.Core

/-- `MAX_ROOM_REPLY` -/
def maxRoomReply : Nat := 4 * 1024 * 1024

/-- `MAX_MAIL_REPLY` -/
def maxMailReply : Nat := 32 * 1024 * 1024

/-- A reply as `reqwest` hands it on: `shown` is its status as text, `text` its body as
text, and `chunks` are read until one fails. -/
structure Response where
  status : Nat
  shown : String
  text : String
  contentLength : Option Nat
  chunks : List (Except String (List UInt8))

/-- Nothing when the request got no answer. -/
abbrev Reply := Option Response

def Response.isSuccess (res : Response) : Prop := 200 ≤ res.status ∧ res.status < 300

instance : DecidablePred Response.isSuccess := fun _ => inferInstanceAs (Decidable (_ ∧ _))

def limitedChunks (cap : Nat) (body : List UInt8) :
    List (Except String (List UInt8)) → Except String (List UInt8)
  | [] => .ok body
  | .error err :: _ => .error err
  | .ok chunk :: chunks => do
    ensure (body.length + chunk.length ≤ cap) s!"hub reply ran past the {cap}-byte limit"
    limitedChunks cap (body ++ chunk) chunks

def limited (res : Response) (cap : Nat) : Except String (List UInt8) := do
  ensure (∀ n ∈ res.contentLength, n ≤ cap) s!"hub announced a reply over the {cap}-byte limit"
  limitedChunks cap [] res.chunks

/-- A reply that arrives whole: its body is `bytes`, and what is said of its length is true. -/
structure Response.Carries (res : Response) (bytes : List UInt8) : Prop where
  contentLength : ∀ n ∈ res.contentLength, n = bytes.length
  chunks : ∃ chunks : List (List UInt8), res.chunks = chunks.map .ok ∧ chunks.flatten = bytes

theorem limitedChunks_map_ok {cap : Nat} {chunks : List (List UInt8)} {body : List UInt8}
    (hbody : body.length ≤ cap) :
    limitedChunks cap body (chunks.map .ok) = .ok (body ++ chunks.flatten) ↔
      (body ++ chunks.flatten).length ≤ cap := by
  induction chunks generalizing body with
  | nil => simpa [limitedChunks] using hbody
  | cons chunk chunks ih =>
    rw [List.map_cons, limitedChunks, ensure_bind_eq_ok, List.flatten_cons, ← List.append_assoc]
    by_cases h : body.length + chunk.length ≤ cap
    · rw [ih (by simpa using h)]
      simp [h]
    · refine iff_of_false (fun hrun => h hrun.1) fun hcap => h ?_
      rw [List.length_append, List.length_append] at hcap
      omega

/-- A whole reply is refused exactly when it is over the limit. -/
theorem limited_eq_ok_iff {res : Response} {bytes : List UInt8} (h : res.Carries bytes)
    {cap : Nat} : limited res cap = .ok bytes ↔ bytes.length ≤ cap := by
  obtain ⟨hlength, chunks, hchunks, rfl⟩ := h
  rw [limited, ensure_bind_eq_ok, hchunks]
  have hiff : limitedChunks cap [] (chunks.map .ok) = .ok ([] ++ chunks.flatten) ↔
      ([] ++ chunks.flatten).length ≤ cap := limitedChunks_map_ok (Nat.zero_le _)
  rw [List.nil_append] at hiff
  rw [hiff, and_iff_right_iff_imp]
  intro hcap n hn
  rw [hlength n hn]
  exact hcap

section

variable (C : Crypto)

/-- `verify_log` behind the error type of the client. -/
def verified (entries : List RoomEntry) : Except String Room :=
  (verifyLog C entries).mapError LogError.message

end

variable {C : Crypto} (env : Env C)

def Hub.putRoom : Reply → Except String Unit
  | none => .error "publishing the room log"
  | some res =>
    if res.isSuccess then .ok ()
    else .error s!"hub refused the room log: {res.shown} {res.text}"

def Hub.room (id : RoomId) : Reply → Except String (Room × List RoomEntry)
  | none => .error "fetching the room log"
  | some res => do
    ensure (res.status ≠ 404) "the hub has no log for that room"
    ensure res.isSuccess s!"hub returned {res.shown}"
    let entries ← env.decodeLog (← limited res maxRoomReply)
    let room ← verified C entries
    ensure (room.id = id) "the hub returned a log for a different room"
    pure (room, entries)

theorem verified_eq_ok {entries : List RoomEntry} {room : Room} :
    verified C entries = .ok room ↔ Replays C entries room := by
  rw [← verifyLog_eq_ok, verified]
  cases verifyLog C entries <;> simp [Except.mapError]

/-- `Hub::room` does not return a room it could not verify. -/
theorem Hub.room_eq_ok {id : RoomId} {reply : Reply} {room : Room} {entries : List RoomEntry}
    (h : Hub.room env id reply = .ok (room, entries)) :
    Replays C entries room ∧ room.id = id := by
  cases reply with
  | none => simp [Hub.room] at h
  | some res =>
    simp only [Hub.room, ensure_bind_eq_ok] at h
    obtain ⟨-, -, h⟩ := h
    obtain ⟨body, -, h⟩ := bind_eq_ok.mp h
    obtain ⟨decoded, -, h⟩ := bind_eq_ok.mp h
    obtain ⟨r, hr, h⟩ := bind_eq_ok.mp h
    obtain ⟨hid, h⟩ := ensure_bind_eq_ok.mp h
    simp only [pure, Except.pure, Except.ok.injEq, Prod.mk.injEq] at h
    obtain ⟨rfl, rfl⟩ := h
    exact ⟨verified_eq_ok.mp hr, hid⟩

end Wicara.Client
