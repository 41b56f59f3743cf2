import Wicara.Client.RoomRuns
import Wicara.Hub.Rooms

namespace Wicara.Client

open Wicara.Core Lib Lib.Fallible Lib.Run

variable {C : Crypto}

/-- One call of `absorb_room`. -/
structure Offer where
  io : Io
  id : RoomId
  log : List RoomEntry
  reply : Reply

def App.offered (env : Env C) (app : App) (o : Offer) : App :=
  after (absorbRoom env o.io o.id o.log o.reply) app

/-- The offered log is refused, not saved or not longer, or goes on where the held one ends;
and where the hub is asked instead, it answers with the held log or with one that goes on. -/
structure Offer.Continues (env : Env C) (app : App) (o : Offer) : Prop where
  offered : ∀ H room, app.store.rooms.get o.id = some H → o.io.Saves →
    judge C o.id o.log = .ok room → H.length < o.log.length → Links C H o.log
  asked : ∀ H room N, app.store.rooms.get o.id = some H → o.io.Saves → o.log = [] →
    Hub.room env o.id o.reply = .ok (room, N) → N = H ∨ H.length < N.length ∧ Links C H N

/-- All the entries the offer can bring in are among these. -/
structure Offer.Within (env : Env C) (E : Set RoomEntry) (o : Offer) : Prop where
  log : ∀ e ∈ o.log, e ∈ E
  reply : ∀ room N, Hub.room env o.id o.reply = .ok (room, N) → ∀ e ∈ N, e ∈ E

section

variable {env : Env C} {app : App} {b : Book C} {E : Set RoomEntry}

/-- Exactly when a log that replaces the held one extends it. -/
theorem absorb_extends_iff (h : Mirrors app b) {H N : List RoomEntry} {id : RoomId} (io : Io)
    (reply : Reply) (hH : app.store.rooms.get id = some H)
    (hfree : CollisionFree C (entriesOf H N)) :
    ((after (absorbRoom env io id N reply) app).store.rooms.get id = some N → H <+: N) ↔
      ∀ room, io.Saves → judge C id N = .ok room → H.length < N.length → Links C H N := by
  rw [(mirrors_after (mirrors_absorbRoom h id N reply)).stored]
  rw [h.stored] at hH
  obtain ⟨v, hv, rfl⟩ := Option.map_eq_some_iff.mp hH
  cases hjudge : judge C id N with
  | error err =>
    -- nothing is taken, or what the hub has for an empty log
    refine iff_of_true ?_ (by simp)
    intro hN
    rcases eq_or_ne N [] with rfl | hne
    · obtain ⟨w, -, hw⟩ := Option.map_eq_some_iff.mp hN
      exact absurd hw w.replays.ne_nil
    · rw [absorbed, if_neg hne] at hN
      simp only [hjudge, Book.take_none, hv, Option.map_some, Option.some.injEq] at hN
      rw [hN]
  | ok room =>
    obtain ⟨hr, rfl⟩ := judge_eq_ok.mp hjudge
    let w : VerifiedLog C := ⟨N, room, hr⟩
    rw [take_absorbed (w := w) hv]
    by_cases hs : io.Saves
    · rw [if_pos hs, Book.extends_offer_iff (w := w) hv hfree]
      simp [hs, w]
    · rw [if_neg hs, hv]
      refine iff_of_true ?_ fun _ hs' => absurd hs' hs
      intro heq
      rw [Option.map_some, Option.some.injEq] at heq
      rw [heq]

/-- The step lemma of the client. -/
theorem Offer.Continues.grows {o : Offer} (hc : o.Continues env app) (h : Mirrors app b)
    (hfree : CollisionFree C E) (hb : b.Within E) (ho : o.Within env E) :
    ∃ b' : Book C, Mirrors (app.offered env o) b' ∧ b'.Within E ∧ b.Grows b' := by
  refine ⟨_, mirrors_after (mirrors_absorbRoom h o.id o.log o.reply), ?_⟩
  have hstored : ∀ v, b.held o.id = some v → app.store.rooms.get o.id = some v.log := by
    intro v hv
    rw [h.stored, hv]
    rfl
  cases htaken : absorbed env o.io b o.id o.log o.reply with
  | none => exact ⟨hb, .refl b⟩
  | some w =>
    rcases eq_or_ne o.log [] with hnil | hne
    · rw [absorbed, if_pos hnil] at htaken
      obtain ⟨hroom, hs, hid⟩ := fetched_eq_some htaken
      refine ⟨hb.put (ho.reply _ _ hroom), Book.grows_put fun v hv => ?_⟩
      rw [hid] at hv
      rcases hc.asked _ _ _ (hstored v hv) hs hnil hroom with heq | ⟨hlt, hlink⟩
      · rw [heq]
      · exact (VerifiedLog.prefix_iff_links
          (hfree.logs (hb _ _ hv) (ho.reply _ _ hroom)) hlt).mpr hlink
    · obtain ⟨hlog, hid, hlt, hs⟩ := absorbed_eq_some hne htaken
      have hw : ∀ e ∈ w.log, e ∈ E := hlog ▸ ho.log
      refine ⟨hb.put hw, Book.grows_put fun v hv => ?_⟩
      rw [hid] at hv
      rw [Book.length_of_held hv, w.length_eq] at hlt
      refine (VerifiedLog.prefix_iff_links (hfree.logs (hb _ _ hv) hw) hlt).mpr ?_
      rw [hlog] at hlt ⊢
      refine hc.offered _ w.room (hstored v hv) hs (judge_eq_ok.mpr ⟨?_, hid⟩) hlt
      exact hlog ▸ w.replays

end

section

variable {E : Set RoomEntry}

/-- The run lemma of the client. -/
theorem grows_offers {env : Env C} {app : App} {b : Book C} {offers : List Offer}
    (hfree : CollisionFree C E) (h : Mirrors app b) (hb : b.Within E)
    (hrun : Along (App.offered env) (fun app o => o.Within env E ∧ o.Continues env app) app
      offers) :
    ∃ b' : Book C, Mirrors (run (App.offered env) app offers) b' ∧ b.Grows b' := by
  induction offers generalizing app b with
  | nil => exact ⟨b, h, .refl b⟩
  | cons o offers ih =>
    obtain ⟨b₁, h₁, hb₁, hgrow⟩ := hrun.1.2.grows h hfree hb hrun.1.1
    obtain ⟨b₂, h₂, hgrow'⟩ := ih h₁ hb₁ hrun.2
    exact ⟨b₂, h₂, hgrow.trans hgrow'⟩

/-- The run lemma of the registry. -/
theorem grows_puts {henv : Hub.Env} {s : Hub.HubStore} {b : Book C} {puts : List Hub.Put}
    (hfree : CollisionFree C E) (h : Hub.Keeps henv s b) (hb : b.Within E)
    (hrun : Along (Hub.HubStore.put C henv)
      (fun s r => r.Within henv E ∧ r.Continues C henv s) s puts) :
    ∃ b' : Book C, Hub.Keeps henv (run (Hub.HubStore.put C henv) s puts) b' ∧
      b.Grows b' := by
  induction puts generalizing s b with
  | nil => exact ⟨b, h, .refl b⟩
  | cons r puts ih =>
    obtain ⟨b₁, h₁, hb₁, hgrow⟩ := hrun.1.2.grows h hfree hb hrun.1.1
    obtain ⟨b₂, h₂, hgrow'⟩ := ih h₁ hb₁ hrun.2
    exact ⟨b₂, h₂, hgrow.trans hgrow'⟩

end

namespace Sample

open Core.Sample

def hubEnv : Hub.Env := ⟨decodeAmong [kitchen, kicked, studyKicked, studyLeft]⟩

/-- A registry that has this log of a room. -/
def registry (id : RoomId) (log : List RoomEntry) : Hub.HubStore :=
  ⟨Table.empty.upsert id ⟨log.length, logToStdvec log⟩⟩

end Sample

open Core.Sample Sample in
/-- The founder has kicked 3, and 2 and 4, not having heard of it, have left: their two
leaves make a longer log than the one kick, and replace it with the founder and on the hub. -/
theorem two_leaves_undo_kick :
    let app := cameUp 1 false studyId studyKicked
    let app' := after (absorbRoom (client 1 false) .ok studyId studyLeft none) app
    let hub := registry studyId studyKicked
    let hub' := hub.put crypto hubEnv ⟨none, .ok studyId, logToStdvec studyLeft⟩
    (app.store.rooms.get studyId = some studyKicked ∧
      app'.store.rooms.get studyId = some studyLeft ∧
      app.isMember studyId (key 3) = false ∧ app'.isMember studyId (key 3) = true) ∧
    (hub.log hubEnv studyId = some studyKicked ∧ hub'.log hubEnv studyId = some studyLeft) ∧
    ¬studyKicked <+: studyLeft := by
  decide +kernel

/-- Where a log replaces the held one, in the client or in the registry, it extends it
exactly when the entry behind its first `|H|` names the last one of `H`; and a run whose
steps all meet this keeps every held log as a beginning, its kicks with it. -/
theorem replacement_extends_held {E : Set RoomEntry} (hfree : CollisionFree C E) (env : Env C)
    (henv : Hub.Env) :
    (∀ (app : App) (b : Book C) (io : Io) (id : RoomId) (reply : Reply)
        (H N : List RoomEntry), Mirrors app b → app.store.rooms.get id = some H →
      (∀ e ∈ H, e ∈ E) → (∀ e ∈ N, e ∈ E) →
      (((after (absorbRoom env io id N reply) app).store.rooms.get id = some N → H <+: N) ↔
        ∀ room, io.Saves → judge C id N = .ok room → H.length < N.length → Links C H N)) ∧
    (∀ (s : Hub.HubStore) (b : Book C) (r : Hub.Put) (id : RoomId) (H N : List RoomEntry),
      Hub.Keeps henv s b → s.log henv id = some H → henv.decodeLog r.body = .ok N →
      (∀ e ∈ H, e ∈ E) → (∀ e ∈ N, e ∈ E) →
      (((s.put C henv r).log henv id = some N → H <+: N) ↔
        (r.path = .ok id → r.io = none → ∀ room, verifyLog C N = .ok room → room.id = id →
          H.length < N.length → Links C H N))) ∧
    (∀ (app : App) (b : Book C) (offers : List Offer), Mirrors app b → b.Within E →
      Along (App.offered env) (fun app o => o.Within env E ∧ o.Continues env app) app offers →
      Keeping C app.store.rooms.get (run (App.offered env) app offers).store.rooms.get) ∧
    (∀ (s : Hub.HubStore) (b : Book C) (puts : List Hub.Put), Hub.Keeps henv s b →
      b.Within E →
      Along (Hub.HubStore.put C henv) (fun s r => r.Within henv E ∧ r.Continues C henv s) s puts →
      Keeping C (s.log henv) ((run (Hub.HubStore.put C henv) s puts).log henv)) := by
  refine ⟨?_, ?_, ?_, ?_⟩
  · intro app b io id reply H N h hH hHE hNE
    exact absorb_extends_iff h io reply hH (hfree.logs hHE hNE)
  · intro s b r id H N h hH hN hHE hNE
    exact Hub.put_extends_iff h r hH hN (hfree.logs hHE hNE)
  · intro app b offers h hb hrun
    obtain ⟨b', h', hgrow⟩ := grows_offers hfree h hb hrun
    rw [funext h.stored, funext h'.stored]
    exact hgrow.keeping
  · intro s b puts h hb hrun
    obtain ⟨b', h', hgrow⟩ := grows_puts hfree h hb hrun
    rw [funext h.log, funext h'.log]
    exact hgrow.keeping

open Core.Sample Sample in
/-- The kick extends the log it was written on, and nothing is lost by taking it. -/
theorem replacement_extends_held_kitchen :
    kitchen <+: kicked ∧
    Keeping crypto (cameUp 2 false kitchenRoom.id kitchen).store.rooms.get
      (run (App.offered (client 2 false)) (cameUp 2 false kitchenRoom.id kitchen)
        [⟨.ok, kitchenRoom.id, kicked, none⟩]).store.rooms.get := by
  have hstore := storeWith_verifies (key 2) verifyLog_kitchen rfl
  have hmirrors : Mirrors (cameUp 2 false kitchenRoom.id kitchen) (bookOf crypto _) :=
    mirrors_boot (bookOf_held hstore) (cameUp_run (by decide +kernel))
  have hheld : (cameUp 2 false kitchenRoom.id kitchen).store.rooms.get kitchenRoom.id =
      some kitchen := by decide +kernel
  have hlinks : Links crypto kitchen kicked := by decide +kernel
  have hfree : CollisionFree crypto {e | e ∈ kicked} :=
    collisionFree_of_list kicked (fun _ he => he) (by decide +kernel)
  obtain ⟨hclient, -, hrun, -⟩ := replacement_extends_held hfree (client 2 false) hubEnv
  constructor
  · have hiff := hclient _ _ .ok _ none kitchen kicked hmirrors hheld
      (fun e he => List.mem_append_left _ he) fun e he => he
    exact hiff.mpr (fun _ _ _ _ => hlinks) (by decide +kernel)
  · refine hrun _ _ [_] hmirrors ?_ ⟨⟨⟨fun e he => he, ?_⟩, ?_, ?_⟩, trivial⟩
    · intro id v hv e he
      have hlog := bookOf_held hstore id
      rw [hv] at hlog
      simp only [storeWith, Table.get_upsert, Table.get_empty, Option.map_some] at hlog
      split at hlog
      · rw [← Option.some.inj hlog] at he
        exact List.mem_append_left _ he
      · cases hlog
    · rintro room N hN
      cases hN
    · rintro H room hH - - -
      obtain rfl : kitchen = H := Option.some.inj (hheld.symm.trans hH)
      exact hlinks
    · rintro H room N - - hnil
      exact absurd hnil (by decide)

end Wicara.Client
