import Wicara.Client.Dispatch
import Wicara.Client.Removal
import Wicara.Client.SessionSteps

namespace Wicara.Client

open Wicara.Core Lib Lib.Fallible Lib.Interleaving Lib.Run

/-- What gives a peer a name: the user's command, and the peer's own hello. -/
inductive Naming
  | name (x : CommandIo) (aliased : Option String)
  | hello (setting : Sqlite) (nickname : String)

namespace Naming

/-- The setting that is written, and what is written there. -/
def write (p : Key) : Naming → Sqlite × String × String
  | .name x aliased => (x.setting, aliasKey p, aliased.getD "")
  | .hello setting nickname => (setting, nickKey p, nickname)

/-- The two sections that `dispatch` has for the command, and what a session does on a hello. -/
def act (env : Env C) (p : Key) (n : Net) : Naming → Net
  | .name x aliased =>
    let w := (alone (Dispatch.advance env) 2 ⟨[(.name p aliased, x)], .next⟩ (.start n.view)).2
    { n with app := w.app }
  | .hello setting nickname => after (do
      rememberNick setting p nickname
      onApp (emit (.connected p nickname))) n

end Naming

/-- What `announce_peer` tells of a peer. -/
def Net.announced (names : Option String × Option String) (q : Key) (n : Net) : Option UiEvent :=
  (after (announcePeer names q) n).app.events.getLast?

theorem Net.announced_eq (names : Option String × Option String) (q : Key) (n : Net) :
    n.announced names q = some (.known q
      ((n.app.store.setting names.1 (nickKey q)).toOption).join
      (((n.app.store.setting names.2 (aliasKey q)).toOption).join.filter (· ≠ ""))) :=
  List.getLast?_concat

theorem Store.after_setSetting (io : Sqlite) (key value : String) (s : Store) :
    after (Store.setSetting io key value) s =
      if io 0 = none then { s with settings := s.settings.upsert key value } else s := by
  unfold setSetting
  cases h : io 0 <;> simp [after, attempt]

variable {env : Env C} {p q : Key}

namespace Dispatch

/-- The command goes on to tell of the name if the name could be saved. -/
theorem wp_begin_name (x : CommandIo) (aliased : Option String) (w : World) :
    wp (begin (.name p aliased) x)
      (fun pc w' => (pc = .next ∨ pc = .announce x p) ∧ w'.app.store =
        after (Store.setSetting x.setting (aliasKey p) (aliased.getD "")) w.app.store)
      (fun _ _ => False) w := by
  rw [Store.after_setSetting]
  simp only [begin, orWarn, inApp, inStore, Store.setSetting, warn, wp_bind, wp_rescue, wp_zoom,
    wp_attempt, wp_modify, wp_emit, wp_pure]
  constructor
  · intro hio
    rw [if_pos hio]
    exact ⟨.inr trivial, rfl⟩
  · intro err hio
    rw [if_neg (by rw [hio]; exact Option.some_ne_none err)]
    exact ⟨.inl trivial, rfl⟩

/-- Both sections of the command, as far as the store goes. -/
theorem store_alone_name (x : CommandIo) (aliased : Option String) (w : World) :
    (alone (advance env) 2 ⟨[(.name p aliased, x)], .next⟩ w).2.app.store =
      after (Store.setSetting x.setting (aliasKey p) (aliased.getD "")) w.app.store := by
  have hnext : (next env ⟨[(.name p aliased, x)], .next⟩) = (do
      let pc ← begin (.name p aliased) x
      pure ⟨[], pc⟩) := rfl
  obtain ⟨pc, w', hrun, hpc, hstore⟩ | ⟨_, _, _, hfalse⟩ :=
    wp_cases (wp_begin_name (p := p) x aliased w)
  · have hadvance : advance env ⟨[(.name p aliased, x)], .next⟩ w = (⟨[], pc⟩, w') := by
      simp only [advance, hnext, EStateM.run_bind, hrun, EStateM.run_pure]
    simp only [alone, hadvance]
    rcases hpc with rfl | rfl <;> exact hstore
  · exact hfalse.elim

end Dispatch

/-- Naming a peer is one write to the settings. -/
theorem Naming.store_act (env : Env C) (p : Key) (n : Net) (ν : Naming) :
    (ν.act env p n).app.store =
      after (Store.setSetting (ν.write p).1 (ν.write p).2.1 (ν.write p).2.2) n.app.store := by
  cases ν with
  | name x aliased => exact Dispatch.store_alone_name x aliased (.start n.view)
  | hello setting nickname =>
    refine (wp_after (P := fun n' : Net => n'.app.store = after (Store.setSetting setting
      (nickKey p) nickname) n.app.store)).mp ?_
    simp only [rememberNick, inStore, wp_bind, wp_onApp, wp_zoom, wp_ignore, wp_emit]
    rfl

/-- A key that names nothing of this peer keeps what stands there. -/
theorem Naming.settings_act (n : Net) (ν : Naming) {key : String} (hnick : key ≠ nickKey p)
    (halias : key ≠ aliasKey p) :
    (ν.act env p n).app.store.settings.get key = n.app.store.settings.get key := by
  rw [store_act, Store.after_setSetting]
  split
  · rw [Table.get_upsert, if_neg]
    cases ν with
    | name x aliased => exact halias
    | hello setting nickname => exact hnick
  · rfl

theorem Naming.settings_run (n : Net) (events : List Naming) {key : String}
    (hnick : key ≠ nickKey p) (halias : key ≠ aliasKey p) :
    (run (Naming.act env p) n events).app.store.settings.get key =
      n.app.store.settings.get key := by
  induction events generalizing n with
  | nil => rfl
  | cons ν events ih => rw [run_cons, ih, settings_act n ν hnick halias]

theorem Store.setting_congr {s s' : Store} {key : String} (h : s.settings.get key =
    s'.settings.get key) (io : Option String) : s.setting io key = s'.setting io key := by
  cases io <;> simp [setting, h]

theorem short_eq_iff : short p = short q ↔ p.toList.take 5 = q.toList.take 5 :=
  hex_injective.eq_iff

variable (env) in
/-- A hello that says something new is told of everybody with the same first bytes. -/
theorem announced_hello (n : Net) (hshort : short p = short q) (nickname : String)
    (hnew : n.app.store.settings.get (nickKey q) ≠ some nickname) :
    (Naming.act env p n (.hello .ok nickname)).announced (none, none) q ≠
      n.announced (none, none) q := by
  have hstore : (Naming.act env p n (.hello .ok nickname)).app.store =
      { n.app.store with settings := n.app.store.settings.upsert (nickKey p) nickname } :=
    (Naming.store_act env p n (.hello .ok nickname)).trans
      ((Store.after_setSetting _ _ _ _).trans (if_pos rfl))
  rw [Net.announced_eq, Net.announced_eq, hstore, nickKey_inj.mpr hshort]
  intro h
  have hnick := (UiEvent.known.inj (Option.some.inj h)).2.1
  simp only [Store.setting, Table.get_upsert, if_true, Except.toOption, Option.join_some] at hnick
  exact hnew hnick.symm

/-- What is told of a peer is the same after any namings of another, for all of them, exactly when
the two keys do not begin with the same five bytes. -/
theorem names_stay_apart_iff (env : Env C) (p q : Key) (n : Net) :
    (∀ names events, (run (Naming.act env p) n events).announced names q =
      n.announced names q) ↔ p.toList.take 5 ≠ q.toList.take 5 := by
  rw [Ne, ← short_eq_iff]
  constructor
  · intro h hshort
    -- a nickname that is longer than what stands there
    let nickname := (n.app.store.settings.get (nickKey q)).getD "" ++ "x"
    refine announced_hello env n hshort nickname (fun hsame => ?_)
      (h (none, none) [.hello .ok nickname])
    have hlength := congrArg (fun o => (o.getD "").length) hsame
    simp [nickname] at hlength
  · intro hshort names events
    have hkept {key : String} : key ≠ nickKey p → key ≠ aliasKey p →
        (run (Naming.act env p) n events).app.store.settings.get key =
          n.app.store.settings.get key := Naming.settings_run n events
    have hnick := hkept (fun h => hshort (nickKey_inj.mp h).symm) (nickKey_ne_aliasKey q p)
    have halias := hkept (nickKey_ne_aliasKey p q).symm fun h => hshort (aliasKey_inj.mp h).symm
    rw [Net.announced_eq, Net.announced_eq, Store.setting_congr hnick, Store.setting_congr halias]

namespace Sample

open Core.Sample

/-- 1 has a contact it calls Carol. -/
def carol : Net := .start (after (Store.setSetting .ok (aliasKey twin) "Carol")
  (.fresh (key 1))) "Ann"

def plainCommand : CommandIo := ⟨⟨.ok, .ok, 0⟩, .ok, (none, none), 0⟩

end Sample

open Core.Sample Sample in
/-- 1 calls 3 Bob and 3 says that it is Mallory: so do they call the twin. -/
theorem naming_one_names_the_other :
    let events := [.name plainCommand (some "Bob"), .hello .ok "Mallory"]
    key 3 ≠ twin ∧
    carol.announced (none, none) twin = some (.known twin none (some "Carol")) ∧
    (run (Naming.act (client 1 false) (key 3)) carol events).announced (none, none) twin =
      some (.known twin (some "Mallory") (some "Bob")) := by
  decide +kernel

end Wicara.Client
