import Wicara.Client.Talks
import Wicara.Core.Framing

namespace Wicara.Client

open Wicara.Core Lib Lib.Fallible Lib.Run

variable {C : Crypto} {S : Sealer} {ι : Type}

namespace Network

variable [DecidableEq ι] {E : Endpoints C S ι} {net net' : Network ι} {T : Talk ι}

/-- What a party has written in the conversation has been handed out to the others. -/
def Told (E : Endpoints C S ι) (T : Talk ι) (net : Network ι) : Prop :=
  ∀ k, T.Party k → ∀ id op, (net.app k).store.ops.get id = some (T.keyAt E k, op) →
    id.sender = E.key k → op.id = some id ∧
      ∀ j, T.Party j → j ≠ k → (E.key j, T.wrap op) ∈ (net.app k).handed

theorem Begins.told {app : ι → App} (h : Begins E app) : Told E T (start app) := by
  intro k _ id op hrow
  rw [start, h.ops] at hrow
  cases hrow

theorem handed_subset {frames : List (Key × Frame)} {a b : App} (h : a.Posts frames b) :
    a.handed ⊆ b.handed := by
  rw [h.handed]
  exact List.subset_append_left _ _

theorem Told.of_toldAt (ht : Told E T net) {i : ι} {app : App}
    (happ : net'.app = Function.update net.app i app) (hhanded : (net.app i).handed ⊆ app.handed)
    (hat : T.Party i → ∀ id op, app.store.ops.get id = some (T.keyAt E i, op) →
      id.sender = E.key i → (net.app i).store.ops.get id = some (T.keyAt E i, op) ∨
        op.id = some id ∧ ∀ j, T.Party j → j ≠ i → (E.key j, T.wrap op) ∈ app.handed) :
    Told E T net' := by
  intro k hk id op hrow hsender
  by_cases hki : k = i
  · subst hki
    rw [happ, Function.update_self] at hrow ⊢
    obtain hold | hnew := hat hk id op hrow hsender
    · obtain ⟨hid, htold⟩ := ht k hk id op hold hsender
      exact ⟨hid, fun j hj hjk => hhanded (htold j hj hjk)⟩
    · exact hnew
  · rw [happ, Function.update_of_ne hki] at hrow ⊢
    exact ht k hk id op hrow hsender

theorem Told.change {event : NetworkEvent S ι} (h : net.Sound E) (ht : Told E T net)
    (hstands : T.Stands E net) (hreads : event.Reads) (hchange : Change E net event net') :
    Told E T net' := by
  cases hchange with
  | aside i app haside hops hnet =>
    subst hnet
    obtain ⟨-, frames, hposts, -⟩ := haside
    exact ht.of_toldAt rfl (handed_subset hposts) fun _ id op hrow _ => .inl (hops ▸ hrow)
  | issue i io now command hevent hcounter app hissued hnet =>
    subst hevent hnet
    have hgained := hissued.gained
      (fun id hid hme => h.minted i id hid (hme.trans (h.minter i))) hcounter
    obtain ⟨hops, hposts⟩ | ⟨hgained, hposts | ⟨hio, -⟩⟩ := hgained
    · exact ht.of_toldAt rfl (handed_subset hposts) fun _ id op hrow _ => .inl (hops ▸ hrow)
    · refine ht.of_toldAt rfl (handed_subset hposts) fun hi id op hrow _ => ?_
      obtain hold | ⟨rfl, hnew⟩ := hgained.cases hrow
      · exact .inl hold
      · obtain ⟨hpeer, rfl⟩ := Prod.mk.inj hnew
        refine .inr ⟨(command.plain _).1, fun j hj hji => ?_⟩
        rw [hposts.handed, ← hpeer]
        exact List.mem_append_right _ (addressees_mem hstands hi hj hji.symm)
    · exact absurd hreads hio
  | take i j frame app hhanded htakes happ htaken =>
    obtain ⟨-, frames, hposts, -⟩ := htakes.aside
    exact ht.of_toldAt happ (handed_subset hposts) fun _ id op hrow hme =>
      .inl (h.own_of_takes hhanded htakes hrow hme)
  | stray j sender frame app hstray htakes hnet =>
    subst hnet
    obtain ⟨-, frames, hposts, -⟩ := htakes.aside
    exact ht.of_toldAt rfl (handed_subset hposts) fun _ id op hrow hme =>
      .inl (own_of_stray (fun i => (hstray i).1) htakes hrow hme)

/-- Nothing is on its way between the parties. -/
def Quiet (E : Endpoints C S ι) (T : Talk ι) (net : Network ι) : Prop :=
  ∀ i j, T.Party i → T.Party j → i ≠ j → ∀ frame, frame.id ≠ none →
    (E.key j, frame) ∈ (net.app i).handed → (E.key i, frame) ∈ net.taken j

section Runs

variable {events : List (NetworkEvent S ι)}

/-- What an endpoint holds of its own it held before, or it has written it just now. -/
theorem Change.written {event : NetworkEvent S ι} (h : net.Sound E)
    (hchange : Change E net event net') {j : ι} {id : MessageId} {row : Key × Frame}
    (hrow : (net'.app j).store.ops.get id = some row) (hsender : id.sender = E.key j) :
    (net.app j).store.ops.get id = some row ∨ ∃ io now command,
      event = .command j io now command ∧ id = ((net.app j).store.counter.mint now).1 ∧
        row = (command.peer, command.frame id) := by
  have hstay {i : ι} {app : App} (happ : net'.app = Function.update net.app i app)
      (hown : j = i → app.store.ops.get id = some row →
        (net.app i).store.ops.get id = some row) : (net.app j).store.ops.get id = some row := by
    rw [happ] at hrow
    by_cases hj : j = i
    · subst hj
      rw [Function.update_self] at hrow
      exact hown rfl hrow
    · rwa [Function.update_of_ne hj] at hrow
  cases hchange with
  | aside i app haside hops hnet =>
    exact .inl (hstay (congrArg Network.app hnet) fun _ hrow => hops ▸ hrow)
  | issue i io now command hevent hcounter app hissued hnet =>
    subst hevent hnet
    by_cases hj : j = i
    · subst hj
      rw [app_update_self] at hrow
      obtain ⟨hops, -⟩ | ⟨hgained, -⟩ := hissued.gained
        (fun id hid hme => h.minted j id hid (hme.trans (h.minter j))) hcounter
      · exact .inl (hops ▸ hrow)
      · refine (hgained.cases hrow).imp_right ?_
        rintro ⟨rfl, rfl⟩
        exact ⟨io, now, command, rfl, rfl, rfl⟩
    · rw [app_update_of_ne hj] at hrow
      exact .inl hrow
  | take i k frame app hhanded htakes happ htaken =>
    exact .inl (hstay happ fun hjk hrow => h.own_of_takes hhanded htakes hrow (hjk ▸ hsender))
  | stray k sender frame app hstray htakes hnet =>
    exact .inl (hstay (congrArg Network.app hnet) fun hjk hrow =>
      own_of_stray (fun i => (hstray i).1) htakes hrow (hjk ▸ hsender))

/-- A command of `j` made this op, in this conversation. -/
def Authored (E : Endpoints C S ι) (net : Network ι) (events : List (NetworkEvent S ι)) (j : ι)
    (id : MessageId) (row : Key × Frame) : Prop :=
  ∃ k io now command, events[k]? = some (.command j io now command) ∧
    id = (((run (step E) net (events.take k)).app j).store.counter.mint now).1 ∧
    row = (command.peer, command.frame id)

theorem Authored.cons {event : NetworkEvent S ι} {j : ι} {id : MessageId} {row : Key × Frame}
    (h : Authored E (net.step E event) events j id row) :
    Authored E net (event :: events) j id row := by
  obtain ⟨k, io, now, command, hevent, hid, hrow⟩ := h
  exact ⟨k + 1, io, now, command, hevent, hid, hrow⟩

variable {app : ι → App}

end Runs

end Network

namespace Sample

open Core.Sample

end Sample

end Wicara.Client
