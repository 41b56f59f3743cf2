import Wicara.Client.NetworkSteps
import Wicara.Client.Viewpoints
import Wicara.Lib.Replicas

namespace Wicara.Client

open Wicara.Core Lib Lib.Fallible Lib.Run

variable {C : Crypto} {S : Sealer} {ι : Type}

/-- A conversation as its parties have it: a room that some are in, or what two say to each
other. -/
inductive Talk (ι : Type)
  | room (id : RoomId) (parties : Set ι)
  | pair (a b : ι)

namespace Talk

variable (E : Endpoints C S ι)

def Party : Talk ι → ι → Prop
  | .room _ parties, i => i ∈ parties
  | .pair a b, i => i = a ∨ i = b

/-- Under which key a party keeps the conversation. -/
def keyAt [DecidableEq ι] : Talk ι → ι → Key
  | .room id _, _ => id
  | .pair a b, i => if i = a then E.key b else E.key a

/-- As what the ops of the conversation are sent. -/
def wrap : Talk ι → Frame → Frame
  | .room id _, op => .inRoom id op
  | .pair _ _, op => op

/-- The parties are those that they take each other for. -/
def Stands (net : Network ι) : Talk ι → Prop
  | .room id parties => ∀ i ∈ parties, ∃ room, (net.app i).rooms.get id = some room ∧
      ∀ k, k ∈ room.members ↔ ∃ j ∈ parties, E.key j = k
  | .pair a b => (net.app a).rooms.get (E.key b) = none ∧ (net.app b).rooms.get (E.key a) = none

/-- No endpoint has the id of the room for its key. -/
def Named : Talk ι → Prop
  | .room id _ => ∀ i, E.key i ≠ id
  | .pair _ _ => True

end Talk

namespace Network

variable [DecidableEq ι] {E : Endpoints C S ι} {net net' : Network ι} {T : Talk ι}

/-- What is handed out of a conversation goes out as its ops do, an op that a party holds is kept
as its author keeps it, and what was taken is there. -/
structure Shared (E : Endpoints C S ι) (T : Talk ι) (net : Network ι) : Prop where
  sent : ∀ k, T.Party k → ∀ peer frame id op, (peer, frame) ∈ (net.app k).handed →
    frame.id = some id → (net.app k).store.ops.get id = some (T.keyAt E k, op) → frame = T.wrap op
  kept : ∀ j k, T.Party j → T.Party k → ∀ id conversation op,
    (net.app j).store.ops.get id = some (conversation, op) → id.sender = E.key k →
      ∃ conversation', (net.app k).store.ops.get id = some (conversation', op) ∧
        (conversation' = T.keyAt E k ↔ conversation = T.keyAt E j)
  author : ∀ j, T.Party j → ∀ id op, (net.app j).store.ops.get id = some (T.keyAt E j, op) →
    ∃ k, T.Party k ∧ id.sender = E.key k
  taken : ∀ j, ∀ x ∈ net.taken j, ∀ id, x.2.id = some id → id ∈ (net.app j).store.ops.keys

theorem Begins.shared {app : ι → App} (h : Begins E app) : Shared E T (start app) := by
  refine ⟨fun k _ peer frame id op hmem => ?_, fun j k _ _ id conversation op hrow => ?_,
    fun j _ id op hrow => ?_, fun j x hx => by cases hx⟩
  · rw [start, h.handed] at hmem
    cases hmem
  · rw [start, h.ops] at hrow
    cases hrow
  · rw [start, h.ops] at hrow
    cases hrow

theorem Shared.of_sharedAt (hs : Shared E T net) {i : ι} {app : App}
    (happ : net'.app = Function.update net.app i app) (hgrows : (net.app i).Grows app)
    (hsent : T.Party i → ∀ peer frame id op, (peer, frame) ∈ app.handed → frame.id = some id →
      app.store.ops.get id = some (T.keyAt E i, op) → frame = T.wrap op)
    (hkept : T.Party i → ∀ k, k ≠ i → T.Party k → ∀ id conversation op,
      app.store.ops.get id = some (conversation, op) → id.sender = E.key k →
        ∃ conversation', (net.app k).store.ops.get id = some (conversation', op) ∧
          (conversation' = T.keyAt E k ↔ conversation = T.keyAt E i))
    (hauthor : T.Party i → ∀ id op, app.store.ops.get id = some (T.keyAt E i, op) →
      ∃ k, T.Party k ∧ id.sender = E.key k)
    (htaken : ∀ j, ∀ x ∈ net'.taken j, x ∈ net.taken j ∨
      j = i ∧ ∀ id, x.2.id = some id → id ∈ app.store.ops.keys) :
    Shared E T net' := by
  have hself : net'.app i = app := by rw [happ, Function.update_self]
  have hrest : ∀ j, j ≠ i → net'.app j = net.app j := fun j hj => by
    rw [happ, Function.update_of_ne hj]
  have hgrow : ∀ j, (net.app j).Grows (net'.app j) := fun j => by
    by_cases hj : j = i
    · subst hj
      rw [hself]
      exact hgrows
    · rw [hrest j hj]
      exact fun _ _ hrow => hrow
  refine ⟨fun k hk => ?_, fun j k hj hk id conversation op hrow hsender => ?_, fun j hj => ?_,
    fun j x hx id hid => ?_⟩
  · by_cases hki : k = i
    · subst hki
      rw [hself]
      exact hsent hk
    · rw [hrest k hki]
      exact hs.sent k hk
  · by_cases hji : j = i
    · subst hji
      by_cases hkj : k = j
      · subst hkj
        exact ⟨conversation, hrow, Iff.rfl⟩
      · rw [hself] at hrow
        rw [hrest k hkj]
        exact hkept hj k hkj hk id conversation op hrow hsender
    · rw [hrest j hji] at hrow
      obtain ⟨conversation', hkeeps, hiff⟩ := hs.kept j k hj hk id conversation op hrow hsender
      exact ⟨conversation', hgrow k _ _ hkeeps, hiff⟩
  · by_cases hji : j = i
    · subst hji
      rw [hself]
      exact hauthor hj
    · rw [hrest j hji]
      exact hs.author j hj
  · obtain hold | ⟨rfl, hnew⟩ := htaken j x hx
    · obtain ⟨row, hrow⟩ := Table.mem_keys.mp (hs.taken j x hold id hid)
      exact Table.mem_keys.mpr ⟨row, hgrow j _ _ hrow⟩
    · rw [hself]
      exact hnew id hid

theorem conversation_of_plain {op : Frame} (h : op.Plain) (sender : Key) :
    op.conversation sender = sender := by
  cases op with
  | inRoom => exact h.elim
  | _ => rfl

/-- Of two that talk to each other, each has the other's key for their conversation. -/
theorem keyAt_pair {a b i j : ι} (hi : (Talk.pair a b).Party i) (hj : (Talk.pair a b).Party j)
    (hij : i ≠ j) : (Talk.pair a b).keyAt E j = E.key i := by
  rw [Talk.keyAt]
  obtain rfl | rfl := hi
  · obtain rfl | rfl := hj
    · exact absurd rfl hij
    · rw [if_neg hij.symm]
  · obtain rfl | rfl := hj
    · rw [if_pos rfl]
    · exact absurd rfl hij

theorem rooms_pair {a b i : ι} (hi : (Talk.pair a b).Party i)
    (hstands : (Talk.pair a b).Stands E net) :
    (net.app i).rooms.get ((Talk.pair a b).keyAt E i) = none := by
  rw [Talk.keyAt]
  obtain rfl | rfl := hi
  · rw [if_pos rfl]
    exact hstands.1
  · split
    · rename_i heq
      subst heq
      exact hstands.1
    · exact hstands.2

/-- What comes into the conversation comes from one of its parties, and as its ops do. -/
theorem entered {j : ι} {sender : Key} {frame : Frame} (hj : T.Party j) (hstands : T.Stands E net)
    (hsender : ∀ id parties, T = .room id parties → sender ≠ id)
    (hmember : ∀ room op, frame = .inRoom room op → (net.app j).isMember room sender = true)
    (hconversation : frame.conversation sender = T.keyAt E j) :
    (∃ k, T.Party k ∧ E.key k = sender) ∧ frame = T.wrap frame.unwrapRoom := by
  cases T with
  | room id parties =>
    obtain ⟨room, hroom, hmembers⟩ := hstands j hj
    cases frame with
    | inRoom room' op =>
      obtain rfl : room' = id := hconversation
      have hin := hmember room' op rfl
      rw [App.isMember, hroom] at hin
      obtain ⟨k, hk, hkey⟩ := (hmembers sender).mp (of_decide_eq_true hin)
      exact ⟨⟨k, hk, hkey⟩, rfl⟩
    | _ => exact absurd hconversation (hsender id parties rfl)
  | pair a b =>
    cases frame with
    | inRoom room op =>
      have hin := hmember room op rfl
      rw [App.isMember, show room = _ from hconversation, rooms_pair hj hstands] at hin
      cases hin
    | _ =>
      refine ⟨?_, rfl⟩
      change sender = _ at hconversation
      rw [hconversation, Talk.keyAt]
      split
      · exact ⟨b, .inr rfl, rfl⟩
      · exact ⟨a, .inl rfl, rfl⟩

/-- What a party sends of the conversation comes into it at the others. -/
theorem conversation_wrap {i j : ι} {op : Frame} (hi : T.Party i) (hj : T.Party j) (hij : i ≠ j)
    (hplain : op.Plain) : (T.wrap op).conversation (E.key i) = T.keyAt E j := by
  cases T with
  | room id parties => rfl
  | pair a b => exact (conversation_of_plain hplain _).trans (keyAt_pair hi hj hij).symm

/-- Nothing of an op is handed out that was not before. -/
theorem mem_handed_of_aside {a b : App} (h : a.Aside b) {peer : Key} {frame : Frame}
    {id : MessageId} (hmem : (peer, frame) ∈ b.handed) (hid : frame.id = some id) :
    (peer, frame) ∈ a.handed := by
  obtain ⟨-, frames, hposts, hframes⟩ := h
  rw [hposts.handed, List.mem_append] at hmem
  refine hmem.resolve_right fun hnew => ?_
  have hnone := hframes _ hnew
  rw [show frame.id = some id from hid] at hnone
  cases hnone

/-- What was handed out before goes on being what it was. -/
theorem Shared.sent_of_mem (h : net.Sound E) (hs : Shared E T net) {i : ι} {app : App}
    (hgrows : (net.app i).Grows app) (hi : T.Party i) {peer : Key} {frame op : Frame}
    {id : MessageId} (hmem : (peer, frame) ∈ (net.app i).handed) (hid : frame.id = some id)
    (hrow : app.store.ops.get id = some (T.keyAt E i, op)) : frame = T.wrap op := by
  obtain ⟨-, conversation, op', -, hold, -⟩ := h.handed i peer frame id hmem hid
  have hsame := Option.some.inj ((hgrows _ _ hold).symm.trans hrow)
  exact hs.sent i hi peer frame id op hmem hid (hsame ▸ hold)

theorem id_of_mem_addressees {env : Env C} {rooms : Table RoomId Room} {conversation peer : Key}
    {op frame : Frame} (hmem : (peer, frame) ∈ addressees env rooms conversation op) :
    frame.id = op.id := by
  unfold addressees at hmem
  split at hmem
  · rw [List.mem_singleton, Prod.mk.injEq] at hmem
    rw [hmem.2]
  · split at hmem
    · cases hmem
    · obtain ⟨member, -, heq⟩ := List.mem_map.mp hmem
      rw [Prod.mk.injEq] at heq
      rw [← heq.2]
      rfl

/-- To whom an op of the conversation goes: to all parties but its author, as its ops do. -/
theorem mem_addressees {i : ι} {op frame : Frame} {peer : Key} (hstands : T.Stands E net)
    (hi : T.Party i) :
    (peer, frame) ∈ addressees (E.env i) (net.app i).rooms (T.keyAt E i) op →
      frame = T.wrap op := by
  intro hmem
  cases T with
  | room id parties =>
    obtain ⟨room, hroom, hmembers⟩ := hstands i hi
    have hme : ¬(E.env i).me ∉ room.members := not_not.mpr ((hmembers _).mpr ⟨i, hi, rfl⟩)
    simp only [addressees, Talk.keyAt, hroom, if_neg hme] at hmem
    obtain ⟨member, -, heq⟩ := List.mem_map.mp hmem
    exact (Prod.mk.inj heq).2.symm
  | pair a b =>
    rw [addressees, rooms_pair hi hstands, List.mem_singleton, Prod.mk.injEq] at hmem
    exact hmem.2

theorem addressees_mem {i j : ι} {op : Frame} (hstands : T.Stands E net) (hi : T.Party i)
    (hj : T.Party j) (hij : i ≠ j) :
    (E.key j, T.wrap op) ∈ addressees (E.env i) (net.app i).rooms (T.keyAt E i) op := by
  cases T with
  | room id parties =>
    obtain ⟨room, hroom, hmembers⟩ := hstands i hi
    have hme : ¬(E.env i).me ∉ room.members := not_not.mpr ((hmembers _).mpr ⟨i, hi, rfl⟩)
    simp only [addressees, Talk.keyAt, hroom, if_neg hme]
    refine List.mem_map.mpr ⟨E.key j, List.mem_filter.mpr ⟨?_, ?_⟩, rfl⟩
    · exact mem_inOrder.mpr ((hmembers _).mpr ⟨j, hj, rfl⟩)
    · exact decide_eq_true fun heq => hij (Endpoints.key_inj.mp heq).symm
  | pair a b =>
    rw [addressees, rooms_pair hi hstands, List.mem_singleton, keyAt_pair hj hi hij.symm]
    rfl

/-- An op that was sent as those of the conversation is kept in it by its author. -/
theorem keyAt_of_wrap {i j : ι} {conversation : Key} {op : Frame} (hi : T.Party i) (hj : T.Party j)
    (hij : i ≠ j) (hplain : op.Plain)
    (hframe : T.wrap op = .inRoom conversation op ∨ T.wrap op = op ∧ E.key j = conversation) :
    conversation = T.keyAt E i := by
  cases T with
  | room id parties =>
    obtain heq | ⟨heq, -⟩ := hframe
    · exact (Frame.inRoom.inj heq).1.symm
    · rw [← heq] at hplain
      exact hplain.elim
  | pair a b =>
    obtain heq | ⟨-, heq⟩ := hframe
    · rw [show op = _ from heq] at hplain
      exact hplain.elim
    · rw [← heq, keyAt_pair hj hi hij.symm]

/-- A conversation that one of its parties writes in, or somebody in another. -/
theorem Shared.issued (h : net.Sound E) (hs : Shared E T net) (hstands : T.Stands E net) {i : ι}
    {io : Io} {now : UInt64} {command : OpCommand} {app : App}
    (hcounter : (net.app i).store.counter.seq.toNat + 1 < UInt64.size)
    (hissued : IssuedOp (E.env i) io now command.peer command.frame (net.app i) app) :
    Shared E T (net.update i app) := by
  have hminter := h.minter i
  have hid := (command.plain ((net.app i).store.counter.mint now).1).1
  have hsender : ((net.app i).store.counter.mint now).1.sender = E.key i := hminter
  obtain ⟨hops, hposts⟩ | ⟨hgained, hposts⟩ :=
    hissued.gained (fun id hid hsender => h.minted i id hid (hsender.trans hminter)) hcounter
  · have hgrows : (net.app i).Grows app := .of_eq hops
    refine hs.of_sharedAt rfl hgrows (fun hi peer frame id op hmem hid hrow => ?_)
      (fun hi k _ hk id conversation op hrow hsender => ?_) (fun hi id op hrow => ?_)
      fun j x hx => .inl hx
    · rw [hposts.handed, List.append_nil] at hmem
      exact hs.sent_of_mem h hgrows hi hmem hid hrow
    · rw [hops] at hrow
      exact hs.kept i k hi hk id conversation op hrow hsender
    · rw [hops] at hrow
      exact hs.author i hi id op hrow
  · refine hs.of_sharedAt rfl hgained.grows (fun hi peer' frame' id op hmem hid' hrow => ?_)
      (fun hi k hki hk id conversation op hrow hme => ?_) (fun hi id op hrow => ?_)
      fun j x hx => .inl hx
    · have hcases : (peer', frame') ∈ (net.app i).handed ∨
          (peer', frame') ∈ addressees (E.env i) (net.app i).rooms command.peer
            (command.frame ((net.app i).store.counter.mint now).1) := by
        obtain hposts | ⟨-, hposts⟩ := hposts
        · rwa [hposts.handed, List.mem_append] at hmem
        · rw [hposts.handed, List.append_nil] at hmem
          exact .inl hmem
      obtain hold | hnew := hcases
      · exact hs.sent_of_mem h hgained.grows hi hold hid' hrow
      · have hsame : some id = some _ := hid'.symm.trans ((id_of_mem_addressees hnew).trans hid)
        obtain rfl := Option.some.inj hsame
        obtain ⟨hpeer, rfl⟩ := Prod.mk.inj (Option.some.inj (hgained.self.symm.trans hrow))
        exact mem_addressees hstands hi (hpeer ▸ hnew)
    · obtain hold | ⟨rfl, -⟩ := hgained.cases hrow
      · exact hs.kept i k hi hk id conversation op hold hme
      · exact absurd (Endpoints.key_inj.mp (hme.symm.trans hsender)) hki
    · obtain hold | ⟨rfl, -⟩ := hgained.cases hrow
      · exact hs.author i hi id op hold
      · exact ⟨i, hi, hsender⟩

/-- What comes to an endpoint is in the conversation there if it is for its author. -/
theorem Shared.took (h : net.Sound E) (hs : Shared E T net) (hnamed : T.Named E)
    (hstands' : T.Stands E net') {i j : ι} {frame : Frame} {app : App}
    (hhanded : (E.key j, frame) ∈ (net.app i).handed)
    (htakes : Takes (E.key i) frame (net.app j) app)
    (happ : net'.app = Function.update net.app j app)
    (hdone : ∀ k, ∀ x ∈ net'.taken k, x ∈ net.taken k ∨
      k = j ∧ ∀ id, x.2.id = some id → id ∈ app.store.ops.keys) : Shared E T net' := by
  have hself : net'.app j = app := by rw [happ, Function.update_self]
  have hsent (hj : T.Party j) (peer : Key) (frame : Frame) (id : MessageId) (op : Frame)
      (hmem : (peer, frame) ∈ app.handed) (hid : frame.id = some id)
      (hrow : app.store.ops.get id = some (T.keyAt E j, op)) : frame = T.wrap op :=
    hs.sent_of_mem h htakes.grows hj (mem_handed_of_aside htakes.aside hmem hid) hid hrow
  obtain hops | ⟨id, hid, hsender, hgained, hmember⟩ := htakes.gained
  · refine hs.of_sharedAt happ (.of_eq hops) hsent
      (fun hj k _ hk id conversation op hrow hsender => ?_) (fun hj id op hrow => ?_) hdone
    · rw [hops] at hrow
      exact hs.kept j k hj hk id conversation op hrow hsender
    · rw [hops] at hrow
      exact hs.author j hj id op hrow
  · obtain ⟨-, conversation, op, hplain, hrow, hframe⟩ := h.handed i _ _ id hhanded hid
    have hop := unwrapRoom_eq hplain hframe
    have hentered (hj : T.Party j) (hconversation : frame.conversation (E.key i) = T.keyAt E j) :
        T.Party i ∧ frame = T.wrap op := by
      have hname : ∀ id parties, T = .room id parties → E.key i ≠ id := by
        rintro id parties rfl
        exact hnamed i
      obtain ⟨⟨k, hk, hkey⟩, heq⟩ := entered hj hstands' hname
        (fun room op heq => by rw [hself]; exact hmember room op heq) hconversation
      rw [Endpoints.key_inj.mp hkey] at hk
      exact ⟨hk, by rw [heq, hop]⟩
    refine hs.of_sharedAt happ htakes.grows hsent
      (fun hj k hkj hk id' conversation' op' hrow' hme => ?_) (fun hj id' op' hrow' => ?_) hdone
    · obtain hold | ⟨rfl, hnew⟩ := hgained.cases hrow'
      · exact hs.kept j k hj hk id' conversation' op' hold hme
      · obtain rfl := Endpoints.key_inj.mp (hsender.symm.trans hme)
        rw [Prod.mk.injEq, hop] at hnew
        obtain ⟨rfl, rfl⟩ := hnew
        refine ⟨conversation, hrow, fun hkeep => ?_, fun hconversation => ?_⟩
        · rw [hs.sent i hk _ frame id' op' hhanded hid (hkeep ▸ hrow)]
          exact conversation_wrap hk hj hkj hplain
        · rw [(hentered hj hconversation).2] at hframe
          exact keyAt_of_wrap hk hj hkj hplain hframe
    · obtain hold | ⟨rfl, hnew⟩ := hgained.cases hrow'
      · exact hs.author j hj id' op' hold
      · rw [Prod.mk.injEq] at hnew
        exact ⟨i, (hentered hj hnew.1.symm).1, hsender⟩

/-- What comes from elsewhere does not come into the conversation. -/
theorem Shared.strayed (h : net.Sound E) (hs : Shared E T net) (hstands : T.Stands E net) {j : ι}
    {sender : Key} {frame : Frame} {app : App} (hstands' : T.Stands E (net.update j app))
    (hstray : ∀ i, E.key i ≠ sender ∧ (net.app i).rooms.get sender = none)
    (htakes : Takes sender frame (net.app j) app) : Shared E T (net.update j app) := by
  have hsent (hj : T.Party j) (peer : Key) (frame : Frame) (id : MessageId) (op : Frame)
      (hmem : (peer, frame) ∈ app.handed) (hid : frame.id = some id)
      (hrow : app.store.ops.get id = some (T.keyAt E j, op)) : frame = T.wrap op :=
    hs.sent_of_mem h htakes.grows hj (mem_handed_of_aside htakes.aside hmem hid) hid hrow
  obtain hops | ⟨id, hid, hsender, hgained, hmember⟩ := htakes.gained
  · refine hs.of_sharedAt rfl (.of_eq hops) hsent
      (fun hj k _ hk id conversation op hrow hsender => ?_) (fun hj id op hrow => ?_)
      fun k x hx => .inl hx
    · rw [hops] at hrow
      exact hs.kept j k hj hk id conversation op hrow hsender
    · rw [hops] at hrow
      exact hs.author j hj id op hrow
  · refine hs.of_sharedAt rfl htakes.grows hsent
      (fun hj k hkj hk id' conversation' op' hrow' hme => ?_) (fun hj id' op' hrow' => ?_)
      fun k x hx => .inl hx
    · obtain hold | ⟨rfl, -⟩ := hgained.cases hrow'
      · exact hs.kept j k hj hk id' conversation' op' hold hme
      · exact absurd (hme.symm.trans hsender) (hstray k).1
    · obtain hold | ⟨rfl, hnew⟩ := hgained.cases hrow'
      · exact hs.author j hj id' op' hold
      · rw [Prod.mk.injEq] at hnew
        have hname : ∀ id parties, T = .room id parties → sender ≠ id := by
          rintro room parties rfl rfl
          obtain ⟨r, hr, -⟩ := hstands j hj
          rw [(hstray j).2] at hr
          cases hr
        obtain ⟨⟨k, -, hkey⟩, -⟩ := entered hj hstands' hname
          (fun room op heq => by rw [app_update_self]; exact hmember room op heq) hnew.1.symm
        exact absurd hkey (hstray k).1

theorem Shared.change {event : NetworkEvent S ι} (h : net.Sound E) (hs : Shared E T net)
    (hnamed : T.Named E) (hstands : T.Stands E net) (hstands' : T.Stands E net')
    (hchange : Change E net event net') : Shared E T net' := by
  cases hchange with
  | aside i app haside hops hnet =>
    subst hnet
    have hgrows : (net.app i).Grows app := .of_eq hops
    refine hs.of_sharedAt rfl hgrows (fun hi peer frame id op hmem hid hrow => ?_)
      (fun hi k _ hk id conversation op hrow hsender => ?_) (fun hi id op hrow => ?_)
      fun j x hx => .inl hx
    · exact hs.sent_of_mem h hgrows hi (mem_handed_of_aside haside hmem hid) hid hrow
    · rw [hops] at hrow
      exact hs.kept i k hi hk id conversation op hrow hsender
    · rw [hops] at hrow
      exact hs.author i hi id op hrow
  | issue i io now command hevent hcounter app hissued hnet =>
    subst hnet
    exact hs.issued h hstands hcounter hissued
  | take i j frame app hhanded htakes happ htaken =>
    refine hs.took h hnamed hstands' hhanded htakes happ fun k x hx => ?_
    obtain heq | ⟨heq, hkeys⟩ := htaken
    · exact .inl (heq ▸ hx)
    · rw [heq] at hx
      by_cases hk : k = j
      · subst hk
        rw [Function.update_self, List.mem_append, List.mem_singleton] at hx
        obtain hx | rfl := hx
        · exact .inl hx
        · exact .inr ⟨rfl, hkeys⟩
      · rw [Function.update_of_ne hk] at hx
        exact .inl hx
  | stray j sender frame app hstray htakes hnet =>
    subst hnet
    exact hs.strayed h hstands hstands' hstray htakes

end Network

end Wicara.Client
