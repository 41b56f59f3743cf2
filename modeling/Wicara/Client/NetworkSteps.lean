import Wicara.Client.Handing

namespace Wicara.Client

open Wicara.Core Lib Lib.Fallible Lib.Run

variable {C : Crypto} {S : Sealer} {ι : Type}

theorem OpCommand.plain (c : OpCommand) (id : MessageId) :
    (c.frame id).id = some id ∧ (c.frame id).Plain := by
  obtain ⟨command, peer, frame, hmakes⟩ := c
  cases command <;> simp only [UiCommand.op, Option.some.injEq, Prod.mk.injEq,
    reduceCtorEq] at hmakes <;> obtain ⟨-, rfl⟩ := hmakes <;> exact ⟨rfl, trivial⟩

namespace Network

variable {E : Endpoints C S ι} {net net' : Network ι}

/-- What is on its way to a peer has been handed out, ids are minted under the key of whose they
are, and an endpoint holds none of its own that it has not minted. -/
structure Sound (E : Endpoints C S ι) (net : Network ι) : Prop where
  minter : ∀ i, (net.app i).store.counter.sender = E.key i
  minted : ∀ i, ∀ id ∈ (net.app i).store.ops.keys, id.sender = E.key i →
    id.seq.toNat ≤ (net.app i).store.counter.seq.toNat
  outbound : ∀ i peer frame, (some peer, frame) ∈ (net.app i).outbound →
    (peer, frame) ∈ (net.app i).handed
  mailing : ∀ i, ∀ x ∈ (net.app i).mailing, x ∈ (net.app i).handed
  handed : ∀ i peer frame id, (peer, frame) ∈ (net.app i).handed → frame.id = some id →
    id.sender = E.key i ∧ ∃ conversation op, op.Plain ∧
      (net.app i).store.ops.get id = some (conversation, op) ∧
      (frame = .inRoom conversation op ∨ frame = op ∧ peer = conversation)
  source : ∀ i j id conversation op, (net.app j).store.ops.get id = some (conversation, op) →
    id.sender = E.key i → ∃ conversation', (net.app i).store.ops.get id = some (conversation', op)

/-- Nobody has written or sent anything yet. -/
structure Begins (E : Endpoints C S ι) (app : ι → App) : Prop where
  ops : ∀ i, (app i).store.ops = .empty
  handed : ∀ i, (app i).handed = []
  outbound : ∀ i, (app i).outbound = []
  mailing : ∀ i, (app i).mailing = []
  minter : ∀ i, (app i).store.counter.sender = E.key i

theorem Begins.sound {app : ι → App} (h : Begins E app) : (start app).Sound E := by
  refine ⟨h.minter, fun i id hid => ?_, fun i peer frame hmem => ?_, fun i x hx => ?_,
    fun i peer frame id hmem => ?_, fun i j id conversation op hrow => ?_⟩
  · rw [start, h.ops] at hid
    cases hid
  · rw [start, h.outbound] at hmem
    cases hmem
  · rw [start, h.mailing] at hx
    cases hx
  · rw [start, h.handed] at hmem
    cases hmem
  · rw [start, h.ops] at hrow
    cases hrow

/-- What is to be shown where only the endpoint `i` has done something. -/
structure SoundAt (E : Endpoints C S ι) (net : Network ι) (i : ι) (app : App) : Prop where
  grows : (net.app i).Grows app
  minter : app.store.counter.sender = E.key i
  minted : ∀ id ∈ app.store.ops.keys, id.sender = E.key i →
    id.seq.toNat ≤ app.store.counter.seq.toNat
  outbound : ∀ peer frame, (some peer, frame) ∈ app.outbound → (peer, frame) ∈ app.handed
  mailing : ∀ x ∈ app.mailing, x ∈ app.handed
  handed : ∀ peer frame id, (peer, frame) ∈ app.handed → frame.id = some id →
    id.sender = E.key i ∧ ∃ conversation op, op.Plain ∧
      app.store.ops.get id = some (conversation, op) ∧
      (frame = .inRoom conversation op ∨ frame = op ∧ peer = conversation)
  source : ∀ k, k ≠ i → ∀ id conversation op, app.store.ops.get id = some (conversation, op) →
    id.sender = E.key k →
      ∃ conversation', (net.app k).store.ops.get id = some (conversation', op)

/-- What an endpoint may hand out: an op that it holds under this id. -/
def Backs (E : Endpoints C S ι) (i : ι) (app : App) (x : Key × Frame) : Prop :=
  ∀ id, x.2.id = some id → id.sender = E.key i ∧ ∃ conversation op, op.Plain ∧
    app.store.ops.get id = some (conversation, op) ∧
    (x.2 = .inRoom conversation op ∨ x.2 = op ∧ x.1 = conversation)

theorem Sound.soundAt (h : net.Sound E) {i : ι} {app : App} {frames : List (Key × Frame)}
    (hposts : (net.app i).Posts frames app) (hframes : ∀ x ∈ frames, Backs E i app x)
    (hgrows : (net.app i).Grows app) (hminter : app.store.counter.sender = E.key i)
    (hminted : ∀ id ∈ app.store.ops.keys, id.sender = E.key i →
      id.seq.toNat ≤ app.store.counter.seq.toNat)
    (hsource : ∀ k, k ≠ i → ∀ id conversation op,
      app.store.ops.get id = some (conversation, op) → id.sender = E.key k →
        ∃ conversation', (net.app k).store.ops.get id = some (conversation', op)) :
    net.SoundAt E i app := by
  have hhanded : ∀ x, x ∈ app.handed ↔ x ∈ (net.app i).handed ∨ x ∈ frames := fun x => by
    rw [hposts.handed, List.mem_append]
  refine ⟨hgrows, hminter, hminted, fun peer frame hout => ?_, fun x hx => ?_,
    fun peer frame id hx hid => ?_, hsource⟩
  · rw [hhanded]
    exact (hposts.outbound peer frame hout).imp_left (h.outbound i peer frame)
  · rw [hhanded]
    exact (hposts.mailing x hx).imp_left (h.mailing i x)
  · obtain hold | hnew := (hhanded _).mp hx
    · obtain ⟨hsender, conversation, op, hplain, hrow, hframe⟩ := h.handed i peer frame id hold hid
      exact ⟨hsender, conversation, op, hplain, hgrows _ _ hrow, hframe⟩
    · exact hframes _ hnew id hid

/-- A store that has only taken something in. -/
theorem Sound.soundAt_of_aside (h : net.Sound E) {i : ι} {app : App}
    (haside : (net.app i).Aside app) (hgrows : (net.app i).Grows app)
    (hminted : ∀ id ∈ app.store.ops.keys, id.sender = E.key i → id ∈ (net.app i).store.ops.keys)
    (hsource : ∀ k, k ≠ i → ∀ id conversation op,
      app.store.ops.get id = some (conversation, op) → id.sender = E.key k →
        ∃ conversation', (net.app k).store.ops.get id = some (conversation', op)) :
    net.SoundAt E i app := by
  obtain ⟨hcounter, frames, hposts, hframes⟩ := haside
  refine h.soundAt hposts (fun x hx id hid => ?_) hgrows ?_ (fun id hid hsender => ?_) hsource
  · rw [hframes x hx] at hid
    cases hid
  · rw [hcounter, h.minter]
  · rw [hcounter]
    exact h.minted i id (hminted id hid hsender) hsender

/-- What is handed out is unwrapped to the op that it was made from. -/
theorem unwrapRoom_eq {peer conversation : Key} {frame op : Frame} (hplain : op.Plain)
    (hframe : frame = .inRoom conversation op ∨ frame = op ∧ peer = conversation) :
    frame.unwrapRoom = op := by
  obtain rfl | ⟨rfl, -⟩ := hframe
  · rfl
  · cases frame with
    | inRoom => exact hplain.elim
    | _ => rfl

theorem backs_addressees {i : ι} {app : App} {rooms : Table RoomId Room} {conversation : Key}
    {op : Frame} {id : MessageId} (hid : op.id = some id) (hsender : id.sender = E.key i)
    (hplain : op.Plain) (hrow : app.store.ops.get id = some (conversation, op)) :
    ∀ x ∈ addressees (E.env i) rooms conversation op, Backs E i app x := by
  have hback (peer : Key) (frame : Frame)
      (hframe : frame = .inRoom conversation op ∨ frame = op ∧ peer = conversation) :
      Backs E i app (peer, frame) := by
    intro id' hid'
    have hsame : frame.id = op.id := by
      obtain rfl | ⟨rfl, -⟩ := hframe
      · rfl
      · rfl
    obtain rfl := Option.some.inj (hid.symm.trans (hsame.symm.trans hid'))
    exact ⟨hsender, conversation, op, hplain, hrow, hframe⟩
  intro x hx
  unfold addressees at hx
  split at hx
  · rw [List.mem_singleton.mp hx]
    exact hback _ _ (.inr ⟨rfl, rfl⟩)
  · split at hx
    · cases hx
    · obtain ⟨member, -, rfl⟩ := List.mem_map.mp hx
      exact hback _ _ (.inl rfl)

/-- An endpoint that mints an op and hands it out. -/
theorem Sound.soundAt_of_issued (h : net.Sound E) {i : ι} {io : Io} {now : UInt64}
    {command : OpCommand} {app : App}
    (hcounter : (net.app i).store.counter.seq.toNat + 1 < UInt64.size)
    (hissued : IssuedOp (E.env i) io now command.peer command.frame (net.app i) app) :
    net.SoundAt E i app := by
  have hminter := h.minter i
  obtain ⟨hid, hplain⟩ := command.plain ((net.app i).store.counter.mint now).1
  have hsender : ((net.app i).store.counter.mint now).1.sender = E.key i := hminter
  have hseq : app.store.counter.seq.toNat = (net.app i).store.counter.seq.toNat + 1 := by
    rw [hissued.counter]
    change ((net.app i).store.counter.seq + 1).toNat = _
    rw [UInt64.toNat_add, UInt64.toNat_one, Nat.mod_eq_of_lt hcounter]
  have hminter' : app.store.counter.sender = E.key i := by
    rw [hissued.counter]
    exact hminter
  obtain ⟨hops, hposts⟩ | ⟨hgained, hposts⟩ :=
    hissued.gained (fun id hid hsender => h.minted i id hid (hsender.trans hminter)) hcounter
  · refine h.soundAt hposts (by simp) (.of_eq hops) hminter' (fun id hid hme => ?_)
      fun k _ id conversation op hrow hme => ?_
    · rw [hops] at hid
      exact (h.minted i id hid hme).trans (hseq ▸ Nat.le_succ _)
    · rw [hops] at hrow
      exact h.source k i id conversation op hrow hme
  · have hminted : ∀ id ∈ app.store.ops.keys, id.sender = E.key i →
        id.seq.toNat ≤ app.store.counter.seq.toNat := fun id hmem hme => by
      obtain ⟨row, hrow⟩ := Table.mem_keys.mp hmem
      obtain hold | ⟨rfl, -⟩ := hgained.cases hrow
      · exact (h.minted i id (Table.mem_keys.mpr ⟨row, hold⟩) hme).trans (hseq ▸ Nat.le_succ _)
      · rw [hissued.counter]
        exact le_refl _
    have hsource : ∀ k, k ≠ i → ∀ id conversation op,
        app.store.ops.get id = some (conversation, op) → id.sender = E.key k →
          ∃ conversation', (net.app k).store.ops.get id = some (conversation', op) := by
      intro k hk id conversation op hrow hme
      obtain hold | ⟨rfl, -⟩ := hgained.cases hrow
      · exact h.source k i id conversation op hold hme
      · exact absurd (Endpoints.key_inj.mp (hme.symm.trans hsender)) hk
    obtain hposts | ⟨-, hposts⟩ := hposts
    · exact h.soundAt hposts (backs_addressees hid hsender hplain hgained.self) hgained.grows
        hminter' hminted hsource
    · exact h.soundAt hposts (by simp) hgained.grows hminter' hminted hsource

/-- Of its own an endpoint is handed only what it has. -/
theorem Sound.own_of_takes (h : net.Sound E) {i j : ι} {frame : Frame} {app : App}
    (hhanded : (E.key j, frame) ∈ (net.app i).handed)
    (htakes : Takes (E.key i) frame (net.app j) app) {id : MessageId} {row : Key × Frame}
    (hrow : app.store.ops.get id = some row) (hsender : id.sender = E.key j) :
    (net.app j).store.ops.get id = some row := by
  obtain hops | ⟨id', hid, hfrom, hgained, -⟩ := htakes.gained
  · exact hops ▸ hrow
  · refine (hgained.cases hrow).resolve_right ?_
    rintro ⟨rfl, -⟩
    obtain rfl := Endpoints.key_inj.mp (hfrom.symm.trans hsender)
    obtain ⟨-, _, _, -, hrow', -⟩ := h.handed i _ _ id hhanded hid
    exact hgained.new (Table.mem_keys.mpr ⟨_, hrow'⟩)

/-- Of its own an endpoint gets nothing from elsewhere. -/
theorem own_of_stray {j : ι} {sender : Key} {frame : Frame} {app : App}
    (hstray : ∀ i, E.key i ≠ sender) (htakes : Takes sender frame (net.app j) app)
    {id : MessageId} {row : Key × Frame} (hrow : app.store.ops.get id = some row)
    (hsender : id.sender = E.key j) : (net.app j).store.ops.get id = some row := by
  obtain hops | ⟨id', hid, hfrom, hgained, -⟩ := htakes.gained
  · exact hops ▸ hrow
  · refine (hgained.cases hrow).resolve_right ?_
    rintro ⟨rfl, -⟩
    exact hstray j (hsender.symm.trans hfrom)

/-- An endpoint that takes what another has handed out. -/
theorem Sound.soundAt_of_takes (h : net.Sound E) {i j : ι} {frame : Frame} {app : App}
    (hhanded : (E.key j, frame) ∈ (net.app i).handed)
    (htakes : Takes (E.key i) frame (net.app j) app) : net.SoundAt E j app := by
  refine h.soundAt_of_aside htakes.aside htakes.grows (fun id hmem hme => ?_)
    fun k _ id conversation op hrow hme => ?_
  · obtain ⟨row, hrow⟩ := Table.mem_keys.mp hmem
    exact Table.mem_keys.mpr ⟨row, h.own_of_takes hhanded htakes hrow hme⟩
  · obtain hops | ⟨id', hid, hsender, hgained, -⟩ := htakes.gained
    · rw [hops] at hrow
      exact h.source k j id conversation op hrow hme
    · obtain hold | ⟨rfl, hnew⟩ := hgained.cases hrow
      · exact h.source k j id conversation op hold hme
      · obtain ⟨-, conversation', op', hplain, hrow', hframe⟩ := h.handed i _ _ id hhanded hid
        obtain rfl := Endpoints.key_inj.mp (hsender.symm.trans hme)
        rw [Prod.mk.injEq] at hnew
        rw [hnew.2, unwrapRoom_eq hplain hframe]
        exact ⟨conversation', hrow'⟩

/-- An endpoint that takes what comes from elsewhere. -/
theorem Sound.soundAt_of_stray (h : net.Sound E) {j : ι} {sender : Key} {frame : Frame}
    {app : App} (hstray : ∀ i, E.key i ≠ sender) (htakes : Takes sender frame (net.app j) app) :
    net.SoundAt E j app := by
  refine h.soundAt_of_aside htakes.aside htakes.grows (fun id hmem hme => ?_)
    fun k _ id conversation op hrow hme => ?_
  · obtain ⟨row, hrow⟩ := Table.mem_keys.mp hmem
    exact Table.mem_keys.mpr ⟨row, own_of_stray hstray htakes hrow hme⟩
  · obtain hops | ⟨id', -, hsender, hgained, -⟩ := htakes.gained
    · rw [hops] at hrow
      exact h.source k j id conversation op hrow hme
    · obtain hold | ⟨rfl, -⟩ := hgained.cases hrow
      · exact h.source k j id conversation op hold hme
      · exact absurd (hme.symm.trans hsender) (hstray k)

variable [DecidableEq ι]

@[simp] theorem app_update_self (net : Network ι) (i : ι) (app : App) :
    (net.update i app).app i = app := Function.update_self _ _ _

@[simp] theorem app_update_of_ne {i j : ι} (h : j ≠ i) (net : Network ι) (app : App) :
    (net.update i app).app j = net.app j := Function.update_of_ne h _ _

/-- What an event does to the network. -/
inductive Change (E : Endpoints C S ι) (net : Network ι) (event : NetworkEvent S ι)
    (net' : Network ι) : Prop
  | aside (i : ι) (app : App) (haside : (net.app i).Aside app)
      (hops : app.store.ops = (net.app i).store.ops) (hnet : net' = net.update i app)
  | issue (i : ι) (io : Io) (now : UInt64) (command : OpCommand)
      (hevent : event = .command i io now command)
      (hcounter : (net.app i).store.counter.seq.toNat + 1 < UInt64.size) (app : App)
      (hissued : IssuedOp (E.env i) io now command.peer command.frame (net.app i) app)
      (hnet : net' = net.update i app)
  | take (i j : ι) (frame : Frame) (app : App) (hhanded : (E.key j, frame) ∈ (net.app i).handed)
      (htakes : Takes (E.key i) frame (net.app j) app)
      (happ : net'.app = Function.update net.app j app)
      (htaken : net'.taken = net.taken ∨
        net'.taken = Function.update net.taken j (net.taken j ++ [(E.key i, frame)]) ∧
          ∀ id, frame.id = some id → id ∈ app.store.ops.keys)
  | stray (j : ι) (sender : Key) (frame : Frame) (app : App)
      (hsender : ∀ i, E.key i ≠ sender ∧ (net.app i).rooms.get sender = none)
      (htakes : Takes sender frame (net.app j) app) (hnet : net' = net.update j app)

theorem Sound.of_soundAt (h : net.Sound E) {i : ι} {app : App}
    (happ : net'.app = Function.update net.app i app) (hat : net.SoundAt E i app) :
    net'.Sound E := by
  have hself : net'.app i = app := by rw [happ, Function.update_self]
  have hrest : ∀ j, j ≠ i → net'.app j = net.app j := fun j hj => by
    rw [happ, Function.update_of_ne hj]
  have hgrows : ∀ j, (net.app j).Grows (net'.app j) := fun j => by
    by_cases hj : j = i
    · subst hj
      rw [hself]
      exact hat.grows
    · rw [hrest j hj]
      exact fun _ _ hrow => hrow
  refine ⟨fun j => ?_, fun j => ?_, fun j => ?_, fun j => ?_, fun j => ?_,
    fun k j id conversation op hrow hsender => ?_⟩
  case refine_6 =>
    by_cases hj : j = i
    · subst hj
      by_cases hk : k = j
      · exact ⟨conversation, hk ▸ hrow⟩
      · rw [hself] at hrow
        rw [hrest k hk]
        exact hat.source k hk id conversation op hrow hsender
    · rw [hrest j hj] at hrow
      obtain ⟨conversation', hsource⟩ := h.source k j id conversation op hrow hsender
      exact ⟨conversation', hgrows k _ _ hsource⟩
  all_goals
    by_cases hj : j = i
    · subst hj
      rw [hself]
      first | exact hat.minter | exact hat.minted | exact hat.outbound | exact hat.mailing |
        exact hat.handed
    · rw [hrest j hj]
      first | exact h.minter j | exact h.minted j | exact h.outbound j | exact h.mailing j |
        exact h.handed j

/-- Every event keeps the network sound. -/
theorem Sound.change {event : NetworkEvent S ι} (h : net.Sound E)
    (hchange : Change E net event net') : net'.Sound E := by
  cases hchange with
  | aside i app haside hops hnet =>
    subst hnet
    refine h.of_soundAt rfl (h.soundAt_of_aside haside (.of_eq hops) (fun id hid _ => hops ▸ hid)
      fun k _ id conversation op hrow hsender => ?_)
    rw [hops] at hrow
    exact h.source k i id conversation op hrow hsender
  | issue i io now command hevent hcounter app hissued hnet =>
    subst hnet
    exact h.of_soundAt rfl (h.soundAt_of_issued hcounter hissued)
  | take i j frame app hhanded htakes happ htaken =>
    exact h.of_soundAt happ (h.soundAt_of_takes hhanded htakes)
  | stray j sender frame app hstray htakes hnet =>
    subst hnet
    exact h.of_soundAt rfl (h.soundAt_of_stray (fun i => (hstray i).1) htakes)

end Network

end Wicara.Client
