import Wicara.Client.Folding
import Wicara.Core.Sample

namespace Wicara.Client

open Wicara.Core Lib Lib.Fallible Lib.Arrange

namespace OpRow

/-- A column as the database compares it. -/
def signed (column : UInt64) : Int := column.toInt64.toInt

theorem signed_inj {a b : UInt64} : signed a = signed b ↔ a = b := by
  rw [signed, signed, Int64.toInt_inj]
  refine ⟨fun h => ?_, congrArg _⟩
  rw [← a.toUInt64_toInt64, h, b.toUInt64_toInt64]

theorem signed_of_lt {column : UInt64} (h : column.toNat < 2 ^ 63) :
    signed column = column.toNat :=
  BitVec.toInt_eq_toNat_of_lt (by change 2 * column.toNat < 2 ^ 64; omega)

theorem signed_of_ge {column : UInt64} (h : 2 ^ 63 ≤ column.toNat) :
    signed column = column.toNat - (2 ^ 64 : Nat) := by
  change column.toBitVec.toInt = _
  rw [BitVec.toInt_eq_toNat_cond, if_neg]
  · rfl
  · change ¬2 * column.toNat < 2 ^ 64
    omega

theorem signed_of_nonneg {column : UInt64} (h : 0 ≤ signed column) :
    signed column = column.toNat := by
  have hcolumn : 0 ≤ column.toBitVec.toInt := h
  exact BitVec.toInt_eq_toNat_of_lt (BitVec.toInt_pos_iff.mp hcolumn)

theorem before_iff {a b : OpRow} : a.before b ↔ signed a.1.tsMs < signed b.1.tsMs ∨
    signed a.1.tsMs = signed b.1.tsMs ∧ signed a.1.seq ≤ signed b.1.seq := by
  rw [before, Int64.lt_iff_toInt_lt, Int64.le_iff_toInt_le, ← Int64.toInt_inj]
  rfl

instance : Std.Total before where
  total a b := by
    rw [before_iff, before_iff]
    omega

instance : IsTrans OpRow before where
  trans a b c := by
    rw [before_iff, before_iff, before_iff]
    omega

/-- Two ops of one sender do not tie. -/
theorem id_eq_of_before {a b : OpRow} (hsender : a.1.sender = b.1.sender)
    (hab : a.before b) (hba : b.before a) : a.1 = b.1 := by
  obtain ⟨⟨sender, seq, tsMs⟩, _⟩ := a
  obtain ⟨⟨sender', seq', tsMs'⟩, _⟩ := b
  obtain rfl : sender = sender' := hsender
  simp only [before_iff] at hab hba
  obtain rfl : tsMs = tsMs' := signed_inj.mp (by omega)
  obtain rfl : seq = seq' := signed_inj.mp (by omega)
  rfl

end OpRow

namespace Store

variable {s s' : Store} {orders orders' : Orders} {peer : Key}

theorem conversation_perm : (s.conversation orders peer).Perm
    (s.ops.rows.filter fun row => row.2.1 = peer) :=
  (List.perm_insertionSort _ _).trans (orders.ops_perm _)

theorem nodup_conversation (s : Store) (orders : Orders) (peer : Key) :
    ((s.conversation orders peer).map Prod.fst).Nodup :=
  (conversation_perm.map Prod.fst).nodup_iff.mpr
    (s.ops.nodup.sublist (List.filter_sublist.map Prod.fst))

/-- In the conversation, the two stores have the same ops of this sender. -/
def SameOf (peer sender : Key) (s s' : Store) : Prop :=
  ∀ row : OpRow, row.2.1 = peer → row.1.sender = sender →
    (row ∈ s.ops.rows ↔ row ∈ s'.ops.rows)

theorem SameOf.filter_conversation {sender : Key} (h : s.SameOf peer sender s') :
    ((s.conversation orders peer).filter fun row => row.1.sender = sender) =
      (s'.conversation orders' peer).filter fun row => row.1.sender = sender := by
  have hperm : ((s.conversation orders peer).filter fun row => row.1.sender = sender).Perm
      ((s'.conversation orders' peer).filter fun row => row.1.sender = sender) := by
    rw [List.perm_ext_iff_of_nodup ((nodup_conversation s orders peer).of_map.filter _)
      ((nodup_conversation s' orders' peer).of_map.filter _)]
    intro row
    simp only [List.mem_filter, mem_conversation, decide_eq_true_eq]
    constructor
    · rintro ⟨⟨hrow, hpeer⟩, hsender⟩
      exact ⟨⟨(h row hpeer hsender).mp hrow, hpeer⟩, hsender⟩
    · rintro ⟨⟨hrow, hpeer⟩, hsender⟩
      exact ⟨⟨(h row hpeer hsender).mpr hrow, hpeer⟩, hsender⟩
  refine eq_of_perm_of_sorted hperm (fun a ha b hb hab hba => ?_)
    ((List.pairwise_insertionSort OpRow.before _).filter _)
    ((List.pairwise_insertionSort OpRow.before _).filter _)
  simp only [List.mem_filter, decide_eq_true_eq] at ha hb
  exact List.inj_on_of_nodup_map (nodup_conversation _ _ _) ha.1 hb.1
    (OpRow.id_eq_of_before (ha.2.trans hb.2.symm) hab hba)

/-- Each sender's ops come in one order, whatever order the rows are in. -/
theorem filter_conversation (hops : s.ops.rows.Perm s'.ops.rows) (sender : Key) :
    ((s.conversation orders peer).filter fun row => row.1.sender = sender) =
      (s'.conversation orders' peer).filter fun row => row.1.sender = sender :=
  SameOf.filter_conversation fun _ _ _ => hops.mem_iff

/-- The reactions of a conversation, settled. -/
def reactions (orders : Orders) (peer : Key) (s : Store) :
    Table (MessageId × String × Key) Bool :=
  ((s.conversation orders peer).foldl (Fold.op s.me s.settings) .empty).reactions

theorem get_reactions (key : MessageId × String × Key) :
    (s.reactions orders peer).get key =
      (s.conversation orders peer).foldl (OpRow.settle key) none :=
  Fold.get_foldl_op _ _ _

theorem reactions_perm (hops : s.ops.rows.Perm s'.ops.rows) :
    (s.reactions orders peer).rows.Perm (s'.reactions orders' peer).rows := by
  rw [List.perm_ext_iff_of_nodup (s.reactions orders peer).nodup.of_map
    (s'.reactions orders' peer).nodup.of_map]
  rintro ⟨key, on⟩
  rw [← Table.get_eq_some, ← Table.get_eq_some, get_reactions, get_reactions,
    ← foldl_settle_filter, filter_conversation hops, foldl_settle_filter]

theorem foldl_op_conversation (s : Store) (orders : Orders) (peer : Key) :
    ((s.conversation orders peer).foldl (Fold.op s.me s.settings) .empty).Indexed ∧
      ((s.conversation orders peer).foldl (Fold.op s.me s.settings) .empty).messages =
        content s.me s.settings (s.conversation orders peer) :=
  Fold.Indexed.empty.foldl_op (nodup_conversation s orders peer) (by simp [Fold.empty])

/-- A conversation is its content, with the reactions counted on it. -/
theorem messages_eq : s.messages orders peer =
    (content s.me s.settings (s.conversation orders peer)).map fun m =>
      Message.sortReactions { m with
        reactions := (orders.reactions (s.reactions orders peer).rows).foldl (tally s.me m.id)
          m.reactions } := by
  obtain ⟨hfold, hmessages⟩ := foldl_op_conversation s orders peer
  have hreact := hfold.foldl_react s.me (orders.reactions (s.reactions orders peer).rows)
  rw [hmessages] at hreact
  rw [messages]
  refine (congrArg (List.map Message.sortReactions) hreact).trans ?_
  rw [List.map_map]
  rfl

theorem nodup_messages : ((s.messages orders peer).map Message.id).Nodup := by
  obtain ⟨hfold, hmessages⟩ := foldl_op_conversation s orders peer
  rw [messages_eq, List.map_map, ← hmessages]
  exact hfold.nodup

theorem content_perm (hops : s.ops.rows.Perm s'.ops.rows) (me : Key)
    (settings : Table String String) :
    (content me settings (s.conversation orders peer)).Perm
      (content me settings (s'.conversation orders' peer)) := by
  refine perm_of_filter (fun m => m.id.sender) fun sender => ?_
  rw [filter_content, filter_content, filter_conversation hops]

/-- What `history` shows is the same for the same rows, whatever order they are in. -/
theorem messages_perm (hme : s.me = s'.me) (hsettings : s.settings = s'.settings)
    (hops : s.ops.rows.Perm s'.ops.rows) :
    (s.messages orders peer).Perm (s'.messages orders' peer) := by
  have hcontent : (content s.me s.settings (s.conversation orders peer)).Perm
      (content s.me s.settings (s'.conversation orders' peer)) := content_perm hops _ _
  rw [messages_eq, messages_eq, ← hme, ← hsettings]
  refine (hcontent.map _).trans (.of_eq ?_)
  refine List.map_congr_left fun m hm => ?_
  have hreactions : (orders.reactions (s.reactions orders peer).rows).Perm
      (orders'.reactions (s'.reactions orders' peer).rows) :=
    ((orders.reactions_perm _).trans (reactions_perm hops)).trans (orders'.reactions_perm _).symm
  have hnone : (m.reactions.map Prod.fst).Nodup := by simp [reactions_of_mem_content hm]
  have hsorted := sorted_tally_eq_of_perm s.me m.id hreactions hnone
  exact congrArg (fun slots => { m with reactions := slots }) hsorted

end Store

/-- What an op makes of a store that takes it. -/
def entered (peer : Key) (s : Store) (frame : Frame) : Store :=
  match frame.id with
  | none => s
  | some id =>
    { s with
      contacts := s.contacts.insertOrIgnore peer ()
      ops := s.ops.insertOrIgnore id (peer, frame) }

/-- A sequence of ops is recorded, one after another. -/
def recordAll (peer : Key) : List Frame → EStateM String Store (List Bool)
  | [] => pure []
  | frame :: frames => do
    let new ← Store.record Sqlite.ok peer frame
    let news ← recordAll peer frames
    pure (new :: news)

section

variable {peer : Key} {s : Store} {frame : Frame} {frames : List Frame} {id : MessageId}

theorem record_eq_ok (peer : Key) (s : Store) (hid : frame.id = some id) :
    (Store.record Sqlite.ok peer frame).run s =
      .ok (decide (id ∉ s.ops.keys)) (entered peer s frame) := by
  simp only [Store.record, entered, hid]
  rfl

theorem recordAll_eq_ok (peer : Key) (s : Store) (hid : ∀ f ∈ frames, ∃ id, f.id = some id) :
    ∃ news, (recordAll peer frames).run s = .ok news (frames.foldl (entered peer) s) := by
  induction frames generalizing s with
  | nil => exact ⟨[], rfl⟩
  | cons frame frames ih =>
    obtain ⟨id, hframe⟩ := hid frame List.mem_cons_self
    obtain ⟨news, hnews⟩ := ih (entered peer s frame) fun f hf => hid f (.tail _ hf)
    refine ⟨decide (id ∉ s.ops.keys) :: news, ?_⟩
    have hrecord := record_eq_ok peer s hframe
    simp only [EStateM.run] at hrecord hnews ⊢
    simp only [recordAll, bind, EStateM.bind, hrecord, hnews, pure, EStateM.pure]
    rfl

theorem get_ops_entered (hid : frame.id = some id) (id' : MessageId) :
    (entered peer s frame).ops.get id' =
      (s.ops.get id').or (if frame.id = some id' then some (peer, frame) else none) := by
  simp only [entered, hid, Table.get_insertOrIgnore, Option.some.injEq, eq_comm]

/-- A sequence leaves of each op the one that came first. -/
theorem get_ops_foldl (hid : ∀ f ∈ frames, ∃ id, f.id = some id) (id' : MessageId) :
    (frames.foldl (entered peer) s).ops.get id' =
      (s.ops.get id').or ((frames.find? fun f => f.id = some id').map fun f => (peer, f)) := by
  induction frames generalizing s with
  | nil => simp
  | cons frame frames ih =>
    obtain ⟨id, hframe⟩ := hid frame List.mem_cons_self
    rw [List.foldl_cons, ih fun f hf => hid f (.tail _ hf), get_ops_entered hframe, Option.or_assoc,
      List.find?_cons]
    by_cases h : frame.id = some id' <;> simp [h]

/-- An op that is there already is not new, and leaves everything as it is. -/
theorem recordAll_known (hids : ∀ f ∈ frames, ∃ id ∈ s.ops.keys, f.id = some id)
    (hpeer : frames ≠ [] → peer ∈ s.contacts.keys) :
    (recordAll peer frames).run s = .ok (frames.map fun _ => false) s := by
  induction frames with
  | nil => rfl
  | cons frame frames ih =>
    obtain ⟨id, hknown, hframe⟩ := hids frame List.mem_cons_self
    have hentered : entered peer s frame = s := by
      rw [entered, hframe]
      simp [Table.insertOrIgnore, hknown, hpeer]
    have hrecord := record_eq_ok peer s hframe
    have hrest := ih (fun f hf => hids f (.tail _ hf)) fun _ => hpeer (List.cons_ne_nil _ _)
    rw [hentered] at hrecord
    simp only [EStateM.run] at hrecord hrest ⊢
    simp [recordAll, bind, EStateM.bind, hrecord, hrest, pure, EStateM.pure, hknown]

theorem mem_contacts_entered (hid : frame.id = some id) :
    peer ∈ (entered peer s frame).contacts.keys := by
  rw [entered, hid, Table.mem_keys]
  refine ⟨(), ?_⟩
  rw [Table.get_insertOrIgnore]
  cases s.contacts.get peer <;> simp

theorem mem_contacts_of_mem (h : peer ∈ s.contacts.keys) (frames : List Frame) :
    peer ∈ (frames.foldl (entered peer) s).contacts.keys := by
  induction frames generalizing s with
  | nil => exact h
  | cons frame frames ih =>
    refine ih ?_
    cases hid : frame.id with
    | none => simpa [entered, hid] using h
    | some id => exact mem_contacts_entered hid

/-- The other settings of a store are not touched. -/
theorem foldl_entered_frame (frames : List Frame) :
    (frames.foldl (entered peer) s).me = s.me ∧
      (frames.foldl (entered peer) s).settings = s.settings := by
  induction frames generalizing s with
  | nil => exact ⟨rfl, rfl⟩
  | cons frame frames ih =>
    rw [List.foldl_cons, ih.1, ih.2]
    cases hid : frame.id <;> simp [entered, hid]

end

/-- Of a set of ops with an id each, a sequence finds the one of an id. -/
theorem find?_id {ops : Finset Frame} (hinj : ∀ f ∈ ops, ∀ g ∈ ops, f.id = g.id → f = g)
    {frames : List Frame} (hframes : ∀ f, f ∈ frames ↔ f ∈ ops) {id : MessageId} {f : Frame} :
    frames.find? (fun f => f.id = some id) = some f ↔ f ∈ ops ∧ f.id = some id := by
  constructor
  · intro hfind
    exact ⟨(hframes f).mp (List.mem_of_find?_eq_some hfind),
      by simpa using List.find?_some hfind⟩
  · rintro ⟨hf, hid⟩
    cases hfind : frames.find? fun f => f.id = some id with
    | none => exact absurd hid (by simpa using List.find?_eq_none.mp hfind f ((hframes f).mpr hf))
    | some g =>
      have hg : g.id = some id := by simpa using List.find?_some hfind
      have hmem := (hframes g).mp (List.mem_of_find?_eq_some hfind)
      rw [hinj g hmem f hf (hg.trans hid.symm)]

/-- A conversation is what has been said in it, however that arrived: in which order, by which
way, how often. -/
theorem history_ignores_arrival {ops : Finset Frame} (hids : ∀ f ∈ ops, ∃ id, f.id = some id)
    (hinj : ∀ f ∈ ops, ∀ g ∈ ops, f.id = g.id → f = g) {xs ys : List Frame}
    (hxs : ∀ f, f ∈ xs ↔ f ∈ ops) (hys : ∀ f, f ∈ ys ↔ f ∈ ops) (peer : Key) {s : Store}
    (hempty : s.ops = .empty) (orders orders' : Orders) :
    ∃ news t news' t' msgs msgs',
      (recordAll peer xs).run s = .ok news t ∧ (recordAll peer ys).run s = .ok news' t' ∧
      t.history none orders peer none = .ok msgs ∧ t'.history none orders' peer none = .ok msgs' ∧
      msgs.Perm msgs' ∧ (msgs.map Message.id).Nodup ∧
      ∀ zs : List Frame, (∀ f ∈ zs, f ∈ ops) →
        (recordAll peer zs).run t = .ok (zs.map fun _ => false) t := by
  have hget {frames : List Frame} (hframes : ∀ f, f ∈ frames ↔ f ∈ ops) (id : MessageId) :
      (frames.foldl (entered peer) s).ops.get id =
        (frames.find? fun f => f.id = some id).map fun f => (peer, f) := by
    rw [get_ops_foldl fun f hf => hids f ((hframes f).mp hf), hempty]
    rfl
  obtain ⟨news, hnews⟩ := recordAll_eq_ok peer s fun f hf => hids f ((hxs f).mp hf)
  obtain ⟨news', hnews'⟩ := recordAll_eq_ok peer s fun f hf => hids f ((hys f).mp hf)
  have hops : (xs.foldl (entered peer) s).ops.rows.Perm (ys.foldl (entered peer) s).ops.rows := by
    rw [List.perm_ext_iff_of_nodup (Table.nodup _).of_map (Table.nodup _).of_map]
    rintro ⟨id, row⟩
    rw [← Table.get_eq_some, ← Table.get_eq_some, hget hxs, hget hys]
    simp only [Option.map_eq_some_iff, find?_id hinj hxs, find?_id hinj hys]
  refine ⟨news, _, news', _, _, _, hnews, hnews', Store.history_eq_ok.mpr ⟨rfl, rfl⟩,
    Store.history_eq_ok.mpr ⟨rfl, rfl⟩, ?_, Store.nodup_messages, fun zs hzs => ?_⟩
  · refine Store.messages_perm ?_ ?_ hops
    · rw [(foldl_entered_frame xs).1, (foldl_entered_frame ys).1]
    · rw [(foldl_entered_frame xs).2, (foldl_entered_frame ys).2]
  · refine recordAll_known (fun f hf => ?_) fun hne => ?_
    · obtain ⟨id, hid⟩ := hids f (hzs f hf)
      refine ⟨id, Table.mem_keys.mpr ⟨(peer, f), ?_⟩, hid⟩
      rw [hget hxs, (find?_id hinj hxs).mpr ⟨hzs f hf, hid⟩]
      rfl
    · obtain ⟨f, hf⟩ := List.exists_mem_of_ne_nil zs hne
      cases xs with
      | nil => exact absurd ((hxs f).mpr (hzs f hf)) List.not_mem_nil
      | cons x xs =>
        obtain ⟨id, hid⟩ := hids x ((hxs x).mp List.mem_cons_self)
        exact mem_contacts_of_mem (mem_contacts_entered hid) xs

namespace Sample

open Wicara.Core.Sample

/-- 2 says something and takes it back; 3 likes it, at the same time. -/
def posted : Frame := .chat ⟨key 2, 1, 10⟩ "hi" none

def takenBack : Frame := .delete ⟨key 2, 2, 20⟩ ⟨key 2, 1, 10⟩

def liked : Frame := .react ⟨key 3, 2, 20⟩ ⟨key 2, 1, 10⟩ "+1" true

end Sample

open Sample in
theorem history_ignores_one_turned_around :
    ∃ news t news' t' msgs msgs',
      (recordAll (Core.Sample.key 2) [posted, takenBack, liked, posted]).run
        (Store.fresh (Core.Sample.key 1)) = .ok news t ∧
      (recordAll (Core.Sample.key 2) [liked, takenBack, posted]).run
        (Store.fresh (Core.Sample.key 1)) = .ok news' t' ∧
      t.history none .asStored (Core.Sample.key 2) none = .ok msgs ∧
      t'.history none .asStored (Core.Sample.key 2) none = .ok msgs' ∧
      msgs.Perm msgs' ∧ (msgs.map Message.id).Nodup ∧
      ∀ zs : List Frame, (∀ f ∈ zs, f ∈ ({posted, takenBack, liked} : Finset Frame)) →
        (recordAll (Core.Sample.key 2) zs).run t = .ok (zs.map fun _ => false) t :=
  history_ignores_arrival
    (by simp [posted, takenBack, liked, Frame.id])
    (by decide) (by simp; tauto) (by simp; tauto) _ rfl _ _

end Wicara.Client
