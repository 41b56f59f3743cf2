import Wicara.Client.Ledger
import Wicara.Client.RoomRuns

namespace Wicara.Client

open Wicara.Core Lib Lib.Fallible Lib.Run Lib.Interleaving

variable {C : Crypto} {env : Env C} {alphanumeric : Char → Bool}

/-- Where every path comes from: one that stands under the key of an attachment was written
by the flow that has it on record, and what was unlinked stood under such a key. -/
structure Ledger.Sound (home : String) (l : Ledger) : Prop where
  placed : ∀ id path, l.settings.get (fileKey id) = some path →
    ∃ origin, l.origin.get (fileKey id) = some origin ∧ path ∈ l.known origin
  created : ∀ path ∈ l.created, InFiles home path
  unlinked : ∀ path ∈ l.unlinked, path ∈ l.created ∨ path ∈ l.sent

/-- What was sent is nowhere among the files of `receive`, and only these were unlinked. -/
structure Ledger.Apart (home : String) (l : Ledger) : Prop where
  sent : ∀ path ∈ l.sent, ¬InFiles home path
  unlinked : ∀ path ∈ l.unlinked, path ∈ l.created

/-- A task writes no path but one that its flow has on record. -/
def FileTask.Entitled (env : Env C) (alphanumeric : Char → Bool) (t : FileTask) (l : Ledger) :
    Prop :=
  ∀ p ∈ t.holds env alphanumeric, p.2 ∈ l.known p.1

theorem fileKey_ne_key (id : MessageId) (key : NameKey) : fileKey id ≠ key.key := by
  intro h
  have := congrArg (fun s => s.toList.head?) h
  cases key <;> simp [fileKey, NameKey.key, nickKey, aliasKey] at this

theorem OpRow.path_eq_some {settings : Table String String} {row : OpRow} {path : String}
    (h : OpRow.path settings row = some path) : settings.get (fileKey row.1) = some path := by
  obtain ⟨id, peer, frame⟩ := row
  cases frame with
  | file id' name size hash => exact h
  | _ => cases h

theorem FileTask.Entitled.mono {t t' : FileTask} {l l' : Ledger}
    (h : t.Entitled env alphanumeric l)
    (hholds : ∀ p ∈ t'.holds env alphanumeric, p ∈ t.holds env alphanumeric)
    (hknown : ∀ origin, l.known origin ⊆ l'.known origin) : t'.Entitled env alphanumeric l' :=
  fun p hp => hknown p.1 (h p (hholds p hp))

/-- No section takes a path off the record. -/
theorem FileTask.Section.known_subset {t t' : FileTask} {s : Store} {l l' : Ledger}
    (h : t.Section env alphanumeric s l t' l') (origin : Origin) :
    l.known origin ⊆ l'.known origin := by
  cases h with
  | sent => cases origin <;> simp [Ledger.known]
  | created => cases origin <;> simp [Ledger.known]
  | _ => exact List.Subset.refl _

theorem FileTask.Section.entitled {t t' : FileTask} {s : Store} {l l' : Ledger}
    (h : t.Section env alphanumeric s l t' l') (ht : t.Entitled env alphanumeric l) :
    t'.Entitled env alphanumeric l' := by
  have hknown := h.known_subset
  cases h with
  | quiet holds => exact ht.mono holds hknown
  | placed origin id path held holds => exact ht.mono holds hknown
  | sent io peer path start holds =>
    intro p hp
    rw [holds p hp]
    simp [Ledger.known]
  | created header holds =>
    intro p hp
    rw [holds p hp]
    simp [Ledger.known]
  | named key value holds =>
    intro p hp
    rw [holds] at hp
    cases hp
  | removed gone files rows holds =>
    intro p hp
    rw [holds] at hp
    cases hp

theorem FileTask.Section.sound {t t' : FileTask} {s : Store} {l l' : Ledger}
    (h : t.Section env alphanumeric s l t' l') (hslash : alphanumeric '/' = false)
    (hl : l.Sound env.home) (ht : t.Entitled env alphanumeric l) : l'.Sound env.home := by
  have hknown := h.known_subset
  -- a section that leaves the settings and the origins alone
  have hplaced : l'.settings = l.settings → l'.origin = l.origin → ∀ id path,
      l'.settings.get (fileKey id) = some path →
      ∃ origin, l'.origin.get (fileKey id) = some origin ∧ path ∈ l'.known origin := by
    intro hsettings horigin id path hget
    rw [hsettings] at hget
    obtain ⟨origin, ho, hpath⟩ := hl.placed id path hget
    exact ⟨origin, by rw [horigin, ho], hknown origin hpath⟩
  cases h with
  | quiet holds => exact hl
  | sent io peer path start holds =>
    refine ⟨hplaced rfl rfl, hl.created, fun q hq => (hl.unlinked q hq).imp_right ?_⟩
    exact List.mem_append_left _
  | created header holds =>
    refine ⟨hplaced rfl rfl, fun q hq => ?_, fun q hq => (hl.unlinked q hq).imp_left ?_⟩
    · rcases List.mem_append.mp hq with hq | hq
      · exact hl.created q hq
      · obtain rfl := List.mem_singleton.mp hq
        exact landing_inFiles env hslash header
    · exact List.mem_append_left _
  | placed origin id path held holds =>
    refine ⟨fun id' path' hget => ?_, hl.created, hl.unlinked⟩
    simp only [Table.get_upsert] at hget ⊢
    by_cases hkey : fileKey id' = fileKey id
    · rw [if_pos hkey] at hget ⊢
      obtain rfl := Option.some.inj hget
      exact ⟨origin, rfl, ht _ held⟩
    · rw [if_neg hkey] at hget ⊢
      exact hl.placed id' path' hget
  | named key value holds =>
    refine ⟨fun id path hget => ?_, hl.created, hl.unlinked⟩
    rw [Table.get_upsert, if_neg (fileKey_ne_key id key)] at hget
    exact hl.placed id path hget
  | removed gone files rows holds =>
    refine ⟨fun id path hget => ?_, hl.created, fun path hpath => ?_⟩
    · rw [Table.get_deleteWhere] at hget
      exact hl.placed id path (Option.filter_eq_some_iff.mp hget).1
    · rcases List.mem_append.mp hpath with hpath | hpath
      · exact hl.unlinked path hpath
      · obtain ⟨row, -, -, hrow⟩ := rows path hpath
        obtain ⟨origin, -, hmem⟩ := hl.placed row.1 path (OpRow.path_eq_some hrow)
        cases origin with
        | sent => exact .inr hmem
        | received => exact .inl hmem

/-- What the next section must not do: send a file out of `home/files`, or remove an
attachment whose path `send` was the last to write. -/
structure FileTask.Harmless (home : String) (t : FileTask) (s : Store) (l : Ledger) : Prop where
  sends : ∀ io peer path, t = .send io peer path .start → ¬InFiles home path
  removes : ∀ row ∈ s.ops.rows, t.Removes s row → OpRow.path l.settings row ≠ none →
    l.origin.get (fileKey row.1) ≠ some .sent

theorem FileTask.Section.apart {t t' : FileTask} {s : Store} {l l' : Ledger}
    (h : t.Section env alphanumeric s l t' l') (hsound : l.Sound env.home)
    (hl : l.Apart env.home) (hharmless : t.Harmless env.home s l) : l'.Apart env.home := by
  cases h with
  | quiet holds => exact hl
  | sent io peer path start holds =>
    refine ⟨fun q hq => ?_, hl.unlinked⟩
    rcases List.mem_append.mp hq with hq | hq
    · exact hl.sent q hq
    · obtain rfl := List.mem_singleton.mp hq
      exact hharmless.sends io peer q start
  | created header holds => exact ⟨hl.sent, fun q hq => List.mem_append_left _ (hl.unlinked q hq)⟩
  | placed origin id path held holds => exact ⟨hl.sent, hl.unlinked⟩
  | named key value holds => exact ⟨hl.sent, hl.unlinked⟩
  | removed gone files rows holds =>
    refine ⟨hl.sent, fun path hpath => ?_⟩
    rcases List.mem_append.mp hpath with hpath | hpath
    · exact hl.unlinked path hpath
    · obtain ⟨row, hrow, hremoves, hpathrow⟩ := rows path hpath
      obtain ⟨origin, ho, hmem⟩ := hsound.placed row.1 path (OpRow.path_eq_some hpathrow)
      cases origin with
      | sent => exact absurd ho (hharmless.removes row hrow hremoves (by simp [hpathrow]))
      | received => exact hmem

abbrev FileTasks := Pool World FileTask

/-- The invariant of every run. -/
abbrev FileTasks.Traced (env : Env C) (alphanumeric : Char → Bool) (p : FileTasks) : Prop :=
  p.Holds (fun w => w.ledger.Sound env.home) fun t w => t.Entitled env alphanumeric w.ledger

/-- A task that has not begun. -/
def FileTask.Fresh : FileTask → Prop
  | .send _ _ _ .start | .receive _ _ .start | .once _ false => True
  | _ => False

theorem FileTasks.Traced.start {app : App} {tasks : List FileTask}
    (happ : ∀ id, app.settings.get (fileKey id) = none) (htasks : ∀ t ∈ tasks, t.Fresh) :
    FileTasks.Traced env alphanumeric ⟨World.start app, tasks⟩ where
  shared := ⟨fun id path hget => by simp [World.ledger, World.start, happ] at hget, nofun, nofun⟩
  tasks i t ht p hp := by
    have hfresh := htasks t (List.mem_of_getElem? ht)
    cases t with
    | send io peer path pc =>
      cases pc with
      | start => cases hp
      | _ => exact hfresh.elim
    | receive io peer pc =>
      cases pc with
      | start => cases hp
      | _ => exact hfresh.elim
    | once call isDone => cases hp

theorem FileTasks.Traced.step (hslash : alphanumeric '/' = false) {p : FileTasks}
    (h : p.Traced env alphanumeric) (i : Nat) :
    FileTasks.Traced env alphanumeric (p.step (FileTask.advance env alphanumeric) i) := by
  refine Pool.Holds.step (P := fun _ _ _ => True) ?_ ?_ h fun _ _ _ _ _ => trivial
  · rintro t w - hsound hentitled
    have hs := t.section_advance env alphanumeric w
    exact ⟨hs.sound hslash hsound hentitled, hs.entitled hentitled⟩
  · rintro t u w - hentitled
    exact hentitled.mono (fun _ h => h) (t.section_advance env alphanumeric w).known_subset

/-- Task `i` does nothing harmful in its next section. -/
def FileTasks.Harmless (home : String) (p : FileTasks) (i : Nat) : Prop :=
  ∀ t ∈ p.tasks[i]?, t.Harmless home p.shared.app.store p.shared.ledger

/-- Nothing is sent, and nothing removed that was: this much of it can be computed. -/
def FileTasks.SendsNothing (p : FileTasks) (i : Nat) : Prop :=
  ∀ t ∈ p.tasks[i]?, (match t with | .send _ _ _ .start => False | _ => True) ∧
    ∀ row ∈ p.shared.app.store.ops.rows, t.Removes p.shared.app.store row →
      OpRow.path p.shared.app.settings row ≠ none →
      p.shared.origin.get (fileKey row.1) ≠ some .sent

instance (p : FileTasks) (i : Nat) : Decidable (p.SendsNothing i) := by
  unfold FileTasks.SendsNothing
  have (t : FileTask) : Decidable (match t with | .send _ _ _ .start => False | _ => True) := by
    split <;> infer_instance
  infer_instance

theorem FileTasks.SendsNothing.harmless {home : String} {p : FileTasks} {i : Nat}
    (h : p.SendsNothing i) : p.Harmless home i := by
  intro t ht
  obtain ⟨hno, hremoves⟩ := h t ht
  refine ⟨?_, hremoves⟩
  rintro io peer path rfl
  exact hno.elim

theorem FileTasks.apart_step {p : FileTasks} {i : Nat} (h : p.Traced env alphanumeric)
    (hapart : p.shared.ledger.Apart env.home) (hi : p.Harmless env.home i) :
    (p.step (FileTask.advance env alphanumeric) i).shared.ledger.Apart env.home := by
  cases ht : p.tasks[i]? with
  | none =>
    rw [Pool.step_of_none ht]
    exact hapart
  | some t =>
    rw [Pool.step_of_some ht]
    exact (t.section_advance env alphanumeric p.shared).apart h.shared hapart (hi t ht)

/-- Whatever is mixed in whatever order: what is unlinked was created by `receive` or was
given to `/send`. -/
theorem unlinked_was_created_or_sent (hslash : alphanumeric '/' = false) {app : App}
    (happ : ∀ id, app.settings.get (fileKey id) = none) {tasks : List FileTask}
    (htasks : ∀ t ∈ tasks, t.Fresh) (schedule : List Nat) :
    let w := (run (Pool.step (FileTask.advance env alphanumeric)) ⟨World.start app, tasks⟩
      schedule).shared
    ∀ path ∈ w.unlinked, path ∈ w.created ∨ path ∈ w.sent := by
  have hstep : ∀ p i, FileTasks.Traced env alphanumeric p →
      FileTasks.Traced env alphanumeric (p.step (FileTask.advance env alphanumeric) i) :=
    fun p i h => h.step hslash i
  exact (run_invariant hstep (.start happ htasks) schedule).shared.unlinked

namespace Sample

open Core.Sample

/-- A client in its first run, with 2 on the line. -/
def firstRun : App := App.start (Store.fresh (key 1))

def photo : String := "/home/user/photo.jpg"

def bytes : List UInt8 := [137, 80, 78, 71]

def sendIo : SendIo where
  io := .ok
  setting := .ok
  metadata := some ⟨true, 4⟩
  hash := .ok (crypto.blake3 bytes)
  now := 7
  stream := none
  announced := none
  opened := none
  reads := [.data bytes none]
  spilt := 0
  stopped := none

def receiveIo : ReceiveIo where
  io := .ok
  setting := .ok
  header := .ok (some (.file ⟨key 2, 1, 9⟩ "../../cat.png" 4 (crypto.blake3 bytes)))
  create := none
  chunks := [.data bytes none]
  flush := none

def emptied : FileTask := .once (.clear ⟨.ok, .ok, 1⟩ (key 2)) false

/-- A file goes out, or comes in; then the conversation is emptied. -/
def sentAway : FileTasks := ⟨World.start firstRun, [.send sendIo (key 2) photo .start, emptied]⟩

def arrived : FileTasks := ⟨World.start firstRun, [.receive receiveIo (key 2) .start, emptied]⟩

end Sample

open Core.Sample Sample in
/-- Sending a file and emptying the conversation unlinks the file that was sent, where the
user has it. -/
theorem sent_file_is_unlinked :
    let w := (run (Pool.step (FileTask.advance (client 1 false) Char.isAlphanum)) sentAway
      [0, 0, 0, 0, 0, 1]).shared
    w.sent = [photo] ∧ w.created = [] ∧ w.unlinked = [photo] := by
  decide +kernel

/-- If no file out of `home/files` is sent, and no attachment is removed whose path `send`
was the last to write, then every path that is unlinked is a file that `receive` has created
in `home/files`, and none that was given to `/send`. -/
theorem only_received_files_are_unlinked (env : Env C) {alphanumeric : Char → Bool}
    (hslash : alphanumeric '/' = false) {app : App}
    (happ : ∀ id, app.settings.get (fileKey id) = none) {tasks : List FileTask}
    (htasks : ∀ t ∈ tasks, t.Fresh) (schedule : List Nat)
    (hharmless : Along (Pool.step (FileTask.advance env alphanumeric))
      (FileTasks.Harmless env.home) ⟨World.start app, tasks⟩ schedule) :
    let w := (run (Pool.step (FileTask.advance env alphanumeric)) ⟨World.start app, tasks⟩
      schedule).shared
    ∀ path ∈ w.unlinked, path ∈ w.created ∧ InFiles env.home path ∧ path ∉ w.sent := by
  have hstep : ∀ p i,
      FileTasks.Traced env alphanumeric p ∧ p.shared.ledger.Apart env.home →
      p.Harmless env.home i →
      FileTasks.Traced env alphanumeric (p.step (FileTask.advance env alphanumeric) i) ∧
        (p.step (FileTask.advance env alphanumeric) i).shared.ledger.Apart env.home :=
    fun p i h hi => ⟨h.1.step hslash i, FileTasks.apart_step h.1 h.2 hi⟩
  have hstart : (World.start app).ledger.Apart env.home := ⟨nofun, nofun⟩
  obtain ⟨htraced, hapart⟩ := hharmless.invariant hstep ⟨.start happ htasks, hstart⟩
  intro w path hpath
  have hcreated := hapart.unlinked path hpath
  have hfiles := htraced.shared.created path hcreated
  exact ⟨hcreated, hfiles, fun hsent => hapart.sent path hsent hfiles⟩

open Core.Sample Sample in
/-- Emptying a conversation in which a file has arrived unlinks the file that arrived. -/
theorem only_received_files_are_unlinked_photo :
    let w := (run (Pool.step (FileTask.advance (client 1 false) Char.isAlphanum)) arrived
      [0, 0, 0, 0, 0, 1]).shared
    ∀ path ∈ w.unlinked,
      path ∈ w.created ∧ InFiles (client 1 false).home path ∧ path ∉ w.sent := by
  have happ : ∀ id, firstRun.settings.get (fileKey id) = none := fun _ => rfl
  have htasks : ∀ t ∈ arrived.tasks, t.Fresh := by simp [arrived, emptied, FileTask.Fresh]
  have hnothing : Along (Pool.step (FileTask.advance (client 1 false) Char.isAlphanum))
      FileTasks.SendsNothing arrived [0, 0, 0, 0, 0, 1] := by
    decide +kernel
  exact only_received_files_are_unlinked (client 1 false) (by decide) happ htasks _
    (hnothing.mono fun _ _ h => h.harmless)

end Wicara.Client
