import Wicara.Lib.Table

universe u v

namespace Wicara.Lib

/-- Files and the names they go by.  No two names share a file; a file that has lost its name
can still be written to by whoever has it open. -/
structure Disk (ν : Type u) (β : Type v) [DecidableEq ν] where
  names : Table ν Nat
  files : List (List β)
  linked : ∀ name file, names.get name = some file → file < files.length
  single : ∀ name name' file, names.get name = some file → names.get name' = some file →
    name = name'

/-- What a write at `pos` makes of a file; a gap before it is filled. -/
def splice {β : Type v} (fill : β) (pos : Nat) (bytes old : List β) : List β :=
  if bytes = [] then old
  else old.take pos ++ List.replicate (pos - old.length) fill ++ bytes ++
    old.drop (pos + bytes.length)

/-- A file grows when the write is at its end. -/
theorem splice_length {β : Type v} (fill : β) (bytes old : List β) :
    splice fill old.length bytes old = old ++ bytes := by
  unfold splice
  split
  · simp [*]
  · simp

namespace Disk

variable {ν : Type u} {β : Type v} [DecidableEq ν]

def empty : Disk ν β := ⟨.empty, [], nofun, nofun⟩

def read (name : ν) (d : Disk ν β) : Option (List β) := (d.names.get name).bind (d.files[·]?)

/-- The file that `create` gives to this name: the one it has, or a new one. -/
def opened (name : ν) (d : Disk ν β) : Nat := (d.names.get name).getD d.files.length

theorem opened_le (name : ν) (d : Disk ν β) : d.opened name ≤ d.files.length := by
  unfold opened
  cases h : d.names.get name with
  | none => exact Nat.le_refl _
  | some file => exact Nat.le_of_lt (d.linked name file h)

theorem opened_eq {name name' : ν} {d : Disk ν β} (h : d.names.get name' = some (d.opened name)) :
    name' = name := by
  unfold opened at h
  cases hname : d.names.get name with
  | none =>
    rw [hname] at h
    exact absurd (d.linked name' _ h) (Nat.lt_irrefl _)
  | some file =>
    rw [hname] at h
    exact d.single _ _ _ h hname

/-- Opening for writing, with what was there thrown away. -/
def create (name : ν) (d : Disk ν β) : Disk ν β where
  names := d.names.upsert name (d.opened name)
  files := if d.opened name < d.files.length then d.files.set (d.opened name) []
    else d.files ++ [[]]
  linked := by
    intro name' file h
    have hopened := d.opened_le name
    rw [Table.get_upsert] at h
    split at h
    · obtain rfl := Option.some.inj h
      split
      · rwa [List.length_set]
      · rw [List.length_append, List.length_singleton]
        exact Nat.lt_succ_of_le hopened
    · have := d.linked name' file h
      split
      · rwa [List.length_set]
      · rw [List.length_append]
        exact Nat.lt_add_right _ this
  single := by
    intro name' name'' file h h'
    rw [Table.get_upsert] at h h'
    split at h
    · obtain rfl := Option.some.inj h
      split at h'
      · simp [*]
      · exact absurd (opened_eq h') ‹_›
    · split at h'
      · obtain rfl := Option.some.inj h'
        exact absurd (opened_eq h) ‹_›
      · exact d.single _ _ _ h h'

/-- A write by whoever has the file open, whatever it is called by now. -/
def write (fill : β) (file pos : Nat) (bytes : List β) (d : Disk ν β) : Disk ν β where
  names := d.names
  files := d.files.modify file (splice fill pos bytes)
  linked name file' h := by
    rw [List.length_modify]
    exact d.linked name file' h
  single := d.single

def unlink (name : ν) (d : Disk ν β) : Disk ν β where
  names := d.names.erase name
  files := d.files
  linked name' file h := by
    rw [Table.get_erase] at h
    split at h
    · cases h
    · exact d.linked name' file h
  single name' name'' file h h' := by
    rw [Table.get_erase] at h h'
    split at h
    · cases h
    · split at h'
      · cases h'
      · exact d.single _ _ _ h h'

theorem read_unlink (name : ν) (d : Disk ν β) : (d.unlink name).read name = none := by
  simp [read, unlink]

/-- The file of this name is this one, with these contents. -/
structure Holds (d : Disk ν β) (name : ν) (file : Nat) (bytes : List β) : Prop where
  named : d.names.get name = some file
  content : d.files[file]? = some bytes

variable {d : Disk ν β} {name name' : ν} {file file' : Nat} {bytes : List β}

theorem read_eq_some : d.read name = some bytes ↔ ∃ file, d.Holds name file bytes := by
  rw [read, Option.bind_eq_some_iff]
  exact exists_congr fun _ => ⟨fun h => ⟨h.1, h.2⟩, fun h => ⟨h.named, h.content⟩⟩

theorem Holds.read (h : d.Holds name file bytes) : d.read name = some bytes :=
  read_eq_some.mpr ⟨file, h⟩

theorem Holds.file_ne {bytes' : List β} (h : d.Holds name file bytes)
    (h' : d.Holds name' file' bytes') (hne : name ≠ name') : file ≠ file' := by
  rintro rfl
  exact hne (d.single _ _ _ h.named h'.named)

theorem holds_create (name : ν) (d : Disk ν β) :
    (d.create name).Holds name (d.opened name) [] := by
  refine ⟨by simp [create], ?_⟩
  have hopened := d.opened_le name
  simp only [create]
  split
  · rename_i hlt
    simp [hlt]
  · rename_i hge
    rw [show d.opened name = d.files.length by omega, List.getElem?_concat_length]

theorem Holds.create (h : d.Holds name file bytes) (hne : name ≠ name') :
    (d.create name').Holds name file bytes := by
  have hfile : file ≠ d.opened name' := by
    rintro rfl
    exact hne (opened_eq h.named)
  have hlt := d.linked name file h.named
  refine ⟨by simp [Disk.create, hne, h.named], ?_⟩
  simp only [Disk.create]
  split
  · rw [List.getElem?_set_ne hfile.symm, h.content]
  · rw [List.getElem?_append_left hlt, h.content]

theorem read_create_of_ne (d : Disk ν β) (hne : name ≠ name') :
    (d.create name').read name = d.read name := by
  rw [Disk.read, Disk.read, Disk.create, Table.get_upsert, if_neg hne]
  cases hname : d.names.get name with
  | none => rfl
  | some file =>
    have hfile : d.opened name' ≠ file := by
      rintro rfl
      exact hne (opened_eq hname)
    dsimp only [Option.bind_some]
    split
    · rw [List.getElem?_set_ne hfile]
    · rw [List.getElem?_append_left (d.linked name file hname)]

theorem read_unlink_of_ne (d : Disk ν β) (hne : name ≠ name') :
    (d.unlink name').read name = d.read name := by
  rw [Disk.read, Disk.read, Disk.unlink, Table.get_erase, if_neg hne]

theorem Holds.read_write_of_ne (h : d.Holds name' file bytes) (hne : name ≠ name') (fill : β)
    (pos : Nat) (more : List β) : (d.write fill file pos more).read name = d.read name := by
  rw [Disk.read, Disk.read, Disk.write]
  cases hname : d.names.get name with
  | none => rfl
  | some file' =>
    have hfile : file ≠ file' := by
      rintro rfl
      exact hne (d.single _ _ _ hname h.named)
    simp [hfile]

theorem Holds.write (h : d.Holds name file bytes) (fill : β) (more : List β) :
    (d.write fill file bytes.length more).Holds name file (bytes ++ more) :=
  ⟨h.named, by simp [Disk.write, h.content, splice_length]⟩

theorem Holds.write_of_ne (h : d.Holds name file bytes) (hne : file ≠ file') (fill : β) (pos : Nat)
    (more : List β) : (d.write fill file' pos more).Holds name file bytes :=
  ⟨h.named, by simp [Disk.write, h.content, hne.symm]⟩

/-- To write nothing changes nothing. -/
theorem Holds.write_nil (h : d.Holds name file bytes) (fill : β) (file' pos : Nat) :
    (d.write fill file' pos []).Holds name file bytes := by
  refine ⟨h.named, ?_⟩
  by_cases hfile : file' = file
  · subst hfile
    simp [Disk.write, h.content, splice]
  · simp [Disk.write, h.content, hfile]

theorem Holds.unlink (h : d.Holds name file bytes) (hne : name ≠ name') :
    (d.unlink name').Holds name file bytes :=
  ⟨by simp [Disk.unlink, hne, h.named], h.content⟩

end Disk

end Wicara.Lib
