import Mathlib.Tactic.Common

namespace Wicara.Lib

/-- All of a span of lines is on a pane whose first line is `top`. -/
def Shows (height top : Nat) (span : Nat × Nat) : Prop := top ≤ span.1 ∧ span.2 ≤ top + height

/-- The first line of the pane after it has been moved to a span that it does not show: up to the
span's first line, or down to its last. -/
def reveal (height : Nat) (span : Nat × Nat) (top : Nat) : Nat :=
  if span.1 < top then span.1
  else if top + height < span.2 then span.2 - height
  else top

section

variable {height top : Nat} {span : Nat × Nat}

theorem reveal_of_shows (h : Shows height top span) : reveal height span top = top := by
  rw [reveal, if_neg (Nat.not_lt.mpr h.1), if_neg (Nat.not_lt.mpr h.2)]

theorem shows_reveal (h : span.2 ≤ span.1 + height) (top : Nat) :
    Shows height (reveal height span top) span := by
  rw [reveal]
  split
  · exact ⟨Nat.le_refl _, h⟩
  · split
    · constructor
      · omega
      · omega
    · exact ⟨Nat.not_lt.mp ‹_›, Nat.not_lt.mp ‹_›⟩

/-- A span that is taller than the pane is never at rest: each time the other end of it is brought
into view. -/
theorem reveal_reveal_of_lt (h : span.1 + height < span.2) (top : Nat) :
    reveal height span top = span.1 ∧
        reveal height span (reveal height span top) = span.2 - height ∨
      reveal height span top = span.2 - height ∧
        reveal height span (reveal height span top) = span.1 := by
  have hup : reveal height span (span.2 - height) = span.1 := by
    rw [reveal, if_pos (by omega)]
  have hdown : reveal height span span.1 = span.2 - height := by
    rw [reveal, if_neg (Nat.lt_irrefl _), if_pos h]
  by_cases htop : span.1 < top
  · have hfirst : reveal height span top = span.1 := if_pos htop
    exact .inl ⟨hfirst, by rw [hfirst, hdown]⟩
  · have hfirst : reveal height span top = span.2 - height := by
      rw [reveal, if_neg htop, if_pos (by omega)]
    exact .inr ⟨hfirst, by rw [hfirst, hup]⟩

variable (height span top) in
theorem reveal_reveal_iff : reveal height span (reveal height span top) = reveal height span top ↔
    span.2 ≤ span.1 + height := by
  constructor
  · intro hrest
    by_contra hlt
    obtain ⟨hfirst, hsecond⟩ | ⟨hfirst, hsecond⟩ := reveal_reveal_of_lt (Nat.not_le.mp hlt) top
    · omega
    · omega
  · exact fun h => reveal_of_shows (shows_reveal h top)

theorem reveal_le {total : Nat} (hspan : span.2 ≤ total) (htop : top ≤ total - height) :
    reveal height span top ≤ total - height := by
  rw [reveal]
  split
  · omega
  · split
    · omega
    · exact htop

end

section

variable {α : Type*} {height top : Nat} {rows : List α}

/-- The rows that are on the pane. -/
def window (height top : Nat) (rows : List α) : List α := (rows.drop top).take height

theorem length_window : (window height top rows).length = min height (rows.length - top) := by
  rw [window, List.length_take, List.length_drop]

theorem mem_of_mem_window {row : α} (h : row ∈ window height top rows) : row ∈ rows :=
  List.mem_of_mem_drop (List.mem_of_mem_take h)

theorem mem_window_range {line total : Nat} : line ∈ window height top (List.range total) ↔
    top ≤ line ∧ line < top + height ∧ line < total := by
  rw [window, List.mem_take_iff_getElem]
  simp only [List.getElem_drop, List.getElem_range, List.length_drop, List.length_range]
  constructor
  · rintro ⟨i, hi, rfl⟩
    omega
  · rintro ⟨htop, hheight, htotal⟩
    exact ⟨line - top, by omega, by omega⟩

/-- A span that is shown is there in one piece. -/
theorem window_of_shows {above span below : List α}
    (h : Shows height top (above.length, above.length + span.length)) :
    window height top (above ++ span ++ below) =
      above.drop top ++ span ++ below.take (top + height - (above.length + span.length)) := by
  obtain ⟨hfirst, hlast⟩ := h
  dsimp only at hfirst hlast
  have hlen : (above.drop top ++ span).length ≤ height := by
    rw [List.length_append, List.length_drop]
    omega
  have hrest : height - (above.drop top ++ span).length =
      top + height - (above.length + span.length) := by
    rw [List.length_append, List.length_drop]
    omega
  rw [window, List.append_assoc, List.drop_append_of_le_length hfirst, ← List.append_assoc,
    List.take_append, List.take_of_length_le hlen, hrest]

/-- Rows that do not fill the pane are at the bottom of it. -/
def padAbove (missing : Nat) (blank : α) (rows : List α) : List α :=
  List.replicate missing blank ++ rows

theorem length_padAbove (missing : Nat) (blank : α) :
    (padAbove missing blank rows).length = missing + rows.length := by
  rw [padAbove, List.length_append, List.length_replicate]

theorem mem_padAbove {missing : Nat} {blank row : α} (h : row ∈ padAbove missing blank rows) :
    row = blank ∨ row ∈ rows := by
  obtain hblank | hrow := List.mem_append.mp h
  · exact .inl (List.eq_of_mem_replicate hblank)
  · exact .inr hrow

end

end Wicara.Lib
