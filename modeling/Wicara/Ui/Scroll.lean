import Wicara.Ui.Bounds
import Wicara.Ui.Chat
import Wicara.Ui.Refold

namespace Wicara.Client

open Wicara.Core Lib

/-- The line that the view starts with. -/
def topLine (focus : Focus) (total height : Nat) (cursorSpan : Nat × Nat) (scroll : Nat) : Nat :=
  if focus = .chat ∧ 0 < height then reveal height cursorSpan (total - height - scroll)
  else total - height - scroll

section

variable {total : Nat} {span : Nat × Nat} (hspan : span.2 ≤ total) (focus : Focus) (height : Nat)
  (scroll : Nat)

include hspan

theorem topLine_le : topLine focus total height span scroll ≤ total - height := by
  rw [topLine]
  split
  · exact reveal_le hspan (Nat.sub_le _ _)
  · exact Nat.sub_le _ _

/-- What is counted from the bottom is where the view starts. -/
theorem keepOnScreen_spec :
    ∃ scroll', keepOnScreen focus (total - height) height span scroll = some scroll' ∧
      min scroll' (total - height) =
        total - height - topLine focus total height span scroll := by
  rw [keepOnScreen, topLine]
  split
  · simp only [reveal]
    split
    · exact ⟨_, checkedSub_of_le (by omega), by omega⟩
    · split
      · exact ⟨_, rfl, by omega⟩
      · exact ⟨_, rfl, by omega⟩
  · exact ⟨_, rfl, by omega⟩

/-- No subtraction panics. -/
theorem adjustScroll_eq : adjustScroll focus total height span scroll =
    some (total - height - topLine focus total height span scroll,
      topLine focus total height span scroll) := by
  obtain ⟨scroll', hkeep, hmin⟩ := keepOnScreen_spec hspan focus height scroll
  have htop := Nat.sub_sub_self (topLine_le hspan focus height scroll)
  simp only [adjustScroll, hkeep, Option.bind_eq_bind, Option.bind_some, hmin,
    checkedSub_of_le (Nat.sub_le _ _), htop, Option.pure_def]

end

section

variable {height : Nat} (hheight : 0 < height) {span : Nat × Nat} (scroll : Nat)

include hheight

theorem topLine_chat (total : Nat) :
    topLine .chat total height span scroll = reveal height span (total - height - scroll) :=
  if_pos ⟨rfl, hheight⟩

theorem shows_topLine (total : Nat) (hfits : span.2 ≤ span.1 + height) :
    Shows height (topLine .chat total height span scroll) span := by
  rw [topLine_chat hheight]
  exact shows_reveal hfits _

/-- The next time, it is adjusted from where it is. -/
theorem topLine_again {total : Nat} (hspan : span.2 ≤ total) :
    topLine .chat total height span
        (total - height - topLine .chat total height span scroll) =
      reveal height span (topLine .chat total height span scroll) := by
  rw [topLine_chat hheight, Nat.sub_sub_self (topLine_le hspan .chat height scroll)]

/-- It has come to rest exactly if the span fits. -/
theorem topLine_again_iff {total : Nat} (hspan : span.2 ≤ total) :
    topLine .chat total height span
        (total - height - topLine .chat total height span scroll) =
      topLine .chat total height span scroll ↔ span.2 ≤ span.1 + height := by
  rw [topLine_again hheight scroll hspan, topLine_chat hheight, reveal_reveal_iff]

end

theorem Sheet.Holds.in_window {s : Sheet} {i start height top : Nat} {rows : List Row}
    (h : s.Holds i start rows) (hshows : Shows height top (start, start + rows.length)) :
    rows <:+: window height top s.lines := by
  obtain ⟨above, below, -, -, hlines, rfl, -, -⟩ := h
  rw [hlines, window_of_shows hshows]
  exact ⟨_, _, rfl⟩

namespace Ui

variable (d : Display) (ui : Ui) (area : Rect) {p : Peer}

/-- Where the view of a conversation starts. -/
def chatTop (p : Peer) : Nat :=
  topLine ui.focus (ui.sheet d area p).lines.length area.chatHeight (ui.sheet d area p).cursorSpan
    ui.scroll

/-- A frame that starts with the line `top`: the chat reads from the bottom, so a short log is
padded above. -/
def framed (sheet : Sheet) (height top : Nat) : Ui × Pane :=
  let view := window height top sheet.lines
  ({ ui with
      scroll := sheet.lines.length - height - top
      chatRows := padAbove (height - view.length) usizeMax (window height top sheet.owners) },
    .chat (padAbove (height - view.length) none (view.map some)))

theorem drawChat_eq (hopen : ¬(ui.help ∨ ui.members ∨ ui.net)) (hp : ui.peers[ui.sel]? = some p) :
    ui.drawChat d area =
      some (ui.framed (ui.sheet d area p) area.chatHeight (ui.chatTop d area p)) := by
  have hspan := (drawn_sheet d ui area p).span.2
  simp only [drawChat, if_neg hopen, hp, adjustScroll_eq hspan ui.focus, Option.map_some,
    List.length_map]
  rfl

/-- Drawing is one of the steps that a UI may take. -/
theorem drawChat_step (deps : Deps) :
    ∃ ui' pane, ui.drawChat d area = some (ui', pane) ∧ ∃ chatRows scroll, ui.step deps
      (.drawn ui.peersArea ui.chatArea ui.inputArea ui.offset chatRows scroll) = some ui' := by
  by_cases hopen : ui.help ∨ ui.members ∨ ui.net
  · exact ⟨ui, .other, if_pos hopen, ui.chatRows, ui.scroll, rfl⟩
  · cases hp : ui.peers[ui.sel]? with
    | none => exact ⟨ui, .other, by rw [drawChat, if_neg hopen, hp], ui.chatRows, ui.scroll, rfl⟩
    | some p => exact ⟨_, _, drawChat_eq d ui area hopen hp, _, _, rfl⟩

/-- So no frame panics, and everything stays where it may be. -/
theorem WellPlaced.drawChat {ui : Ui} (h : ui.WellPlaced) :
    ∃ ui' pane, ui.drawChat d area = some (ui', pane) ∧ ui'.WellPlaced := by
  obtain ⟨ui', pane, hframe, chatRows, scroll, hstep⟩ := drawChat_step d ui area d.toDeps
  obtain ⟨ui'', hrun, hplaced⟩ := h.step d.toDeps
    (.drawn ui.peersArea ui.chatArea ui.inputArea ui.offset chatRows scroll)
  rw [hstep] at hrun
  cases hrun
  exact ⟨ui', pane, hframe, hplaced⟩

/-- A row that is clicked is a message of the conversation that has been drawn, or none. -/
theorem chatRows_drawChat (hopen : ¬(ui.help ∨ ui.members ∨ ui.net))
    (hp : ui.peers[ui.sel]? = some p) : ∃ ui' view,
      ui.drawChat d area = some (ui', .chat view) ∧ view.length = area.chatHeight ∧
        ui'.chatRows.length = area.chatHeight ∧
        ∀ owner ∈ ui'.chatRows, owner = usizeMax ∨ owner < p.log.length := by
  have hdrawn := drawn_sheet d ui area p
  refine ⟨_, _, drawChat_eq d ui area hopen hp, ?_, ?_, fun owner howner => ?_⟩
  · rw [length_padAbove, List.length_map, length_window]
    omega
  · dsimp only
    rw [length_padAbove, length_window, length_window, hdrawn.owned]
    omega
  · obtain hblank | howner := mem_padAbove howner
    · exact .inl hblank
    · exact hdrawn.owners owner (mem_of_mem_window howner)

/-- A message that fits the pane is there as a whole while the chat has the focus, and the next
frame is the same. -/
theorem cursor_in_view (hopen : ¬(ui.help ∨ ui.members ∨ ui.net))
    (hp : ui.peers[ui.sel]? = some p) (hfocus : ui.focus = .chat) {e : Entry}
    (he : p.log[p.cursor]? = some e)
    (hfits : (messageRows d ui p area.chatWidth p.cursor e).length ≤ area.chatHeight) :
    ∃ ui' view, ui.drawChat d area = some (ui', .chat view) ∧
      (messageRows d ui p area.chatWidth p.cursor e).map some <:+: view ∧
      ui'.drawChat d area = some (ui', .chat view) := by
  have hdrawn := drawn_sheet d ui area p
  obtain ⟨hholds, hstop⟩ := hdrawn.cursor hfocus e he
  have hheight : 0 < area.chatHeight :=
    (List.length_pos_of_ne_nil (messageRows_ne_nil d ui p _ p.cursor e)).trans_le hfits
  have hspan_fits := hstop.trans_le (Nat.add_le_add_left hfits _)
  have hshows := shows_topLine hheight ui.scroll (ui.sheet d area p).lines.length hspan_fits
  have hrest := (topLine_again_iff hheight ui.scroll hdrawn.span.2).mpr hspan_fits
  rw [← hfocus] at hshows hrest
  have hagain : (ui.framed (ui.sheet d area p) area.chatHeight
      (ui.chatTop d area p)).1.chatTop d area p = ui.chatTop d area p := hrest
  have hframe := drawChat_eq d (ui.framed (ui.sheet d area p) area.chatHeight
    (ui.chatTop d area p)).1 area hopen hp
  rw [hagain] at hframe
  refine ⟨_, _, drawChat_eq d ui area hopen hp, ?_, hframe⟩
  refine List.IsInfix.trans ?_ (List.suffix_append _ _).isInfix
  exact (hholds.in_window (by rwa [← hstop])).map some

end Ui

/-- The scroll is adjusted without a panic, the message is there to be seen, from its first line on
and to its last if it fits, and the next time nothing moves. -/
def ViewSettles (total height : Nat) (span : Nat × Nat) (scroll : Nat) : Prop :=
  ∃ scroll' start, adjustScroll .chat total height span scroll = some (scroll', start) ∧
    (span.1 < span.2 → span.1 ∈ window height start (List.range total)) ∧
    (span.2 - span.1 ≤ height → ∀ line, span.1 ≤ line → line < span.2 →
      line ∈ window height start (List.range total)) ∧
    ∃ start', adjustScroll .chat total height span scroll' = some (scroll', start')

/-- The chat settles on the cursor's message exactly if that is no taller than the pane. -/
theorem view_settles_iff {total height : Nat} (hheight : 0 < height) {span : Nat × Nat}
    (hspan : span.1 ≤ span.2 ∧ span.2 ≤ total) (scroll : Nat) :
    ViewSettles total height span scroll ↔ span.2 - span.1 ≤ height := by
  obtain ⟨hstart, hstop⟩ := hspan
  have hfirst := adjustScroll_eq hstop .chat height scroll
  have hsecond := adjustScroll_eq hstop .chat height
    (total - height - topLine .chat total height span scroll)
  have hfits : span.2 - span.1 ≤ height ↔ span.2 ≤ span.1 + height := by omega
  rw [hfits, ← topLine_again_iff hheight scroll hstop]
  constructor
  · rintro ⟨scroll', start, hrun, -, -, start', hrest⟩
    rw [hfirst] at hrun
    cases hrun
    rw [hsecond] at hrest
    have hscroll := congrArg Prod.fst (Option.some.inj hrest)
    -- Neither line is past the last one that the view may start with.
    have hle := topLine_le hstop .chat height scroll
    have hle' := topLine_le hstop .chat height
      (total - height - topLine .chat total height span scroll)
    dsimp only at hscroll
    omega
  · intro hrest
    rw [hrest] at hsecond
    obtain ⟨habove, hbelow⟩ := shows_topLine hheight scroll total
      ((topLine_again_iff hheight scroll hstop).mp hrest)
    refine ⟨_, _, hfirst, fun hne => ?_, fun _ line hline hlt => ?_, _, hsecond⟩
    · rw [mem_window_range]
      omega
    · rw [mem_window_range]
      omega

theorem view_settles_on_two_lines :
    ViewSettles 10 4 (2, 4) 0 ∧ adjustScroll .chat 10 4 (2, 4) 0 = some (4, 2) :=
  ⟨(view_settles_iff (by decide) (by decide) 0).mpr (by decide), by decide⟩

namespace Sample

open Core.Sample

/-- Without a clock. -/
def paper : Display where
  toDeps := plain
  localTime _ := none
  human _ := []
  strWidth := List.length

/-- 2 has written a message of six lines, and the chat has the focus. -/
def reading : Ui :=
  shown [.event 0 (.known (key 2) none none),
    .event 0 (.log (key 2) [{ theirs 1 with body := "a\nb\nc\nd\ne\nf" }]), press .tab, press .tab]

/-- A frame in a pane of four rows. -/
def redrawn (ui : Ui) : Ui := ((ui.drawChat paper ⟨0, 0, 30, 6⟩).map Prod.fst).getD ui

end Sample

open Sample in
/-- Six lines do not fit a pane of four: every other frame shows the last of them, and then the
first ones again. -/
theorem tall_message_never_settles :
    adjustScroll .chat 6 4 (0, 6) 0 = some (2, 0) ∧
      adjustScroll .chat 6 4 (0, 6) 2 = some (0, 2) ∧
      0 ∉ window 4 2 (List.range 6) ∧
      ¬ViewSettles 6 4 (0, 6) 0 ∧
      (redrawn reading).scroll = 2 ∧
      (redrawn (redrawn reading)).scroll = 0 ∧
      (redrawn (redrawn (redrawn reading))).scroll = 2 := by
  have hfirst : adjustScroll .chat 6 4 (0, 6) 0 = some (2, 0) := by decide
  have hsecond : adjustScroll .chat 6 4 (0, 6) 2 = some (0, 2) := by decide
  refine ⟨hfirst, hsecond, by decide, ?_, by decide +kernel, by decide +kernel, by decide +kernel⟩
  rintro ⟨scroll', start, hrun, -, -, start', hrest⟩
  rw [hfirst] at hrun
  cases hrun
  rw [hsecond] at hrest
  cases hrest

end Wicara.Client
