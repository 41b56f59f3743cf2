import Wicara.Lib.Viewport
import Wicara.Ui.Handlers
import Wicara.Ui.Wrap

namespace Wicara.Client

open Wicara.Core Lib

/-- What drawing takes from other crates. -/
structure Display extends Deps where
  /-- `from_timestamp_millis` in the local time zone: the day, counted, and `%H:%M`. -/
  localTime : Int → Option (Int × List Char)
  /-- A size as `human` writes it, in floating point. -/
  human : UInt64 → List Char
  /-- `str::width` -/
  strWidth : List Char → Nat

/-- What a row of the chat says, without its colours and what it is padded with. -/
inductive Row
  | note (text : List Char)
  | day (date : Int)
  | unread
  | name (who : List Char)
  | top
  | quote (text : List Char)
  | body (text : List Char) (mark : Option Delivery)
  | opening (stamp who text : List Char) (mark : Option Delivery)
  | bottom
  | stamp (text : List Char) (mark : Option Delivery)
  | reactions (chips : List (String × Nat × Bool))
  deriving DecidableEq

/-- `BUBBLE_MIN_PANE` -/
def bubbleMinPane : Nat := 50

/-- `BUBBLE_MAX` -/
def bubbleMax : Nat := 60

section

variable (d : Display)

def clock (tsMs : UInt64) : List Char :=
  ((d.localTime tsMs.toInt64.toInt).map Prod.snd).getD "--:--".toList

def day (tsMs : UInt64) : Option Int := (d.localTime tsMs.toInt64.toInt).map Prod.fst

def progressBar (done total : UInt64) : List Char :=
  let filled := min (if total = 0 then 0 else done.toNat * 20 / total.toNat) 20
  '[' :: List.replicate filled '=' ++ List.replicate (20 - filled) ' ' ++ "] ".toList ++
    d.human done ++ '/' :: d.human total

def firstLine (text : List Char) (width : Nat) : List Char :=
  let one := text.takeWhile (· ≠ '\n')
  match wrap d.charWidth d.strWidth one width with
  | l :: _ => if d.strWidth l < d.strWidth one then l ++ ['…'] else l
  | [] => []

variable (ui : Ui) (p : Peer) (width : Nat)

/-- What a reply quotes of the message it answers. -/
def quotation (entry : Entry) : Option (List Char) :=
  entry.replyTo.map fun target =>
    let text := match p.log.find? (·.id = target) with
      | some e => if e.deleted then "(deleted)".toList else e.body.toList
      | none => "(message not here)".toList
    "┆ ".toList ++ firstLine d text (width / 2)

/-- Messages of one person within five minutes of each other read as one run. -/
def grouped (i : Nat) (entry : Entry) : Bool :=
  match p.log[i - 1]? with
  | none => false
  | some prev =>
    0 < i ∧ prev.id.sender = entry.id.sender ∧
      entry.id.tsMs.toNat - prev.id.tsMs.toNat < 5 * 60 * 1000 ∧
      p.unreadFrom ≠ some i ∧ day d prev.id.tsMs = day d entry.id.tsMs

def attachmentLines (entry : Entry) (file : Attachment) : List (List Char) :=
  let state := match ui.transfers.get entry.id, file.path with
    | some (done, total), _ => progressBar d done total
    | none, some path => "saved to ".toList ++ path.toList
    | none, none => "waiting for the bytes".toList
  ["📎 ".toList ++ file.name.toList ++ " · ".toList ++ d.human file.size ++ " · blake3 ".toList ++
    (hex (file.hash.toList.take 4)).toList, state]

def bodyLines (room : Nat) (entry : Entry) : List (List Char) :=
  match entry.attachment with
  | some file => attachmentLines d ui entry file
  | none =>
    if entry.deleted then ["(deleted)".toList]
    else wrap d.charWidth d.strWidth entry.body.toList room

/-- `Bubble::render` -/
def bubble (body : List (List Char)) (quoted name : Option (List Char)) (stamp : List Char)
    (marker : Option Delivery) : List Row :=
  (name.map Row.name).toList ++ [.top] ++ (quoted.map Row.quote).toList ++
    body.map (.body · none) ++ [.bottom, .stamp stamp marker]

/-- The layout of a pane too narrow for bubbles: the mark is on the last line. -/
def compact (body : List (List Char)) (quoted : Option (List Char)) (stamp who : List Char)
    (grouped : Bool) (marker : Option Delivery) : List Row :=
  (quoted.map Row.quote).toList ++ body.zipIdx.map fun (chunk, n) =>
    let mark := if n + 1 = body.length then marker else none
    if n = 0 ∧ ¬grouped then .opening stamp who chunk mark else .body chunk mark

def messageRows (i : Nat) (entry : Entry) : List Row :=
  let bubbles := bubbleMinPane ≤ width
  let who := (if entry.outbound then ui.nickname else p.label).toList
  let stamp := clock d entry.id.tsMs
  let grouped := grouped d p i entry
  let quoted := quotation d p width entry
  let marker := if entry.outbound then ui.delivery.get entry.id else none
  let room := if bubbles then max (min width bubbleMax - 6) 8
    else max (width - (d.strWidth stamp + d.strWidth who + 2)) 8
  let body := bodyLines d ui room entry
  (if bubbles then
    bubble body quoted (if ¬grouped ∧ ¬entry.outbound then some who else none) stamp marker
  else compact body quoted stamp who grouped marker) ++
    if entry.reactions ≠ [] then [.reactions entry.reactions] else []

end

/-- `Vec::resize` -/
def resize {α : Type*} (xs : List α) (n : Nat) (x : α) : List α :=
  xs.take n ++ List.replicate (n - xs.length) x

/-- The rows of a conversation as they are drawn, and the notes that are still to come. -/
structure Sheet where
  lines : List Row
  /-- Which message each row came from. -/
  owners : List Nat
  /-- Where the cursor's message starts and ends. -/
  cursorSpan : Nat × Nat
  lastDay : Option Int
  notes : List (UInt64 × String)

namespace Sheet

def start (notes : List (UInt64 × String)) : Sheet := ⟨[], [], (0, 0), none, notes⟩

/-- A row that belongs to no message. -/
def aside (s : Sheet) (row : Row) : Sheet :=
  { s with lines := s.lines ++ [row], owners := s.owners ++ [usizeMax] }

variable (d : Display) (ui : Ui) (p : Peer) (width : Nat)

def emitNotes (upto : UInt64) (s : Sheet) : Sheet :=
  let due := s.notes.takeWhile fun n => n.1 ≤ upto
  let chunks := due.flatMap fun n => wrap d.charWidth d.strWidth n.2.toList (width - 4)
  { chunks.foldl (fun s chunk => s.aside (.note chunk)) s with
    notes := s.notes.dropWhile fun n => n.1 ≤ upto }

def dayBreak (date : Option Int) (s : Sheet) : Sheet :=
  match date with
  | some date =>
    if s.lastDay ≠ some date then { s with lastDay := some date }.aside (.day date) else s
  | none => s

def newMark (i : Nat) (s : Sheet) : Sheet := if p.unreadFrom = some i then s.aside .unread else s

def message (i : Nat) (entry : Entry) (s : Sheet) : Sheet :=
  let lines := s.lines ++ messageRows d ui p width i entry
  { s with
    lines := lines
    owners := resize s.owners lines.length i
    cursorSpan :=
      if i = p.cursor ∧ ui.focus = .chat then (s.lines.length, lines.length) else s.cursorSpan }

def entry (s : Sheet) (r : Entry × Nat) : Sheet :=
  (((s.emitNotes d width r.1.id.tsMs).dayBreak (day d r.1.id.tsMs)).newMark p r.2).message
    d ui p width r.2 r.1

end Sheet

/-- `a - b`, which would panic below zero. -/
def checkedSub (a b : Nat) : Option Nat := if b ≤ a then some (a - b) else none

/-- The scroll that keeps the cursor's message on screen. -/
def keepOnScreen (focus : Focus) (maxScroll height : Nat) (cursorSpan : Nat × Nat) (scroll : Nat) :
    Option Nat :=
  if focus = .chat ∧ 0 < height then
    let above := maxScroll - scroll
    if cursorSpan.1 < above then checkedSub maxScroll cursorSpan.1
    else if above + height < cursorSpan.2 then some (maxScroll - (cursorSpan.2 - height))
    else some scroll
  else some scroll

/-- The scroll, and the line that the view starts with; none if a subtraction would panic. -/
def adjustScroll (focus : Focus) (total height : Nat) (cursorSpan : Nat × Nat) (scroll : Nat) :
    Option (Nat × Nat) := do
  let maxScroll := total - height
  let scroll ← keepOnScreen focus maxScroll height cursorSpan scroll
  let scroll := min scroll maxScroll
  let start ← checkedSub maxScroll scroll
  pure (scroll, start)

namespace Rect

/-- The columns that the chat is wrapped to. -/
def chatWidth (area : Rect) : Nat := max (area.width - 2) 8

def chatHeight (area : Rect) : Nat := area.height - 2

end Rect

/-- What is in the pane of the chat: a blank row is none. -/
inductive Pane
  | other
  | chat (view : List (Option Row))
  deriving DecidableEq

namespace Ui

variable (d : Display) (ui : Ui)

def sheet (area : Rect) (p : Peer) : Sheet :=
  (p.log.zipIdx.foldl (Sheet.entry d ui p area.chatWidth) (.start p.notes)).emitNotes d
    area.chatWidth (.ofNat (2 ^ 64 - 1))

/-- Help, members and the map take the place of the chat. -/
def drawChat (area : Rect) : Option (Ui × Pane) :=
  if ui.help ∨ ui.members ∨ ui.net then some (ui, .other)
  else
    match ui.peers[ui.sel]? with
    | none => some (ui, .other)
    | some p =>
      let sheet := ui.sheet d area p
      let height := area.chatHeight
      (adjustScroll ui.focus sheet.lines.length height sheet.cursorSpan ui.scroll).map
        fun (scroll, start) =>
          let view := (window height start sheet.lines).map some
          let rows := window height start sheet.owners
          let missing := height - view.length
          ({ ui with scroll := scroll, chatRows := padAbove missing usizeMax rows },
            .chat (padAbove missing none view))

end Ui

theorem checkedSub_of_le {a b : Nat} (h : b ≤ a) : checkedSub a b = some (a - b) := if_pos h

theorem resize_eq {α : Type*} {xs : List α} {n : Nat} (h : xs.length ≤ n) (x : α) :
    resize xs n x = xs ++ List.replicate (n - xs.length) x := by
  rw [resize, List.take_of_length_le h]

section

variable (d : Display) (ui : Ui) (p : Peer) (width : Nat)

theorem bodyLines_ne_nil (room : Nat) (entry : Entry) : bodyLines d ui room entry ≠ [] := by
  rw [bodyLines]
  split
  · exact List.cons_ne_nil _ _
  · split
    · exact List.cons_ne_nil _ _
    · exact wrap_ne_nil _ _ _ _

/-- There is no message without a row. -/
theorem messageRows_ne_nil (i : Nat) (entry : Entry) : messageRows d ui p width i entry ≠ [] := by
  apply List.append_ne_nil_of_left_ne_nil
  split
  · exact List.append_ne_nil_of_right_ne_nil _ (List.cons_ne_nil _ _)
  · apply List.append_ne_nil_of_right_ne_nil
    simpa using bodyLines_ne_nil d ui _ entry

end

namespace Sheet

/-- Rows have been drawn that belong to no message. -/
structure Aside (s s' : Sheet) : Prop where
  rows : ∃ rows, s'.lines = s.lines ++ rows ∧
    s'.owners = s.owners ++ List.replicate rows.length usizeMax
  cursorSpan : s'.cursorSpan = s.cursorSpan

namespace Aside

variable {s s' s'' : Sheet}

theorem refl (s : Sheet) : Aside s s := ⟨⟨[], by simp⟩, rfl⟩

theorem trans (h : Aside s s') (h' : Aside s' s'') : Aside s s'' where
  rows := by
    obtain ⟨rows, hlines, howners⟩ := h.rows
    obtain ⟨rows', hlines', howners'⟩ := h'.rows
    refine ⟨rows ++ rows', ?_, ?_⟩
    · rw [hlines', hlines, List.append_assoc]
    · rw [howners', howners, List.append_assoc, List.replicate_append_replicate,
        List.length_append]
  cursorSpan := h'.cursorSpan.trans h.cursorSpan

end Aside

theorem aside_aside (s : Sheet) (row : Row) : Aside s (s.aside row) := ⟨⟨[row], rfl, rfl⟩, rfl⟩

theorem aside_emitNotes (d : Display) (width : Nat) (upto : UInt64) (s : Sheet) :
    Aside s (s.emitNotes d width upto) := by
  have hfold (chunks : List (List Char)) (s : Sheet) :
      Aside s (chunks.foldl (fun s chunk => s.aside (.note chunk)) s) := by
    induction chunks generalizing s with
    | nil => exact .refl s
    | cons chunk chunks ih => exact (aside_aside s _).trans (ih _)
  obtain ⟨hrows, hspan⟩ := hfold ((s.notes.takeWhile fun n => n.1 ≤ upto).flatMap fun n =>
    wrap d.charWidth d.strWidth n.2.toList (width - 4)) s
  exact ⟨hrows, hspan⟩

theorem aside_dayBreak (date : Option Int) (s : Sheet) : Aside s (s.dayBreak date) := by
  cases date with
  | none => exact .refl s
  | some date =>
    rw [dayBreak]
    split
    · exact ⟨⟨[_], rfl, rfl⟩, rfl⟩
    · exact .refl s

theorem aside_newMark (p : Peer) (i : Nat) (s : Sheet) : Aside s (s.newMark p i) := by
  rw [newMark]
  split
  · exact aside_aside s _
  · exact .refl s

/-- Message `i` takes up these rows, from this line on. -/
def Holds (s : Sheet) (i start : Nat) (rows : List Row) : Prop :=
  ∃ above below owners owners', s.lines = above ++ rows ++ below ∧ above.length = start ∧
    s.owners = owners ++ List.replicate rows.length i ++ owners' ∧ owners.length = start

/-- The messages `done` have been drawn: every row has an owner, one of these messages if any, and
the span of the cursor, if there is one, is where the cursor's message is. -/
structure Drawn (d : Display) (ui : Ui) (p : Peer) (width : Nat) (done : List Entry) (s : Sheet) :
    Prop where
  owned : s.owners.length = s.lines.length
  owners : ∀ owner ∈ s.owners, owner = usizeMax ∨ owner < done.length
  span : s.cursorSpan.1 ≤ s.cursorSpan.2 ∧ s.cursorSpan.2 ≤ s.lines.length
  cursor : ui.focus = .chat → ∀ e, done[p.cursor]? = some e →
    s.Holds p.cursor s.cursorSpan.1 (messageRows d ui p width p.cursor e) ∧
      s.cursorSpan.2 = s.cursorSpan.1 + (messageRows d ui p width p.cursor e).length

section

variable {d : Display} {ui : Ui} {p : Peer} {width : Nat} {done : List Entry} {s s' : Sheet}

/-- What is drawn below moves nothing. -/
theorem Holds.append {i start : Nat} {rows more : List Row} {others : List Nat}
    (h : s.Holds i start rows) (hlines : s'.lines = s.lines ++ more)
    (howners : s'.owners = s.owners ++ others) : s'.Holds i start rows := by
  obtain ⟨above, below, owners, owners', hl, hla, ho, hoa⟩ := h
  exact ⟨above, below ++ more, owners, owners' ++ others, by rw [hlines, hl, List.append_assoc],
    hla, by rw [howners, ho, List.append_assoc], hoa⟩

theorem Drawn.aside (hs : Drawn d ui p width done s) (h : Aside s s') :
    Drawn d ui p width done s' := by
  obtain ⟨rows, hlines, howners⟩ := h.rows
  refine ⟨?_, fun owner howner => ?_, ?_, fun hfocus e he => ?_⟩
  · rw [hlines, howners, List.length_append, List.length_append, List.length_replicate, hs.owned]
  · rw [howners] at howner
    obtain hold | hnew := List.mem_append.mp howner
    · exact hs.owners owner hold
    · exact .inl (List.eq_of_mem_replicate hnew)
  · rw [h.cursorSpan, hlines, List.length_append]
    exact ⟨hs.span.1, Nat.le_add_right_of_le hs.span.2⟩
  · rw [h.cursorSpan]
    obtain ⟨hholds, hspan⟩ := hs.cursor hfocus e he
    exact ⟨hholds.append hlines howners, hspan⟩

theorem drawn_start (notes : List (UInt64 × String)) : Drawn d ui p width [] (start notes) :=
  ⟨rfl, nofun, ⟨le_rfl, le_rfl⟩, nofun⟩

variable (d ui p width) in
theorem owners_message (h : s.owners.length = s.lines.length) (i : Nat) (e : Entry) :
    (s.message d ui p width i e).owners =
      s.owners ++ List.replicate (messageRows d ui p width i e).length i := by
  have hlen : (s.lines ++ messageRows d ui p width i e).length - s.owners.length =
      (messageRows d ui p width i e).length := by
    rw [h, List.length_append, Nat.add_sub_cancel_left]
  have hle : s.owners.length ≤ (s.lines ++ messageRows d ui p width i e).length := by
    rw [h, List.length_append]
    exact Nat.le_add_right _ _
  simp only [message]
  rw [resize_eq hle, hlen]

/-- The next message is drawn below. -/
theorem Drawn.message (hs : Drawn d ui p width done s) (e : Entry) :
    Drawn d ui p width (done ++ [e]) (s.message d ui p width done.length e) := by
  have howners := owners_message d ui p width hs.owned done.length e
  have hlines : (s.message d ui p width done.length e).lines =
      s.lines ++ messageRows d ui p width done.length e := rfl
  refine ⟨?_, fun owner howner => ?_, ?_, fun hfocus e' he' => ?_⟩
  · rw [howners, hlines, List.length_append, List.length_append, List.length_replicate, hs.owned]
  · rw [howners] at howner
    rw [List.length_append]
    obtain hold | hnew := List.mem_append.mp howner
    · exact (hs.owners owner hold).imp_right (Nat.lt_add_right _)
    · obtain rfl := List.eq_of_mem_replicate hnew
      exact .inr (Nat.lt_add_one _)
  · have hspan := hs.span
    simp only [Sheet.message, List.length_append]
    split
    · exact ⟨Nat.le_add_right _ _, le_rfl⟩
    · exact ⟨hspan.1, Nat.le_add_right_of_le hspan.2⟩
  · by_cases hcursor : done.length = p.cursor
    · rw [← hcursor, List.getElem?_concat_length] at he'
      obtain rfl := Option.some.inj he'
      have hspan : (s.message d ui p width done.length e).cursorSpan =
          (s.lines.length, s.lines.length + (messageRows d ui p width done.length e).length) := by
        rw [← List.length_append]
        exact if_pos ⟨hcursor, hfocus⟩
      rw [hspan, ← hcursor]
      exact ⟨⟨s.lines, [], s.owners, [], by rw [hlines, List.append_nil], rfl,
        by rw [howners, List.append_nil], hs.owned⟩, rfl⟩
    · have hspan : (s.message d ui p width done.length e).cursorSpan = s.cursorSpan :=
        if_neg fun h => hcursor h.1
      have hlt := (List.getElem?_eq_some_iff.mp he').1
      rw [List.length_append, List.length_singleton] at hlt
      rw [List.getElem?_append_left (by omega)] at he'
      obtain ⟨hholds, hstop⟩ := hs.cursor hfocus e' he'
      rw [hspan]
      exact ⟨hholds.append hlines howners, hstop⟩

theorem Drawn.entry (hs : Drawn d ui p width done s) (e : Entry) :
    Drawn d ui p width (done ++ [e]) (s.entry d ui p width (e, done.length)) :=
  (hs.aside ((aside_emitNotes d width _ s).trans
    ((aside_dayBreak _ _).trans (aside_newMark p _ _)))).message e

theorem Drawn.entries (hs : Drawn d ui p width done s) (entries : List Entry) :
    Drawn d ui p width (done ++ entries)
      ((entries.zipIdx done.length).foldl (Sheet.entry d ui p width) s) := by
  induction entries generalizing done s with
  | nil => simpa using hs
  | cons e entries ih =>
    have hnext := ih (hs.entry e)
    rw [List.length_append, List.length_singleton, List.append_assoc] at hnext
    exact hnext

end

end Sheet

/-- A conversation has been drawn to its end. -/
theorem Ui.drawn_sheet (d : Display) (ui : Ui) (area : Rect) (p : Peer) :
    Sheet.Drawn d ui p area.chatWidth p.log (ui.sheet d area p) :=
  ((Sheet.drawn_start p.notes).entries p.log).aside (Sheet.aside_emitNotes d area.chatWidth _ _)

end Wicara.Client
