import Wicara.Lib.Text

namespace Wicara.Client

open Lib

/-- The lines that are full, and the one that is being written. -/
structure Page where
  out : List (List Char)
  line : List Char

section

variable (charWidth : Char → Option Nat) (strWidth : List Char → Nat)

/-- `c.width().unwrap_or(0)` -/
def columns (c : Char) : Nat := (charWidth c).getD 0

namespace Page

def empty : Page := ⟨[], []⟩

/-- `out.push(std::mem::take(&mut line))` -/
def flush (p : Page) : Page := ⟨p.out ++ [p.line], []⟩

/-- The line is done if so much more does not go on it. -/
def makeRoom (width more : Nat) (p : Page) : Page :=
  if p.line ≠ [] ∧ width < strWidth p.line + more then p.flush else p

def pushChar (width : Nat) (p : Page) (c : Char) : Page :=
  let p := p.makeRoom strWidth width (columns charWidth c)
  { p with line := p.line ++ [c] }

/-- A word that can never fit is split mid-word. -/
def pushWord (width : Nat) (p : Page) (word : List Char) : Page :=
  let p := p.makeRoom strWidth width (1 + strWidth word)
  if width < strWidth word then word.foldl (pushChar charWidth strWidth width) p
  else { p with line := (if p.line ≠ [] then p.line ++ [' '] else p.line) ++ word }

def pushParagraph (width : Nat) (p : Page) (para : List Char) : Page :=
  ((splitWhitespace para).foldl (pushWord charWidth strWidth width) p).flush

end Page

/-- Word wrap on display width, hard-splitting any word wider than the column. -/
def wrap (text : List Char) (width : Nat) : List (List Char) :=
  ((text.splitOnP (· = '\n')).foldl (Page.pushParagraph charWidth strWidth (max width 1))
    .empty).out

end

/-- The display width of a text as the sum of the widths of its characters. -/
def columnSum (charWidth : Char → Option Nat) : List Char → Nat
  | [] => 0
  | c :: text => columns charWidth c + columnSum charWidth text

/-- What is relied on of the display width of what these characters and blanks make up: it is that
sum, and a blank has one column.  Where an emoji is joined from others it is not so. -/
structure Summed (charWidth : Char → Option Nat) (strWidth : List Char → Nat)
    (chars : List Char) : Prop where
  str : ∀ l ⊆ ' ' :: chars, strWidth l = columnSum charWidth l
  blank : charWidth ' ' = some 1

/-- A line is no wider than it may be, but for a single character that cannot be split. -/
def Fits (charWidth : Char → Option Nat) (width : Nat) (line : List Char) : Prop :=
  columnSum charWidth line ≤ width ∨ ∃ c, line = [c] ∧ width < columns charWidth c

/-- What of a text is not whitespace. -/
def ink (text : List Char) : List Char := text.filter (!isWhitespace ·)

theorem ink_append (l r : List Char) : ink (l ++ r) = ink l ++ ink r := List.filter_append l r

theorem columnSum_append (charWidth : Char → Option Nat) (l r : List Char) :
    columnSum charWidth (l ++ r) = columnSum charWidth l + columnSum charWidth r := by
  induction l with
  | nil => exact (Nat.zero_add _).symm
  | cons c l ih => rw [List.cons_append, columnSum, columnSum, ih, Nat.add_assoc]

theorem columnSum_singleton (charWidth : Char → Option Nat) (c : Char) :
    columnSum charWidth [c] = columns charWidth c := rfl

namespace Page

variable {charWidth : Char → Option Nat} {strWidth : List Char → Nat} {chars : List Char}
  {width : Nat} {p : Page}

/-- All that has been written. -/
def text (p : Page) : List Char := p.out.flatten ++ p.line

structure Good (charWidth : Char → Option Nat) (chars : List Char) (width : Nat) (p : Page) :
    Prop where
  out : ∀ line ∈ p.out, Fits charWidth width line
  line : Fits charWidth width p.line
  chars : p.line ⊆ ' ' :: chars

variable (charWidth strWidth chars width) in
/-- `p'` comes of `p` by writing a text: the text is there then but for whitespace, no line is too
wide, and none that was done is taken back. -/
structure Writes (added : List Char) (p p' : Page) : Prop where
  good : Summed charWidth strWidth chars → added ⊆ ' ' :: chars → p.Good charWidth chars width →
    p'.Good charWidth chars width
  ink_text : ink p'.text = ink p.text ++ ink added
  out : p.out <+: p'.out

theorem Writes.refl (p : Page) : Writes charWidth strWidth chars width [] p p :=
  ⟨fun _ _ => id, by simp [ink], List.prefix_refl _⟩

theorem Writes.trans {l r : List Char} {p' p'' : Page}
    (h : Writes charWidth strWidth chars width l p p')
    (h' : Writes charWidth strWidth chars width r p' p'') :
    Writes charWidth strWidth chars width (l ++ r) p p'' where
  good hsummed hchars hp :=
    have ⟨hl, hr⟩ := List.append_subset.mp hchars
    h'.good hsummed hr (h.good hsummed hl hp)
  ink_text := by rw [h'.ink_text, h.ink_text, ink_append, List.append_assoc]
  out := h.out.trans h'.out

/-- Piece by piece. -/
theorem writes_foldl {α : Type*} {push : Page → α → Page} {piece : α → List Char}
    (hpush : ∀ p a, Writes charWidth strWidth chars width (piece a) p (push p a)) (as : List α)
    (p : Page) : Writes charWidth strWidth chars width (as.flatMap piece) p (as.foldl push p) := by
  induction as generalizing p with
  | nil => exact .refl p
  | cons a as ih => exact (hpush p a).trans (ih (push p a))

theorem writes_flush (p : Page) : Writes charWidth strWidth chars width [] p p.flush where
  good _ _ h := by
    refine ⟨fun line hline => ?_, .inl (Nat.zero_le _), List.nil_subset _⟩
    obtain hold | hnew := List.mem_append.mp hline
    · exact h.out line hold
    · obtain rfl := List.mem_singleton.mp hnew
      exact h.line
  ink_text := by simp [text, flush, ink]
  out := List.prefix_append _ _

variable (charWidth strWidth chars width) in
theorem writes_makeRoom (more : Nat) (p : Page) :
    Writes charWidth strWidth chars width [] p (p.makeRoom strWidth width more) := by
  rw [makeRoom]
  split
  · exact writes_flush p
  · exact .refl p

variable (strWidth width p) in
theorem room_makeRoom (more : Nat) : (p.makeRoom strWidth width more).line = [] ∨
    strWidth (p.makeRoom strWidth width more).line + more ≤ width := by
  rw [makeRoom]
  split
  · exact .inl rfl
  · rename_i hroom
    by_cases hempty : p.line = []
    · exact .inl hempty
    · exact .inr (Nat.not_lt.mp fun hlt => hroom ⟨hempty, hlt⟩)

/-- What fits on the line goes there, after a blank if it needs one. -/
theorem writes_line (p : Page) {blank : List Char} (hblank : blank = [] ∨ blank = [' '])
    (word : List Char)
    (hfits : Summed charWidth strWidth chars → p.line ⊆ ' ' :: chars → word ⊆ ' ' :: chars →
      Fits charWidth width (p.line ++ blank ++ word)) :
    Writes charWidth strWidth chars width word p { p with line := p.line ++ blank ++ word } where
  good hsummed hword h := by
    refine ⟨h.out, hfits hsummed h.chars hword, ?_⟩
    rw [List.append_subset, List.append_subset]
    refine ⟨⟨h.chars, ?_⟩, hword⟩
    rcases hblank with rfl | rfl <;> simp
  ink_text := by
    have hink : ink blank = [] := by rcases hblank with rfl | rfl <;> rfl
    simp only [text, ink_append, hink, List.nil_append, List.append_assoc]
  out := List.prefix_refl _

theorem writes_pushChar (p : Page) (c : Char) :
    Writes charWidth strWidth chars width [c] p (p.pushChar charWidth strWidth width c) := by
  have hfits (hsummed : Summed charWidth strWidth chars)
      (hline : (p.makeRoom strWidth width (columns charWidth c)).line ⊆ ' ' :: chars) :
      Fits charWidth width
        ((p.makeRoom strWidth width (columns charWidth c)).line ++ [] ++ [c]) := by
    have hc := columnSum_singleton charWidth c
    rw [List.append_nil]
    obtain hempty | hroom := room_makeRoom strWidth width p (columns charWidth c)
    · rw [hempty, List.nil_append]
      by_cases hwide : width < columns charWidth c
      · exact .inr ⟨c, rfl, hwide⟩
      · exact .inl (by omega)
    · left
      rw [hsummed.str _ hline] at hroom
      rw [columnSum_append]
      omega
  have hline := (writes_makeRoom charWidth strWidth chars width (columns charWidth c) p).trans
    (writes_line _ (.inl rfl) [c] fun hsummed hline _ => hfits hsummed hline)
  simpa only [pushChar, List.append_nil, List.nil_append] using hline

theorem writes_chars (p : Page) (word : List Char) :
    Writes charWidth strWidth chars width word p
      (word.foldl (pushChar charWidth strWidth width) p) := by
  have hchars : Writes charWidth strWidth chars width (word.flatMap fun c => [c]) p
      (word.foldl (pushChar charWidth strWidth width) p) := writes_foldl writes_pushChar word p
  rwa [List.flatMap_singleton'] at hchars

theorem writes_pushWord (p : Page) (word : List Char) :
    Writes charWidth strWidth chars width word p (p.pushWord charWidth strWidth width word) := by
  have hroom := room_makeRoom strWidth width p (1 + strWidth word)
  have hmade := writes_makeRoom charWidth strWidth chars width (1 + strWidth word) p
  simp only [pushWord]
  split
  · exact hmade.trans (writes_chars _ word)
  · rename_i hshort
    split
    · rename_i hne
      refine hmade.trans (writes_line _ (.inr rfl) word fun hsummed hold hchars => .inl ?_)
      have hle := hroom.resolve_left hne
      have hblank : columnSum charWidth [' '] = 1 := by
        rw [columnSum_singleton, columns, hsummed.blank, Option.getD_some]
      have hword := hsummed.str word hchars
      have hline := hsummed.str _ hold
      rw [columnSum_append, columnSum_append]
      omega
    · rename_i hline
      have hempty := not_not.mp hline
      refine hmade.trans ?_
      have hfits (hsummed : Summed charWidth strWidth chars) (hchars : word ⊆ ' ' :: chars) :
          Fits charWidth width
            ((p.makeRoom strWidth width (1 + strWidth word)).line ++ [] ++ word) := by
        rw [hempty, List.append_nil, List.nil_append]
        rw [hsummed.str word hchars] at hshort
        exact .inl (Nat.not_lt.mp hshort)
      have hline := writes_line (p.makeRoom strWidth width (1 + strWidth word)) (.inl rfl)
        word fun hsummed _ hchars => hfits hsummed hchars
      simpa only [List.append_nil] using hline

variable (charWidth strWidth chars width) in
/-- A paragraph ends with its last line. -/
theorem pushParagraph_spec (p : Page) (para : List Char) :
    Writes charWidth strWidth chars width para p (p.pushParagraph charWidth strWidth width para) ∧
      p.out.length < (p.pushParagraph charWidth strWidth width para).out.length := by
  have hwords : Writes charWidth strWidth chars width ((splitWhitespace para).flatMap id) p
      ((splitWhitespace para).foldl (pushWord charWidth strWidth width) p) :=
    writes_foldl writes_pushWord (splitWhitespace para) p
  have hflushed := hwords.trans (writes_flush _)
  rw [List.append_nil, List.flatMap_id, flatten_splitWhitespace] at hflushed
  refine ⟨⟨fun hsummed hchars => ?_, ?_, hflushed.out⟩, ?_⟩
  · exact hflushed.good hsummed (List.Subset.trans List.filter_sublist.subset hchars)
  · have hink : ink (ink para) = ink para := by simp [ink]
    rw [pushParagraph, hflushed.ink_text]
    exact congrArg _ hink
  · rw [pushParagraph, flush, List.length_append, List.length_singleton]
    exact Nat.lt_succ_of_le hwords.out.length_le

variable (charWidth strWidth width) in
theorem paragraphs_spec (paras : List (List Char)) (hline : p.line = []) :
    (paras.foldl (pushParagraph charWidth strWidth width) p).line = [] ∧
      p.out.length + paras.length ≤
        (paras.foldl (pushParagraph charWidth strWidth width) p).out.length := by
  induction paras generalizing p with
  | nil => exact ⟨hline, le_rfl⟩
  | cons para paras ih =>
    have hlt := (pushParagraph_spec charWidth strWidth [] width p para).2
    obtain ⟨hend, hle⟩ := ih (p := p.pushParagraph charWidth strWidth width para) rfl
    refine ⟨hend, ?_⟩
    rw [List.foldl_cons, List.length_cons]
    omega

end Page

/-- The last paragraph has ended with a line. -/
theorem wrap_ne_nil (charWidth : Char → Option Nat) (strWidth : List Char → Nat)
    (text : List Char) (width : Nat) : wrap charWidth strWidth text width ≠ [] := by
  obtain ⟨paras, para, hparas⟩ :=
    (List.eq_nil_or_concat (text.splitOnP (· = '\n'))).resolve_left (List.splitOnP_ne_nil _ _)
  rw [wrap, hparas, List.concat_eq_append, List.foldl_append]
  exact List.append_ne_nil_of_right_ne_nil _ (List.cons_ne_nil _ _)

/-- Nothing but whitespace is lost, and every paragraph has a line of its own.  Every line fits, if
the display width of what the text's characters make up is what they have together. -/
theorem wrap_fits_and_loses_nothing (charWidth : Char → Option Nat) (strWidth : List Char → Nat)
    (text : List Char) (width : Nat) :
    (Summed charWidth strWidth text → ∀ line ∈ wrap charWidth strWidth text width,
        Fits charWidth (max width 1) line) ∧
      ink (wrap charWidth strWidth text width).flatten = ink text ∧
      (text.splitOnP (· = '\n')).length ≤ (wrap charWidth strWidth text width).length := by
  have hwrites : Page.Writes charWidth strWidth text (max width 1)
      ((text.splitOnP (· = '\n')).flatMap id) .empty
      ((text.splitOnP (· = '\n')).foldl (Page.pushParagraph charWidth strWidth (max width 1))
        .empty) :=
    Page.writes_foldl (fun p para => (Page.pushParagraph_spec _ _ _ _ p para).1) _ _
  obtain ⟨hline, hlength⟩ := Page.paragraphs_spec (p := .empty) charWidth strWidth (max width 1)
    (text.splitOnP (· = '\n')) rfl
  have hchars : (text.splitOnP (· = '\n')).flatMap id ⊆ ' ' :: text := by
    rw [List.flatMap_id, flatten_splitOnP]
    exact List.Subset.trans List.filter_sublist.subset (List.subset_cons_self _ _)
  refine ⟨fun hsummed => (hwrites.good hsummed hchars
    ⟨nofun, .inl (Nat.zero_le _), List.nil_subset _⟩).out, ?_, ?_⟩
  · have hink := hwrites.ink_text
    rw [Page.text, hline, List.append_nil, List.flatMap_id, flatten_splitOnP] at hink
    rw [wrap, hink]
    have hbreak : ∀ c : Char, (!isWhitespace c && !decide (c = '\n')) = !isWhitespace c := by
      intro c
      by_cases hc : c = '\n'
      · subst hc
        decide
      · simp [hc]
    simp [ink, List.filter_filter, hbreak, Page.text, Page.empty]
  · rw [wrap]
    simpa [Page.empty] using hlength

namespace Sample

/-- Control characters have no width, and what is CJK or beyond has two columns. -/
def terminalWidth (c : Char) : Option Nat :=
  if isControl c then none else if c.toNat < 0x2E80 then some 1 else some 2

end Sample

open Sample in
theorem wrap_fits_and_loses_nothing_narrow :
    let lines := wrap terminalWidth (columnSum terminalWidth) "日本 hi you\n".toList 3
    lines = ["日".toList, "本".toList, "hi".toList, "you".toList, []] ∧
      ∀ line ∈ lines, Fits terminalWidth 3 line :=
  ⟨by decide +kernel,
    (wrap_fits_and_loses_nothing terminalWidth (columnSum terminalWidth) _ 3).1
      ⟨fun _ _ => rfl, rfl⟩⟩

end Wicara.Client
